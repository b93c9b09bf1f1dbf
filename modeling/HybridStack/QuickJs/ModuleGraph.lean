import HybridStack.Lib.Acyclic
import HybridStack.QuickJs.CommonJSModule

/-!
# Loading a graph of modules

A finite set of modules and what their scripts do: `Code` is a script that ends by itself once its
calls of `require` are answered. What it goes on with may depend on the modules it is given and, by
`Modules.code`, on everything that happened before it was started. `execute` runs it with `fuel`,
on the states of `CommonJSModule`; `Returns` is that some fuel is enough.

A module is put into `modules` only when its script has returned, so what a require waits for is
never found there.

- **`executeModule_returns`**: loading ends when no cycle of requires is reachable from the module.
  Where each script makes its requires whatever it is given, and no path is the registered name of
  another module, it ends only then.
- `cycle_never_returns`: two modules that require each other.
-/

namespace HybridStack.QuickJs.CommonJSModule

open Acyclic
open Transition

/-! ## Scripts -/

/-- What a script does: it returns its module, or it calls `require` and goes on with the result. -/
inductive Code
  | done
  | require (receiver : Receiver) (path : Name) (next : Loaded → Code)

namespace Code

/-- Some run of the script makes this call. -/
def Issues : Code → Receiver × Name → Prop
  | .done, _ => False
  | .require receiver path next, q => q = (receiver, path) ∨ ∃ m, (next m).Issues q

/-- Every run of the script requires this module. -/
def Always : Code → Name → Prop
  | .done, _ => False
  | .require receiver path next, moduleName =>
    resolved receiver path = .ok moduleName ∨ ∀ m, (next m).Always moduleName

/-- The script that makes these calls in turn. -/
def ofList : List (Receiver × Name) → Code
  | [] => .done
  | q :: qs => .require q.1 q.2 fun _ => ofList qs

theorem issues_ofList {qs : List (Receiver × Name)} {q : Receiver × Name} :
    (ofList qs).Issues q ↔ q ∈ qs := by
  induction qs with
  | nil => simp [ofList, Issues]
  | cons r qs ih => simp [ofList, Issues, ih, Nonempty.intro (⟨0, none⟩ : Loaded)]

theorem always_ofList {qs : List (Receiver × Name)} {moduleName : Name} :
    (ofList qs).Always moduleName ↔ ∃ q ∈ qs, resolved q.1 q.2 = .ok moduleName := by
  induction qs with
  | nil => simp [ofList, Always]
  | cons r qs ih => simp [ofList, Always, ih, Nonempty.intro (⟨0, none⟩ : Loaded)]

end Code

/-- The modules there are, and what the script of one does when it is started in a state. -/
structure Modules where
  names : List Name
  code : State → Name → Code

namespace Modules

variable (ms : Modules)

def getModuleScript (moduleName : Name) : Option Unit := if moduleName ∈ ms.names then some () else none

/-- The script that runs on top. -/
def current (s : State) : Code :=
  match s.stack with
  | [] => .done
  | f :: _ => ms.code s f.moduleName

/-- The rest of a script: the state after it, unless the fuel is used up or a `require` throws. -/
def execute : Nat → State → Code → Option State
  | 0, _, _ => none
  | _ + 1, s, .done => some s
  | fuel + 1, s, .require receiver path next =>
    match s.require ms.getModuleScript receiver path with
    | .error _ => none
    | .ok s' =>
      match s.lookup path with
      | some module => execute fuel s' (next module)
      | none =>
        match execute fuel s' (ms.current s') with
        | none => none
        | some t =>
          match t.stack with
          | [] => none
          | f :: stack =>
            execute fuel ({ t with stack }.scriptReturns f) (next ⟨t.nextId, f.moduleName⟩)

/-- `executeModule(moduleName)` returns. -/
def Returns (s : State) (moduleName : Name) : Prop :=
  ∃ s', s.executeModule ms.getModuleScript moduleName false = .ok s' ∧
    ∃ fuel t, ms.execute fuel s' (ms.current s') = some t

/-! ## The graph -/

/-- The script of `a` may require `b`. -/
def May (a b : Name) : Prop :=
  a ∈ ms.names ∧ ∃ s q, (ms.code s a).Issues q ∧ resolved q.1 q.2 = .ok b

/-- It does so in any case. -/
def Must (a b : Name) : Prop := a ∈ ms.names ∧ ∀ s, (ms.code s a).Always b

/-- The requires are between the modules: each stands for one of them, and the name of each can be
converted. -/
structure Closed : Prop where
  converts : ∀ m ∈ ms.names, ∃ c, convertModuleName none m = .ok c
  resolves : ∀ m ∈ ms.names, ∀ s q, (ms.code s m).Issues q →
    ∃ n ∈ ms.names, resolved q.1 q.2 = .ok n

/-- A path is the registered name of no module but the one it stands for. -/
def NoFalseHit : Prop := ∀ m ∈ ms.names, ∀ s q, (ms.code s m).Issues q →
  ∀ n ∈ ms.names, convertModuleName none n = .ok q.2 → resolved q.1 q.2 = .ok n

variable {ms}

theorem getModuleScript_of_mem {n : Name} (h : n ∈ ms.names) : ms.getModuleScript n = some () :=
  if_pos h

/-- What executing a module does before its script starts. -/
theorem executeModule_eq {s : State} {n c : Name} {required : Bool} (hn : n ∈ ms.names)
    (hc : convertModuleName none n = .ok c) :
    s.executeModule ms.getModuleScript n required =
      .ok { s with stack := ⟨n, c, required⟩ :: s.stack, executed := n :: s.executed } := by
  simp only [State.executeModule, getModuleScript_of_mem hn, State.executeModuleScript, hc]

/-! ## One call of `require` -/

/-- A script that calls `require` and comes to its end: the path is found, or a module is executed
first. -/
theorem execute_require {fuel : Nat} {s t : State} {receiver : Receiver} {path : Name}
    {next : Loaded → Code} : ms.execute (fuel + 1) s (.require receiver path next) = some t ↔
      (∃ n module, resolved receiver path = .ok n ∧ s.lookup path = some module ∧
        ms.execute fuel { s with returned := (n, module) :: s.returned } (next module) = some t) ∨
      ∃ n s' u f stack, resolved receiver path = .ok n ∧ s.lookup path = none ∧
        s.executeModule ms.getModuleScript n true = .ok s' ∧
        ms.execute fuel s' (ms.current s') = some u ∧ u.stack = f :: stack ∧
        ms.execute fuel ({ u with stack }.scriptReturns f) (next ⟨u.nextId, f.moduleName⟩) =
          some t := by
  rw [execute, State.require]
  cases resolved receiver path with
  | error e => simp
  | ok n =>
    simp only [Except.ok.injEq, exists_and_left, exists_eq_left']
    cases s.lookup path with
    | some module => simp
    | none =>
      simp only [reduceCtorEq, false_and, exists_false, false_or, true_and]
      cases s.executeModule ms.getModuleScript n true with
      | error e => simp
      | ok s' =>
        simp only [Except.ok.injEq, exists_eq_left']
        cases ms.execute fuel s' (ms.current s') with
        | none => simp
        | some u =>
          simp only [Option.some.injEq, exists_eq_left']
          cases u.stack with
          | nil => simp
          | cons f stack => simp

theorem execute_mono : ∀ {fuel : Nat} {s t : State} {c : Code},
    ms.execute fuel s c = some t → ms.execute (fuel + 1) s c = some t
  | 0, _, _, _, h => by simp [execute] at h
  | fuel + 1, s, t, .done, h => h
  | fuel + 1, s, t, .require receiver path next, h => by
    rw [execute_require] at h ⊢
    rcases h with ⟨n, module, hr, hl, hrest⟩ | ⟨n, s', u, f, stack, hr, hl, hs', hu, hstack, hrest⟩
    · exact Or.inl ⟨n, module, hr, hl, execute_mono hrest⟩
    · exact Or.inr ⟨n, s', u, f, stack, hr, hl, hs', execute_mono hu, hstack, execute_mono hrest⟩

theorem execute_le {fuel fuel' : Nat} (hle : fuel ≤ fuel') {s t : State} {c : Code}
    (h : ms.execute fuel s c = some t) : ms.execute fuel' s c = some t := by
  induction hle with
  | refl => exact h
  | step _ ih => exact execute_mono ih

/-- What an executed module pushes. -/
theorem executeModule_inv {s s' : State} {n : Name} {required : Bool}
    (h : s.executeModule ms.getModuleScript n required = .ok s') :
    n ∈ ms.names ∧ ∃ c, convertModuleName none n = .ok c ∧
      s' = { s with stack := ⟨n, c, required⟩ :: s.stack, executed := n :: s.executed } := by
  by_cases hn : n ∈ ms.names
  · simp only [State.executeModule, getModuleScript_of_mem hn, State.executeModuleScript] at h
    cases hc : convertModuleName none n with
    | error e => simp [hc] at h
    | ok c =>
      simp only [hc, Except.ok.injEq] at h
      exact ⟨hn, c, rfl, h.symm⟩
  · simp [State.executeModule, getModuleScript, hn] at h

/-- A script leaves the stack as it found it. -/
theorem execute_stack : ∀ {fuel : Nat} {s t : State} {c : Code},
    ms.execute fuel s c = some t → t.stack = s.stack
  | 0, _, _, _, h => by simp [execute] at h
  | fuel + 1, s, t, .done, h => by
    obtain rfl := Option.some.inj h
    rfl
  | fuel + 1, s, t, .require receiver path next, h => by
    rcases execute_require.1 h with ⟨n, module, -, -, hrest⟩ |
      ⟨n, s', u, f, stack, -, -, hs', hu, hstack, hrest⟩
    · exact (execute_stack hrest).trans rfl
    · obtain ⟨-, c, -, rfl⟩ := executeModule_inv hs'
      have hsame := (hstack.symm.trans (execute_stack hu) : _ = _ :: _)
      rw [execute_stack hrest]
      exact (List.cons.inj hsame).2

/-- Loading is a run of `CommonJSModule.step`. -/
theorem execute_reaches {s₀ : State} : ∀ {fuel : Nat} {s t : State} {c : Code},
    ms.execute fuel s c = some t →
    Reaches (step ms.getModuleScript) (fun _ _ => True) s₀ s →
    Reaches (step ms.getModuleScript) (fun _ _ => True) s₀ t
  | 0, _, _, _, h, _ => by simp [execute] at h
  | fuel + 1, s, t, .done, h, hs => by
    obtain rfl := Option.some.inj h
    exact hs
  | fuel + 1, s, t, .require receiver path next, h, hs => by
    rcases execute_require.1 h with ⟨n, module, hr, hl, hrest⟩ |
      ⟨n, s', u, f, stack, hr, hl, hs', hu, hstack, hrest⟩
    · refine execute_reaches hrest (hs.tail (a := .require receiver path) trivial ?_)
      simp [step, State.require, hr, hl, after]
    · have hpush : Reaches (step ms.getModuleScript) (fun _ _ => True) s₀ s' :=
        hs.tail (a := .require receiver path) trivial (by
          simp [step, State.require, hr, hl, hs', after])
      refine execute_reaches hrest ((execute_reaches hu hpush).tail (a := .scriptReturns) trivial ?_)
      simp [step, hstack]

/-! ## Where loading ends -/

/-- Executing the module ends, whenever it is executed. -/
def Completes (ms : Modules) (n : Name) : Prop :=
  ∀ (s s' : State) (required : Bool), s.executeModule ms.getModuleScript n required = .ok s' →
    ∃ fuel t, ms.execute fuel s' (ms.current s') = some t

/-- A script ends whose requires stand for modules that do. -/
theorem execute_of_completes (hclosed : ms.Closed) : ∀ c : Code,
    (∀ q, c.Issues q → ∃ n ∈ ms.names, resolved q.1 q.2 = .ok n ∧ Completes ms n) →
      ∀ s, ∃ fuel t, ms.execute fuel s c = some t
  | .done, _, s => ⟨1, s, rfl⟩
  | .require receiver path next, h, s => by
    obtain ⟨n, hn, hr, hcompletes⟩ := h (receiver, path) (Or.inl rfl)
    have hnext : ∀ m s, ∃ fuel t, ms.execute fuel s (next m) = some t := fun m =>
      execute_of_completes hclosed (next m) fun q hq => h q (Or.inr ⟨m, hq⟩)
    cases hl : s.lookup path with
    | some module =>
      obtain ⟨fuel, t, ht⟩ := hnext module { s with returned := (n, module) :: s.returned }
      exact ⟨fuel + 1, t, execute_require.2 (Or.inl ⟨n, module, hr, hl, ht⟩)⟩
    | none =>
      obtain ⟨c, hc⟩ := hclosed.converts n hn
      have hpush : s.executeModule ms.getModuleScript n true =
          .ok { s with stack := ⟨n, c, true⟩ :: s.stack, executed := n :: s.executed } :=
        executeModule_eq hn hc
      obtain ⟨fuel, u, hu⟩ := hcompletes s _ true hpush
      have hstack := execute_stack hu
      obtain ⟨fuel', t, ht⟩ := hnext ⟨u.nextId, n⟩
        (State.scriptReturns { u with stack := s.stack } ⟨n, c, true⟩)
      refine ⟨max fuel fuel' + 1, t, execute_require.2 (Or.inr ⟨n, _, u, ⟨n, c, true⟩, s.stack, hr,
        hl, hpush, execute_le (Nat.le_max_left _ _) hu, hstack, ?_⟩)⟩
      exact execute_le (Nat.le_max_right _ _) ht

/-- Induction along the requires. -/
theorem completes_of_ends (hclosed : ms.Closed) {n : Name} (h : Ends ms.May n) : Completes ms n := by
  induction h with
  | intro n _ ih =>
    intro s s' required hs'
    obtain ⟨hn, c, -, rfl⟩ := executeModule_inv hs'
    refine execute_of_completes hclosed _ (fun q hq => ?_) _
    obtain ⟨m, hm, hr⟩ := hclosed.resolves n hn _ q hq
    exact ⟨m, hm, hr, ih m ⟨hn, _, q, hq, hr⟩⟩

/-! ## And where it does not -/

/-- What is registered ends. -/
def RegisteredEnds (ms : Modules) (s : State) : Prop :=
  ∀ key module, s.modules.get key = some module →
    convertModuleName none module.moduleName = .ok (some key) ∧ module.moduleName ∈ ms.names ∧
      Ends ms.Must module.moduleName

theorem RegisteredEnds.scriptReturns {s : State} (h : RegisteredEnds ms s) {f : Running}
    (hconv : convertModuleName none f.moduleName = .ok f.converted) (hmem : f.moduleName ∈ ms.names)
    (hends : Ends ms.Must f.moduleName) (stack : List Running) :
    RegisteredEnds ms ({ s with stack }.scriptReturns f) := by
  intro key module hget
  simp only [State.scriptReturns, State.register] at hget
  cases hkey : f.converted with
  | none =>
    simp only [hkey] at hget
    exact h key module hget
  | some k =>
    simp only [hkey, LinkedMap.get_put] at hget
    split_ifs at hget with hk
    · obtain rfl := Option.some.inj hget
      exact ⟨by rw [hconv, hkey, hk], hmem, hends⟩
    · exact h key module hget

/-- A script that has ended requires only modules along which the requires end. The induction is on
the fuel: a module that a require waited for took less. -/
theorem ends_of_execute (hfalse : ms.NoFalseHit) : ∀ {fuel : Nat} {s t : State} {c : Code},
    ms.execute fuel s c = some t →
    (∀ q, c.Issues q → ∀ n ∈ ms.names, convertModuleName none n = .ok q.2 →
      resolved q.1 q.2 = .ok n) →
    RegisteredEnds ms s →
    (∀ n, c.Always n → Ends ms.Must n) ∧ RegisteredEnds ms t
  | 0, _, _, _, h, _, _ => by simp [execute] at h
  | fuel + 1, s, t, .done, h, _, hreg => by
    obtain rfl := Option.some.inj h
    exact ⟨fun n hn => hn.elim, hreg⟩
  | fuel + 1, s, t, .require receiver path next, h, hhit, hreg => by
    have hnext : ∀ m q, (next m).Issues q → ∀ n ∈ ms.names, convertModuleName none n = .ok q.2 →
        resolved q.1 q.2 = .ok n := fun m q hq => hhit q (Or.inr ⟨m, hq⟩)
    -- what the call itself stands for ends, and so does what comes after it
    have hassemble : ∀ (n : Name) (m : Loaded), resolved receiver path = .ok n → Ends ms.Must n →
        (∀ n, (next m).Always n → Ends ms.Must n) →
        ∀ n, (Code.require receiver path next).Always n → Ends ms.Must n := by
      intro n m hr hends hrest n' hn'
      rcases hn' with hr' | hall
      · obtain rfl := Except.ok.inj (hr.symm.trans hr')
        exact hends
      · exact hrest n' (hall m)
    rcases execute_require.1 h with ⟨n, module, hr, hl, hrest⟩ |
      ⟨n, s', u, f, stack, hr, hl, hs', hu, hstack, hrest⟩
    · obtain ⟨halways, hregt⟩ := ends_of_execute hfalse hrest (hnext module) hreg
      refine ⟨hassemble n module hr ?_ halways, hregt⟩
      obtain ⟨key, rfl, hget⟩ := Option.bind_eq_some_iff.1 hl
      obtain ⟨hconv, hmem, hends⟩ := hreg key module hget
      have hsame := hhit (receiver, some key) (Or.inl rfl) _ hmem hconv
      obtain rfl := Except.ok.inj (hr.symm.trans hsame)
      exact hends
    · obtain ⟨hn, c, hc, rfl⟩ := executeModule_inv hs'
      obtain ⟨hscript, hregu⟩ := ends_of_execute hfalse hu (hfalse n hn _) hreg
      have hends : Ends ms.Must n := Ends.intro fun m hm => hscript m (hm.2 _)
      have hframe : (⟨n, c, true⟩ : Running) = f ∧ s.stack = stack :=
        List.cons.inj ((execute_stack hu).symm.trans hstack)
      obtain ⟨rfl, rfl⟩ := hframe
      obtain ⟨halways, hregt⟩ := ends_of_execute hfalse hrest (hnext _)
        (hregu.scriptReturns hc hn hends s.stack)
      exact ⟨hassemble n _ hr hends halways, hregt⟩

theorem ends_of_returns (hfalse : ms.NoFalseHit) {n : Name} (h : ms.Returns {} n) :
    Ends ms.Must n := by
  obtain ⟨s', hs', fuel, t, ht⟩ := h
  obtain ⟨hn, c, -, rfl⟩ := executeModule_inv hs'
  have hreg : RegisteredEnds ms { ({} : State) with stack := [⟨n, c, false⟩], executed := [n] } :=
    fun key module hget => by simp at hget
  exact Ends.intro fun m hm => (ends_of_execute hfalse ht (hfalse n hn _) hreg).1 m (hm.2 _)

/-! ## Together -/

/-- **Loading ends where no cycle is reachable**, in every state the context may be in; and, unless a
path is the registered name of another module, in a new context only where no cycle is reachable of
requires that are made in any case. -/
theorem executeModule_returns (hclosed : ms.Closed) {n : Name} (hn : n ∈ ms.names) :
    (NoCycle ms.May n → ∀ s, ms.Returns s n) ∧
    (ms.NoFalseHit → ms.Returns {} n → NoCycle ms.Must n) ∧
    (ms.NoFalseHit → (∀ a b, ms.May a b → ms.Must a b) → (ms.Returns {} n ↔ NoCycle ms.May n)) := by
  have hends : NoCycle ms.May n → ∀ s, ms.Returns s n := by
    intro hcycle s
    obtain ⟨c, hc⟩ := hclosed.converts n hn
    have hpush : s.executeModule ms.getModuleScript n false =
        .ok { s with stack := ⟨n, c, false⟩ :: s.stack, executed := n :: s.executed } :=
      executeModule_eq hn hc
    have hdom : ∀ a b, ms.May a b → a ∈ ms.names.toFinset := fun a b h => List.mem_toFinset.2 h.1
    exact ⟨_, hpush, completes_of_ends hclosed (hcycle.ends hdom) s _ false hpush⟩
  have hback : ms.NoFalseHit → ms.Returns {} n → NoCycle ms.Must n := fun hfalse h =>
    (ends_of_returns hfalse h).noCycle
  exact ⟨hends, hback, fun hfalse hmust =>
    ⟨fun h => (hback hfalse h).mono hmust, fun h => hends h {}⟩⟩

/-! ## Scripts that are lists of requires -/

/-- Each module with the calls its script makes, whatever they return. -/
def ofRequires (l : List (Name × List (Receiver × Name))) : Modules where
  names := l.map Prod.fst
  code _ n := .ofList ((l.lookup n).getD [])

theorem may_iff_must {l : List (Name × List (Receiver × Name))} {a b : Name} :
    (ofRequires l).May a b ↔ (ofRequires l).Must a b := by
  simp only [May, Must, ofRequires, Code.issues_ofList, Code.always_ofList, exists_const,
    forall_const]

/-- The graph of such scripts. -/
theorem may_iff {l : List (Name × List (Receiver × Name))} {a b : Name} :
    (ofRequires l).May a b ↔ a ∈ l.map Prod.fst ∧
      ∃ q ∈ (l.lookup a).getD [], resolved q.1 q.2 = .ok b := by
  simp only [May, ofRequires, Code.issues_ofList, exists_const]

/-- Both conditions on the names, for such scripts. -/
theorem closed_and_noFalseHit {l : List (Name × List (Receiver × Name))}
    (hconv : ∀ m ∈ l.map Prod.fst, convertModuleName none m = .ok m)
    (hres : ∀ m ∈ l.map Prod.fst, ∀ q ∈ (l.lookup m).getD [],
      q.2 ∈ l.map Prod.fst ∧ resolved q.1 q.2 = .ok q.2) :
    (ofRequires l).Closed ∧ (ofRequires l).NoFalseHit := by
  refine ⟨⟨fun m hm => ⟨m, hconv m hm⟩, fun m hm s q hq => ?_⟩, fun m hm s q hq n hn hc => ?_⟩
  · obtain ⟨hmem, hr⟩ := hres m hm q (Code.issues_ofList.1 hq)
    exact ⟨q.2, hmem, hr⟩
  · obtain ⟨-, hr⟩ := hres m hm q (Code.issues_ofList.1 hq)
    rw [hr, ← Except.ok.inj ((hconv n hn).symm.trans hc)]

/-- `a` requires `b`. -/
def chain : List (Name × List (Receiver × Name)) :=
  [(some "a", [(.undefined, some "b")]), (some "b", [])]

theorem executeModule_returns_chain :
    (ofRequires chain).Closed ∧ (ofRequires chain).NoFalseHit ∧
    NoCycle (ofRequires chain).May (some "a") ∧ (ofRequires chain).Returns {} (some "a") := by
  obtain ⟨hclosed, hfalse⟩ : (ofRequires chain).Closed ∧ (ofRequires chain).NoFalseHit :=
    closed_and_noFalseHit (by decide) (by decide)
  have hb : Ends (ofRequires chain).May (some "b") := Ends.intro fun n hn => by
    obtain ⟨-, q, hq, -⟩ := may_iff.1 hn
    have hnone : ∀ q ∈ (chain.lookup (some "b")).getD [], False := by decide
    exact (hnone q hq).elim
  have ha : Ends (ofRequires chain).May (some "a") := Ends.intro fun n hn => by
    obtain ⟨-, q, hq, hr⟩ := may_iff.1 hn
    have hone : ∀ q ∈ (chain.lookup (some "a")).getD [], q = (.undefined, some "b") := by decide
    obtain rfl := hone q hq
    obtain rfl : some "b" = n := Except.ok.inj (Eq.trans (by decide) hr)
    exact hb
  obtain ⟨-, -, hiff⟩ := executeModule_returns hclosed (n := some "a") (by decide)
  exact ⟨hclosed, hfalse, ha.noCycle,
    (hiff hfalse fun _ _ => may_iff_must.1).2 ha.noCycle⟩

/-- Each requires the other. -/
def circle : List (Name × List (Receiver × Name)) :=
  [(some "a", [(.undefined, some "b")]), (some "b", [(.undefined, some "a")])]

/-- **Two modules that require each other are loaded for ever**: neither is registered before its
script returns. -/
theorem cycle_never_returns : ¬ ∀ (ms : Modules) (n : Name), ms.Closed → n ∈ ms.names →
    ms.Returns {} n := by
  intro h
  obtain ⟨hclosed, hfalse⟩ : (ofRequires circle).Closed ∧ (ofRequires circle).NoFalseHit :=
    closed_and_noFalseHit (by decide) (by decide)
  have hends := ends_of_returns hfalse (h _ (some "a") hclosed (by decide))
  have hab : (ofRequires circle).Must (some "a") (some "b") :=
    may_iff_must.1 (may_iff.2 ⟨by decide, (.undefined, some "b"), by decide, by decide⟩)
  have hba : (ofRequires circle).Must (some "b") (some "a") :=
    may_iff_must.1 (may_iff.2 ⟨by decide, (.undefined, some "a"), by decide, by decide⟩)
  exact hends.not_cycle (.tail (.single hab) hba)

end Modules

end HybridStack.QuickJs.CommonJSModule
