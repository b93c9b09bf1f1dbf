import HybridStack.Lib.LinkedMap
import HybridStack.Lib.Transition
import HybridStack.QuickJs.ModuleName

/-!
# `CommonJSModule`

| here | there |
| --- | --- |
| `moduleBaseName` | the callback's look at its receiver, CommonJSModule.java:17-25 |
| `State.require` | the rest of it, lines 26-32 |
| `State.executeModule` | lines 56-62 |
| `State.executeModuleScript`, `State.scriptReturns` | lines 44-54, up to the script and after it |

A script is JavaScript and may do anything: while it runs it calls `require` with any receiver and
any path, and so may code that runs later; it ends by returning its module object or by an exception
(`executeScript` throws, or there is no object to set the `id` of). Whatever a call of `require` or
`executeModule` throws itself leaves the state as it was.

- `Right`: no call of `require` has returned a module other than the one it names, and no module's
  script has been run twice.
- **`require_right`**: it is so in every run in which each call finds under the path what is
  registered under the name it resolves to, and each module first run is registered under its own
  name, not in the middle of being run, and has not failed before.
- `require_right_iff`: such a call is what it takes.
- `required_twice`: a module required as `./a` is not.
-/

namespace HybridStack.QuickJs.CommonJSModule

open Transition

/-! ## Receivers -/

/-- `this.module`, as `getObject("module")` sees it. -/
inductive ModuleProperty
  | undefined
  /-- Null, or anything that is no object. -/
  | notObject
  /-- `getString("filename")`, where there is such a property. -/
  | object (filename : Option Name)
  deriving DecidableEq, Repr

/-- The `this` of a call of `require`. -/
inductive Receiver
  | undefined
  /-- The callback is given null. -/
  | notObject
  | object (module : ModuleProperty)
  deriving DecidableEq, Repr

/-- What `require` and `executeModule` throw themselves. -/
inductive Failure
  | nullPointer
  | index (e : IndexError)
  /-- `RuntimeException("'moduleName' script is null")`. -/
  | scriptIsNull
  deriving DecidableEq, Repr

def moduleBaseName : Receiver → Except Failure Name
  | .undefined => .ok none
  | .notObject => .error .nullPointer
  | .object .undefined => .ok none
  | .object .notObject => .error .nullPointer
  | .object (.object none) => .ok none
  | .object (.object (some filename)) => .ok filename

/-- The name a call of `require` stands for. -/
def resolved (receiver : Receiver) (path : Name) : Except Failure Name :=
  match moduleBaseName receiver with
  | .error e => .error e
  | .ok base =>
    match convertModuleName base path with
    | .error e => .error (.index e)
    | .ok moduleName => .ok moduleName

/-! ## State -/

/-- A module object, and the name it was executed under. -/
structure Loaded where
  id : Nat
  moduleName : Name
  deriving DecidableEq, Repr

/-- A call of `executeModuleScript` whose script is running. -/
structure Running where
  moduleName : Name
  /-- `moduleName_`. -/
  converted : Name
  /-- A call of `require` waits for it. -/
  required : Bool
  deriving DecidableEq, Repr

structure State where
  modules : LinkedMap String Loaded := .empty
  stack : List Running := []
  nextId : Nat := 0
  /-- The modules whose script has been started, and those whose script has thrown. -/
  executed : List Name := []
  failed : List Name := []
  /-- The calls of `require` that have returned: the name, and the module whose exports they got. -/
  returned : List (Name × Loaded) := []

instance : Inhabited State := ⟨{}⟩

namespace State

/-- `modules.get(path)`; no null is ever put. -/
def lookup (s : State) (path : Name) : Option Loaded := path.bind s.modules.get

def executeModuleScript (s : State) (moduleName : Name) (required : Bool) : Except Failure State :=
  match convertModuleName none moduleName with
  | .error e => .error (.index e)
  | .ok converted =>
    .ok { s with
      stack := ⟨moduleName, converted, required⟩ :: s.stack
      executed := moduleName :: s.executed }

variable {Source : Type} (getModuleScript : Name → Option Source)

def executeModule (s : State) (moduleName : Name) (required : Bool) : Except Failure State :=
  match getModuleScript moduleName with
  | none => .error .scriptIsNull
  | some _ => s.executeModuleScript moduleName required

def require (s : State) (receiver : Receiver) (path : Name) : Except Failure State :=
  match resolved receiver path with
  | .error e => .error e
  | .ok moduleName =>
    match s.lookup path with
    | some module => .ok { s with returned := (moduleName, module) :: s.returned }
    | none => s.executeModule getModuleScript moduleName true

/-- `modules.put(moduleName_, module)`, unless the name is null. -/
def register (s : State) (converted : Name) (module : Loaded) : LinkedMap String Loaded :=
  match converted with
  | none => s.modules
  | some key => s.modules.put key module

/-- The script of `f` returns its module object; `s` is without `f`. -/
def scriptReturns (s : State) (f : Running) : State :=
  { s with
    modules := s.register f.converted ⟨s.nextId, f.moduleName⟩
    nextId := s.nextId + 1
    returned := if f.required then (f.moduleName, ⟨s.nextId, f.moduleName⟩) :: s.returned
      else s.returned }

end State

inductive Action
  /-- A script, or a function it left behind, calls `require`. -/
  | require (receiver : Receiver) (path : Name)
  /-- The application calls `executeModule`, or `executeModuleScript` with a source of its own. -/
  | executeModule (moduleName : Name)
  | executeModuleScript (moduleName : Name)
  /-- The script that runs on top ends. -/
  | scriptReturns
  | scriptThrows
  deriving DecidableEq, Repr

variable {Source : Type} (getModuleScript : Name → Option Source)

/-- The state after a call, which is the one before when it throws. -/
def after (s : State) : Except Failure State → State
  | .ok s' => s'
  | .error _ => s

def step (s : State) : Action → Option State
  | .require receiver path => some (after s (s.require getModuleScript receiver path))
  | .executeModule moduleName => some (after s (s.executeModule getModuleScript moduleName false))
  | .executeModuleScript moduleName => some (after s (s.executeModuleScript moduleName false))
  | .scriptReturns =>
    match s.stack with
    | f :: stack => some ({ s with stack }.scriptReturns f)
    | [] => none
  | .scriptThrows =>
    match s.stack with
    | f :: stack => some { s with stack, failed := f.moduleName :: s.failed }
    | [] => none

/-- Every call of `require` returned the module it names, and no script was run twice. -/
structure Right (s : State) : Prop where
  exports : ∀ r ∈ s.returned, r.2.moduleName = r.1
  once : s.executed.Nodup

/-! ## Where it is right -/

/-- The module can be executed: it will be registered under its own name, it is not being executed
and has not failed. -/
structure Fresh (s : State) (moduleName : Name) : Prop where
  notNull : moduleName ≠ none
  converted : convertModuleName none moduleName = .ok moduleName
  notRunning : ∀ f ∈ s.stack, f.moduleName ≠ moduleName
  notFailed : moduleName ∉ s.failed

/-- The module is not registered, and can be executed. -/
def CanExecute (s : State) (moduleName : Name) : Prop :=
  s.lookup moduleName = none ∧ Fresh s moduleName

/-- The raw path finds what is registered under the name it stands for; if that is nothing, the
module can be executed. -/
def StepOk (s : State) : Action → Prop
  | .require receiver path => ∀ moduleName, resolved receiver path = .ok moduleName →
      s.lookup path = s.lookup moduleName ∧
      (s.lookup moduleName = none → (getModuleScript moduleName).isSome → Fresh s moduleName)
  | .executeModule moduleName => (getModuleScript moduleName).isSome → CanExecute s moduleName
  | .executeModuleScript moduleName => CanExecute s moduleName
  | .scriptReturns | .scriptThrows => True

/-- What such steps keep. -/
structure Inv (s : State) : Prop where
  right : Right s
  /-- A module is registered under its own name. -/
  registered : ∀ key module, s.modules.get key = some module → module.moduleName = some key
  running : ∀ f ∈ s.stack, f.converted = f.moduleName ∧ f.moduleName ≠ none
  executed : ∀ moduleName, moduleName ∈ s.executed ↔
    (∃ f ∈ s.stack, f.moduleName = moduleName) ∨ moduleName ∈ s.failed ∨
      (s.lookup moduleName).isSome

theorem inv_start : Inv {} where
  right := ⟨by simp, by simp⟩
  registered key module h := by simp at h
  running f hf := by simp at hf
  executed moduleName := by cases moduleName <;> simp [State.lookup]

theorem Inv.lookup_name {s : State} (h : Inv s) {path : Name} {module : Loaded}
    (hl : s.lookup path = some module) : module.moduleName = path := by
  cases path with
  | none => simp [State.lookup] at hl
  | some key => exact h.registered key module hl

theorem Inv.not_executed {s : State} (h : Inv s) {moduleName : Name} (hc : CanExecute s moduleName) :
    moduleName ∉ s.executed := by
  rw [h.executed]
  rintro (⟨f, hf, hname⟩ | hfailed | hsome)
  · exact hc.2.notRunning f hf hname
  · exact hc.2.notFailed hfailed
  · simp [hc.1] at hsome

theorem Inv.executeModuleScript {s s' : State} (h : Inv s) {moduleName : Name} {required : Bool}
    (hc : CanExecute s moduleName) (hs : s.executeModuleScript moduleName required = .ok s') :
    Inv s' := by
  simp only [State.executeModuleScript, hc.2.converted, Except.ok.injEq] at hs
  subst hs
  refine { h with right := ⟨h.right.exports, ?_⟩, running := ?_, executed := fun n => ?_ }
  · exact List.nodup_cons.2 ⟨h.not_executed hc, h.right.once⟩
  · intro f hf
    rcases List.mem_cons.1 hf with rfl | hf
    · exact ⟨rfl, hc.2.notNull⟩
    · exact h.running f hf
  · have hlookup : ∀ n, State.lookup { s with
        stack := ⟨moduleName, moduleName, required⟩ :: s.stack
        executed := moduleName :: s.executed } n = s.lookup n := fun n => rfl
    simp only [List.mem_cons, h.executed n, hlookup, exists_eq_or_imp, eq_comm (a := n), or_assoc]

theorem Inv.executeModule {s s' : State} (h : Inv s) {moduleName : Name} {required : Bool}
    (hc : (getModuleScript moduleName).isSome → CanExecute s moduleName)
    (hs : s.executeModule getModuleScript moduleName required = .ok s') : Inv s' := by
  unfold State.executeModule at hs
  cases hscript : getModuleScript moduleName with
  | none => simp [hscript] at hs
  | some source =>
    simp only [hscript] at hs
    exact h.executeModuleScript (hc (by simp [hscript])) hs

theorem Inv.require {s s' : State} (h : Inv s) {receiver : Receiver} {path : Name}
    (hok : StepOk getModuleScript s (.require receiver path))
    (hs : s.require getModuleScript receiver path = .ok s') : Inv s' := by
  unfold State.require at hs
  cases hr : resolved receiver path with
  | error e => simp [hr] at hs
  | ok moduleName =>
    obtain ⟨hsame, hfresh⟩ := hok moduleName hr
    simp only [hr] at hs
    cases hl : s.lookup path with
    | some module =>
      simp only [hl, Except.ok.injEq] at hs
      subst hs
      refine { h with right := ⟨fun r hr => ?_, h.right.once⟩ }
      rcases List.mem_cons.1 hr with rfl | hr
      · exact h.lookup_name (hsame.symm.trans hl)
      · exact h.right.exports r hr
    | none =>
      simp only [hl] at hs
      have hnone : s.lookup moduleName = none := hsame.symm.trans hl
      exact h.executeModule getModuleScript (fun hsome => ⟨hnone, hfresh hnone hsome⟩) hs

theorem Inv.scriptReturns {s : State} {f : Running} {stack : List Running} (h : Inv s)
    (hstack : s.stack = f :: stack) : Inv ({ s with stack }.scriptReturns f) := by
  have hf : f ∈ s.stack := by simp [hstack]
  obtain ⟨hconv, hne⟩ := h.running f hf
  obtain ⟨key, hkey⟩ := Option.ne_none_iff_exists'.1 hne
  have hget : ∀ k, (State.scriptReturns { s with stack } f).modules.get k =
      if k = key then some ⟨s.nextId, some key⟩ else s.modules.get k := fun k => by
    simp only [State.scriptReturns, State.register, hconv, hkey, LinkedMap.get_put]
  refine ⟨⟨fun r hr => ?_, h.right.once⟩, fun k module hk => ?_, fun g hg => ?_, fun n => ?_⟩
  · simp only [State.scriptReturns] at hr
    split at hr
    · rcases List.mem_cons.1 hr with rfl | hr
      · rfl
      · exact h.right.exports r hr
    · exact h.right.exports r hr
  · rw [hget] at hk
    split_ifs at hk with hkk
    · obtain rfl := Option.some.inj hk
      rw [hkk]
    · exact h.registered k module hk
  · exact h.running g (by rw [hstack]; exact List.mem_cons_of_mem f hg)
  · -- the module leaves the stack for the map
    have hlookup : (State.lookup (State.scriptReturns { s with stack } f) n).isSome ↔
        n = some key ∨ (s.lookup n).isSome := by
      cases n with
      | none => simp [State.lookup]
      | some k =>
        simp only [State.lookup, Option.bind_some, hget, Option.some.injEq]
        split_ifs with hkk <;> simp [hkk]
    have hexec := h.executed n
    simp only [hstack, List.mem_cons, exists_eq_or_imp, hkey] at hexec
    rw [hlookup]
    have hmove : ∀ p q r t : Prop, (p ∨ q) ∨ r ∨ t ↔ q ∨ r ∨ p ∨ t :=
      fun p q r t => by simp only [or_assoc, or_left_comm]
    show n ∈ s.executed ↔ (∃ g ∈ stack, g.moduleName = n) ∨ n ∈ s.failed ∨ _
    rw [hexec, eq_comm (a := some key), hmove]

theorem Inv.scriptThrows {s : State} {f : Running} {stack : List Running} (h : Inv s)
    (hstack : s.stack = f :: stack) :
    Inv { s with stack, failed := f.moduleName :: s.failed } := by
  refine { h with right := ⟨h.right.exports, h.right.once⟩, running := ?_, executed := fun n => ?_ }
  · exact fun g hg => h.running g (by rw [hstack]; exact List.mem_cons_of_mem f hg)
  · have hexec := h.executed n
    simp only [hstack, List.mem_cons, exists_eq_or_imp] at hexec
    rw [hexec]
    show _ ↔ (∃ g ∈ stack, g.moduleName = n) ∨ n ∈ f.moduleName :: s.failed ∨ (s.lookup n).isSome
    have hmove : ∀ p q r t : Prop, (p ∨ q) ∨ r ∨ t ↔ q ∨ (p ∨ r) ∨ t :=
      fun p q r t => by simp only [or_assoc, or_left_comm]
    rw [List.mem_cons, eq_comm (a := n), hmove]

/-- **One step.** -/
theorem Inv.step {s s' : State} {a : Action} (h : Inv s) (hok : StepOk getModuleScript s a)
    (hs : step getModuleScript s a = some s') : Inv s' := by
  have hafter : ∀ r : Except Failure State, (∀ t, r = .ok t → Inv t) → Inv (after s r) := by
    intro r hr
    cases r with
    | error e => exact h
    | ok t => exact hr t rfl
  cases a with
  | require receiver path =>
    obtain rfl := Option.some.inj hs
    exact hafter _ fun t ht => h.require getModuleScript hok ht
  | executeModule moduleName =>
    obtain rfl := Option.some.inj hs
    exact hafter _ fun t ht => h.executeModule getModuleScript hok ht
  | executeModuleScript moduleName =>
    obtain rfl := Option.some.inj hs
    exact hafter _ fun t ht => h.executeModuleScript hok ht
  | scriptReturns =>
    cases hstack : s.stack with
    | nil => simp [CommonJSModule.step, hstack] at hs
    | cons f stack =>
      simp only [CommonJSModule.step, hstack, Option.some.injEq] at hs
      subst hs
      exact h.scriptReturns hstack
  | scriptThrows =>
    cases hstack : s.stack with
    | nil => simp [CommonJSModule.step, hstack] at hs
    | cons f stack =>
      simp only [CommonJSModule.step, hstack, Option.some.injEq] at hs
      subst hs
      exact h.scriptThrows hstack

/-- **`require` returns the right module, once**, in every run of such steps. -/
theorem require_right {s : State}
    (h : Reaches (step getModuleScript) (StepOk getModuleScript) {} s) : Right s :=
  (h.invariant Inv inv_start fun _ _ _ hi hok hs => hi.step getModuleScript hok hs).right

/-- And such a step is what it takes: of a module that has a script and is registered under its own
name, any other call gets the wrong module or runs the script again. -/
theorem require_right_iff {s : State} (h : Inv s) {receiver : Receiver} {path moduleName : Name}
    (hr : resolved receiver path = .ok moduleName) (hsource : (getModuleScript moduleName).isSome)
    (hne : moduleName ≠ none) (hconv : convertModuleName none moduleName = .ok moduleName) :
    Right (after s (s.require getModuleScript receiver path)) ↔
      StepOk getModuleScript s (.require receiver path) := by
  constructor
  · intro hright n hn
    obtain rfl : moduleName = n := Except.ok.inj (hr.symm.trans hn)
    cases hl : s.lookup path with
    | some module =>
      have hexp := hright.exports (moduleName, module) (by simp [State.require, hr, hl, after])
      obtain rfl : path = moduleName := (h.lookup_name hl).symm.trans hexp
      exact ⟨hl.symm, fun hnone => by simp [hl] at hnone⟩
    | none =>
      obtain ⟨source, hsource⟩ := Option.isSome_iff_exists.1 hsource
      have honce := hright.once
      simp only [State.require, hr, hl, State.executeModule, hsource, State.executeModuleScript,
        hconv, after] at honce
      have hnot := (List.nodup_cons.1 honce).1
      rw [h.executed, not_or, not_or, Option.not_isSome_iff_eq_none] at hnot
      exact ⟨hnot.2.2.symm, fun _ _ => ⟨hne, hconv, fun f hf hname => hnot.1 ⟨f, hf, hname⟩, hnot.2.1⟩⟩
  · intro hok
    exact (h.step getModuleScript hok rfl).right

/-! ## Runs -/

/-- A script for every name. -/
def anyScript : Name → Option Unit := fun _ => some ()

/-- A script requires `a`, which requires `b`, and then both again. -/
def requireBoth : List Action :=
  [.require .undefined (some "a"), .require .undefined (some "b"), .scriptReturns, .scriptReturns,
    .require .undefined (some "b"), .require .undefined (some "a")]

theorem stepOk_require {Source : Type} {getModuleScript : Name → Option Source} {s : State}
    {path : Name} (hres : resolved .undefined path = .ok path)
    (hfresh : s.lookup path = none → Fresh s path) :
    StepOk getModuleScript s (.require .undefined path) := by
  intro n hn
  obtain rfl : path = n := Except.ok.inj (hres.symm.trans hn)
  exact ⟨rfl, fun hnone _ => hfresh hnone⟩

theorem require_right_requireBoth :
    Meets (step anyScript) (StepOk anyScript) {} requireBoth ∧
    ∃ s, run (step anyScript) {} requireBoth = some s ∧
      s.returned = [(some "a", ⟨1, some "a"⟩), (some "b", ⟨0, some "b"⟩), (some "a", ⟨1, some "a"⟩),
        (some "b", ⟨0, some "b"⟩)] ∧ Right s := by
  have hmeets : Meets (step anyScript) (StepOk anyScript) {} requireBoth := by
    refine ⟨stepOk_require (by decide) fun _ => ⟨by decide, by decide, by decide, by decide⟩,
      stepOk_require (by decide) fun _ => ⟨by decide, by decide, by decide, by decide⟩, trivial, trivial,
      stepOk_require (by decide) fun h => ?_, stepOk_require (by decide) fun h => ?_, trivial⟩
    · exact absurd h (by decide)
    · exact absurd h (by decide)
  have hrun : ∃ s, run (step anyScript) {} requireBoth = some s ∧
      s.returned = [(some "a", ⟨1, some "a"⟩), (some "b", ⟨0, some "b"⟩), (some "a", ⟨1, some "a"⟩),
        (some "b", ⟨0, some "b"⟩)] := ⟨_, rfl, rfl⟩
  obtain ⟨s, hs, hreturned⟩ := hrun
  exact ⟨hmeets, s, hs, hreturned, require_right anyScript (reaches_of_run hs hmeets)⟩

/-- **A module required as `./a` is run again each time**: it is registered as `a`. -/
theorem required_twice : ¬ ∀ (getModuleScript : Name → Option Unit) (s : State),
    Reaches (step getModuleScript) (fun _ _ => True) {} s → Right s := by
  intro h
  have hrun : ∃ s, run (step anyScript) {} [.require .undefined (some "./a"), .scriptReturns,
      .require .undefined (some "./a")] = some s ∧ s.executed = [some "a", some "a"] := ⟨_, rfl, rfl⟩
  obtain ⟨s, hs, hexec⟩ := hrun
  have hright := h anyScript s (reaches_of_run hs (meets_true _ _))
  have honce := hright.once
  rw [hexec] at honce
  exact absurd honce (by decide)

end HybridStack.QuickJs.CommonJSModule
