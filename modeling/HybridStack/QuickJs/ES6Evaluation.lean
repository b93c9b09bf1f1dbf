import HybridStack.Lib.Transition
import HybridStack.QuickJs.ES6Loading

/-!
# What `js_evaluate_module` runs

A table is `Ready` when no module of it is being evaluated and what its modules import that have not
been run is there. It is `Settled` between the calls of an application none of which has failed:
every import is bound to a module of the table.

- `evaluateModule_runs`: the bodies below a module are run once each, what a module imports before
  the module itself, cycles apart, up to the first that throws.
- `bodies_run_once`: over a whole run in which no call fails while it loads, no body is run twice and
  no module is read that has been freed.
- `run_settled`: where nothing fails, every module that has been loaded has been run, and whoever
  imports a name gets the same module.

A call that fails while it loads frees the modules it has not got through, and leaves those below
them, which may import what has been freed (the example at the end of `Whole runs`). A `JSModuleDef`
is made for the module of each call, so a module that is executed twice has two.
-/

namespace HybridStack.QuickJs.ES6Module

open DepthFirst Relation

variable {V : Type} {H : Host V} {ctx ctx' ctx₀ : Context V}

/-! ## The walk over the table -/

/-- Apart from what evaluation writes. -/
def ModuleDef.linked (d : ModuleDef V) : ModuleDef V :=
  { d with evaluated := false, evalMark := false, evalException := none }

theorem ModuleDef.modules_eq {d d' : ModuleDef V} (h : d.linked = d'.linked) :
    d.modules = d'.modules :=
  (congrArg ModuleDef.modules h : d.linked.modules = d'.linked.modules)

/-- Evaluation leaves the table as it is. -/
structure Context.SameTable (ctx₀ ctx : Context V) : Prop where
  loadedModules_eq : ctx.loadedModules = ctx₀.loadedModules
  next_eq : ctx.next = ctx₀.next
  scripts_eq : ctx.scripts = ctx₀.scripts
  defs_eq : ∀ p, (ctx.defs p).linked = (ctx₀.defs p).linked

theorem Context.SameTable.refl : ctx.SameTable ctx := ⟨rfl, rfl, rfl, fun _ => rfl⟩

theorem Context.SameTable.modify (h : ctx₀.SameTable ctx) (m : ModulePtr)
    {f : ModuleDef V → ModuleDef V} (hf : ∀ d, (f d).linked = d.linked) :
    ctx₀.SameTable (ctx.modify m f) where
  loadedModules_eq := h.loadedModules_eq
  next_eq := h.next_eq
  scripts_eq := h.scripts_eq
  defs_eq p := by
    by_cases hp : p = m
    · subst hp
      rw [modify_defs_self, hf, h.defs_eq]
    · rw [modify_defs_of_ne _ hp, h.defs_eq]

theorem Context.SameTable.enter (h : ctx₀.SameTable ctx) {m : ModulePtr} :
    ctx₀.SameTable ((evaluation H).enter ctx m) :=
  h.modify m (f := fun d => { d with evalMark := true }) fun _ => rfl

theorem Context.SameTable.finish (h : ctx₀.SameTable ctx) {m : ModulePtr} :
    ctx₀.SameTable ((evaluation H).finish ctx m).2 :=
  let h' := h.modify m (f := fun d =>
    { d with evalException := H.body m, evalMark := false, evaluated := true }) fun _ => rfl
  ⟨h'.loadedModules_eq, h'.next_eq, h'.scripts_eq, h'.defs_eq⟩

theorem Context.SameTable.complete (h : ctx₀.SameTable ctx) {m : ModulePtr} (hm : ctx₀.Complete m) :
    ctx.Complete m := by
  have hname : ∀ p, (ctx.defs p).moduleName = (ctx₀.defs p).moduleName := fun p =>
    (congrArg ModuleDef.moduleName (h.defs_eq p) : (ctx.defs p).linked.moduleName = _)
  have hfind : ∀ n, ctx.findLoadedModule n = ctx₀.findLoadedModule n := fun n => by
    simp only [Context.findLoadedModule, h.loadedModules_eq, hname]
  have hrequests : (ctx.defs m).requests = (ctx₀.defs m).requests :=
    (congrArg ModuleDef.requests (h.defs_eq m) : (ctx.defs m).linked.requests = _)
  have hresolved : (ctx.defs m).resolved = (ctx₀.defs m).resolved :=
    (congrArg ModuleDef.resolved (h.defs_eq m) : (ctx.defs m).linked.resolved = _)
  refine ⟨hresolved.trans hm.1, ?_⟩
  rw [hrequests, ModuleDef.modules_eq (h.defs_eq m), hname]
  refine hm.2.imp fun _ _ hbinds => ?_
  obtain ⟨n, hn, hf⟩ := hbinds
  exact ⟨n, hn, (hfind n).trans hf⟩

theorem evaluation_skip_none {m : ModulePtr} : (evaluation H).skip ctx m = none ↔ (ctx.defs m).Idle := by
  simp only [evaluation, ModuleDef.Idle]
  cases (ctx.defs m).evalMark <;> cases (ctx.defs m).evaluated <;>
    cases (ctx.defs m).evalException <;> simp

@[simp] theorem evaluation_enter_evaluated (m p : ModulePtr) :
    (((evaluation H).enter ctx m).defs p).evaluated = (ctx.defs p).evaluated := by
  by_cases hp : p = m
  · subst hp
    simp [evaluation]
  · simp [evaluation, Context.modify_defs_of_ne _ hp]

@[simp] theorem evaluation_abandon_evaluated (m p : ModulePtr) :
    (((evaluation H).abandon ctx m).defs p).evaluated = (ctx.defs p).evaluated := by
  by_cases hp : p = m
  · subst hp
    simp [evaluation]
  · simp [evaluation, Context.modify_defs_of_ne _ hp]

theorem evaluation_finish_evaluated {m p : ModulePtr} :
    (((evaluation H).finish ctx m).2.defs p).evaluated = true ↔
      p = m ∨ (ctx.defs p).evaluated = true := by
  by_cases hp : p = m
  · subst hp
    simp [evaluation]
  · simp [evaluation, Context.modify_defs_of_ne _ hp, hp]

/-- Besides, a module that has been run stays so. -/
structure Context.During (ctx₀ ctx : Context V) : Prop extends ctx₀.SameTable ctx where
  evaluated : ∀ p, (ctx₀.defs p).evaluated = true → (ctx.defs p).evaluated = true

theorem Context.During.refl : ctx.During ctx := ⟨.refl, fun _ h => h⟩

/-- What is visited for a module that has not been run. -/
def Context.pending (ctx : Context V) (m : ModulePtr) : List ModulePtr :=
  if (ctx.defs m).evaluated then [] else (ctx.defs m).modules

theorem evaluation_lawful (H : Host V) (ctx₀ : Context V) :
    Lawful (evaluation H) ctx₀.During ctx₀.pending (callBody H) where
  children_eq {ctx m} h hm := by
    have hnot : (ctx₀.defs m).evaluated ≠ true := by
      intro he
      have hafter := h.evaluated m he
      rw [(evaluation_skip_none.1 hm).1] at hafter
      cases hafter
    unfold Context.pending
    rw [if_neg hnot]
    exact ModuleDef.modules_eq (h.defs_eq m)
  enter h _ := ⟨h.toSameTable.enter, fun p hp => by
    rw [evaluation_enter_evaluated]
    exact h.evaluated p hp⟩
  finish h _ := ⟨h.toSameTable.finish, fun p hp =>
    evaluation_finish_evaluated.2 (Or.inr (h.evaluated p hp))⟩
  skip_enter _ _ := by simp [evaluation]
  skip_enter_of_ne _ _ hne := by simp [evaluation, Context.modify_defs_of_ne _ hne]
  verdict_eq _ _ := rfl
  skip_finish {ctx m} _ hm hv x := by
    by_cases hx : x = m
    · subst hx
      rw [hm]
      cases hb : H.body x with
      | none => simp [evaluation, hb]
      | some e => simp [callBody, hb] at hv
    · simp [evaluation, Context.modify, Function.update_of_ne hx]

theorem evaluation_logged (H : Host V) : Logged (evaluation H) Context.ran where
  enter _ _ := rfl
  finish _ _ := rfl
  abandon _ _ := rfl

theorem evaluateModule_during {fuel : Nat} {m : ModulePtr} {r : Except V Unit}
    (h : evaluateModule H fuel ctx m = some (r, ctx')) : ctx.During ctx' := by
  have L := evaluation_lawful H ctx
  refine visit_keeps (W := evaluation H) (J := ctx.During) (K := fun _ => True)
    (fun _ _ _ _ => trivial) (fun _ _ hJ hn => L.enter hJ hn) (fun _ n hJ _ => ?_) (fun _ n hJ => ?_)
    h .refl
  · exact ⟨hJ.toSameTable.finish, fun p hp =>
      evaluation_finish_evaluated.2 (Or.inr (hJ.evaluated p hp))⟩
  · refine ⟨hJ.toSameTable.modify n (f := fun d => { d with evalMark := false }) fun _ => rfl, ?_⟩
    intro p hp
    rw [evaluation_abandon_evaluated]
    exact hJ.evaluated p hp

/-- A module is marked while the call is below it. -/
theorem evaluateModule_marks {fuel : Nat} {m : ModulePtr} {r : Except V Unit}
    (h : evaluateModule H fuel ctx m = some (r, ctx')) (p : ModulePtr) :
    (ctx'.defs p).evalMark = (ctx.defs p).evalMark := by
  refine visit_rule (W := evaluation H)
    (P := fun st _ _ st' => ∀ p, (st'.defs p).evalMark = (st.defs p).evalMark)
    (Q := fun st _ _ st' => ∀ p, (st'.defs p).evalMark = (st.defs p).evalMark)
    (fun _ _ _ _ _ => rfl) (fun st n st' _ hskip hq p => ?_) (fun st n _ st' hskip hq p => ?_)
    (fun _ _ => rfl) (fun _ _ _ _ _ _ hp hq p => (hq p).trans (hp p)) (fun _ _ _ _ _ hp => hp) h p
  · by_cases hpn : p = n
    · subst hpn
      simp [evaluation, (evaluation_skip_none.1 hskip).2]
    · simpa [evaluation, Context.modify_defs_of_ne _ hpn] using hq p
  · by_cases hpn : p = n
    · subst hpn
      simp [evaluation, (evaluation_skip_none.1 hskip).2]
    · simpa [evaluation, Context.modify_defs_of_ne _ hpn] using hq p

/-! ## One evaluation -/

/-- No module is being evaluated, and what is imported by one that has not been run is there. -/
structure Context.Ready (H : Host V) (ctx : Context V) : Prop where
  unmarked : ∀ p ∈ ctx.loadedModules, (ctx.defs p).evalMark = false
  exception_eq : ∀ p ∈ ctx.loadedModules, (ctx.defs p).evaluated = true →
    (ctx.defs p).evalException = H.body p
  imports : ∀ p ∈ ctx.loadedModules, (ctx.defs p).evaluated = false →
    ∀ q ∈ (ctx.defs p).modules, q ∈ ctx.loadedModules

theorem Context.Complete.modules_loaded {m : ModulePtr} (h : ctx.Complete m) :
    ∀ q ∈ (ctx.defs m).modules, q ∈ ctx.loadedModules := by
  have key : ∀ (requests : List String) (modules : List ModulePtr),
      List.Forall₂ (ctx.Binds (ctx.defs m).moduleName) requests modules →
      ∀ q ∈ modules, q ∈ ctx.loadedModules := by
    intro requests modules hall
    induction hall with
    | nil => simp
    | cons hbinds _ ih =>
      intro q hq
      obtain ⟨n, -, hfind⟩ := hbinds
      rcases List.mem_cons.1 hq with rfl | hq
      · exact (Context.mem_of_findLoadedModule hfind).1
      · exact ih q hq
  exact key _ _ h.2

/-- `b` is imported from `a`, by way of modules that have not been evaluated. -/
def Context.Below (ctx : Context V) (a b : ModulePtr) : Prop :=
  ReflTransGen (fun a b => (ctx.defs a).evaluated = false ∧ b ∈ (ctx.defs a).modules) a b

namespace Context.Ready

variable (hs : ctx.Ready H)
include hs

theorem skip_none {p : ModulePtr} (hp : p ∈ ctx.loadedModules) :
    (evaluation H).skip ctx p = none ↔ (ctx.defs p).evaluated = false := by
  rw [evaluation_skip_none, ModuleDef.Idle, hs.unmarked p hp]
  simp

theorem skip_evaluated {p : ModulePtr} (hp : p ∈ ctx.loadedModules)
    (he : (ctx.defs p).evaluated = true) : (evaluation H).skip ctx p = some (callBody H p) := by
  simp only [evaluation, hs.unmarked p hp, he, hs.exception_eq p hp he, callBody]
  cases H.body p <;> rfl

theorem below_loaded {a b : ModulePtr} (ha : a ∈ ctx.loadedModules) (h : ctx.Below a b) :
    b ∈ ctx.loadedModules := by
  induction h with
  | refl => exact ha
  | tail _ hstep ih => exact hs.imports _ ih hstep.1 _ hstep.2

omit hs in
theorem mem_pending {a b : ModulePtr} (ha : (ctx.defs a).evaluated = false) :
    b ∈ ctx.pending a ↔ b ∈ (ctx.defs a).modules := by
  unfold Context.pending
  rw [ha, if_neg Bool.false_ne_true]

theorem reach_iff {a b : ModulePtr} (ha : a ∈ ctx.loadedModules) :
    Reach (evaluation H) ctx.pending ctx a b ↔ ctx.Below a b := by
  constructor
  · intro h
    induction h with
    | refl => exact .refl
    | tail _ hstep ih =>
      have he := (hs.skip_none (hs.below_loaded ha ih)).1 hstep.1
      exact ih.tail ⟨he, (mem_pending he).1 hstep.2⟩
  · intro h
    induction h with
    | refl => exact .refl
    | tail hreach hstep ih =>
      exact ih.tail ⟨(hs.skip_none (hs.below_loaded ha hreach)).2 hstep.1,
        (mem_pending hstep.1).2 hstep.2⟩

/-- A module fails with what its body throws, now or when it was run. -/
theorem fails_iff {p : ModulePtr} (hp : p ∈ ctx.loadedModules) {e : V} :
    Fails (evaluation H) (callBody H) ctx e p ↔ H.body p = some e := by
  have hcall : callBody H p = .error e ↔ H.body p = some e := by
    simp only [callBody]
    cases H.body p <;> simp
  cases he : (ctx.defs p).evaluated with
  | false => simp [Fails, (hs.skip_none hp).2 he, hcall]
  | true => simp [Fails, hs.skip_evaluated hp he, hcall]

end Context.Ready

/-- What a call on `m` has run, `new`, when it comes to `r`. A module is run after what it imports,
but for what imports it in turn; none but the last throws, and that is what comes of the call. -/
structure Context.Evaluated (H : Host V) (ctx : Context V) (m : ModulePtr) (new : List ModulePtr)
    (r : Except V Unit) : Prop where
  nodup : new.Nodup
  below : ∀ p ∈ new, ctx.Below m p ∧ (ctx.defs p).evaluated = false
  after : ∀ a p b, new = a ++ p :: b → ∀ q ∈ (ctx.defs p).modules,
    q ∈ a ∨ (ctx.defs q).evaluated = true ∨ ctx.Below q p
  throws : ∀ a p b e, new = a ++ p :: b → H.body p = some e → b = [] ∧ r = .error e
  /-- A body below `m` has thrown, just now or when it was run. -/
  error : ∀ e, r = .error e → ∃ p, ctx.Below m p ∧ H.body p = some e ∧
    ((ctx.defs p).evaluated = true ∨ ∃ a, new = a ++ [p])
  returns_iff : r = .ok () ↔ ∀ p, ctx.Below m p → H.body p = none
  all : r = .ok () → ∀ p, ctx.Below m p → (ctx.defs p).evaluated = false → p ∈ new

theorem callBody_error {p : ModulePtr} {e : V} : callBody H p = .error e ↔ H.body p = some e := by
  unfold callBody
  cases H.body p <;> simp

theorem evaluateModule_spec (hs : ctx.Ready H) {m : ModulePtr} (hm : m ∈ ctx.loadedModules)
    {fuel : Nat} {r : Except V Unit} (h : evaluateModule H fuel ctx m = some (r, ctx')) :
    ∃ new, ctx'.ran = ctx.ran ++ new ∧ ctx.Evaluated H m new r := by
  have L := evaluation_lawful H ctx
  have hout := visit_explores L Context.During.refl h
  obtain ⟨new, hran, hfin, hmarked⟩ := visit_ordered L (evaluation_logged H) Context.During.refl h
  have hloaded : ∀ p, ctx.Below m p → p ∈ ctx.loadedModules := fun p => hs.below_loaded hm
  have hreach : ∀ p, (∃ n ∈ [m], Reach (evaluation H) ctx.pending ctx n p) → ctx.Below m p := by
    rintro p ⟨n, hn, hp⟩
    rw [List.mem_singleton.1 hn] at hp
    exact (hs.reach_iff hm).1 hp
  have hbelow : ∀ p ∈ new, ctx.Below m p ∧ (ctx.defs p).evaluated = false := by
    intro p hp
    exact ⟨hreach p (hfin.reach p hp), (evaluation_skip_none.1 (hfin.unmarked p hp)).1⟩
  refine ⟨new, hran, hfin.nodup, hbelow, ?_, ?_, ?_, ?_, ?_⟩
  · intro a p b hnew q hq
    obtain ⟨hp, he⟩ := hbelow p (hnew ▸ List.mem_append_right a List.mem_cons_self)
    have hqm := hs.imports p (hloaded p hp) he q hq
    rcases hfin.after a p b hnew q ((Context.Ready.mem_pending he).2 hq) with hqa | hqa | hqa
    · exact Or.inl hqa
    · refine Or.inr (Or.inl ?_)
      by_contra hne
      rw [(hs.skip_none hqm).2 (by simpa using hne)] at hqa
      cases hqa
    · exact Or.inr (Or.inr ((hs.reach_iff hqm).1 hqa))
  · intro a p b e hnew hb
    exact hfin.throws a p b e hnew (callBody_error.2 hb)
  · intro e he
    obtain ⟨p, hp, hfail⟩ := hfin.error e he
    have hp := hreach p hp
    refine ⟨p, hp, ?_⟩
    rcases hfail with hskip | ⟨hv, hlast⟩
    · refine ⟨(hs.fails_iff (hloaded p hp)).1 (Or.inl hskip), Or.inl ?_⟩
      by_contra hne
      rw [(hs.skip_none (hloaded p hp)).2 (by simpa using hne)] at hskip
      cases hskip
    · exact ⟨callBody_error.1 hv, Or.inr hlast⟩
  · rw [hout.ok_iff]
    simp only [List.mem_singleton, forall_eq]
    constructor
    · intro h p hp
      cases hb : H.body p with
      | none => rfl
      | some e => exact absurd ((hs.fails_iff (hloaded p hp)).2 hb) (h p ((hs.reach_iff hm).2 hp) e)
    · intro h p hp e hfail
      have hp := (hs.reach_iff hm).1 hp
      rw [hs.fails_iff (hloaded p hp), h p hp] at hfail
      cases hfail
  · rintro rfl p hp he
    refine (hmarked rfl p).2 ⟨(hs.skip_none (hloaded p hp)).2 he, ?_⟩
    exact hout.2.of_reach (List.mem_singleton_self m) ((hs.reach_iff hm).2 hp)

/-- The call ends, however the modules import one another. -/
theorem evaluateModule_isSome (hs : ctx.Ready H) {m : ModulePtr} (hm : m ∈ ctx.loadedModules)
    {fuel : Nat} (hfuel : ctx.loadedModules.length < fuel) : (evaluateModule H fuel ctx m).isSome := by
  refine visit_isSome (evaluation_lawful H ctx) (U := ctx.loadedModules) ?_ ?_ Context.During.refl hm
    (Nat.lt_of_le_of_lt List.countP_le_length hfuel)
  · intro st hI n hn
    simpa [evaluation, hI.loadedModules_eq] using hn
  · intro n hn c hc
    unfold Context.pending at hc
    split at hc
    next => cases hc
    next he => exact hs.imports n hn (Bool.eq_false_iff.2 he) c hc

/-- The call ends on every such table, cycles or not. The bodies below `m` that have not been run are
run once each, a module after what it imports but for what imports it in turn, up to the first that
throws. It returns if and only if no body below `m` throws (or has thrown). -/
theorem evaluateModule_runs (hs : ctx.Ready H) {m : ModulePtr} (hm : m ∈ ctx.loadedModules)
    {fuel : Nat} (hfuel : ctx.loadedModules.length < fuel) :
    ∃ r ctx' new, evaluateModule H fuel ctx m = some (r, ctx') ∧ ctx'.ran = ctx.ran ++ new ∧
      ctx.Evaluated H m new r := by
  obtain ⟨⟨r, ctx'⟩, hrun⟩ := Option.isSome_iff_exists.1 (evaluateModule_isSome hs hm hfuel)
  obtain ⟨new, hspec⟩ := evaluateModule_spec hs hm hrun
  exact ⟨r, ctx', new, hrun, hspec⟩

/-- The table after `a.js` has been loaded. -/
def crossed : Context Unit where
  defs p :=
    if p = 0 then { moduleName := "a.js", requests := ["./b.js"], modules := [1], resolved := true }
    else { moduleName := "b.js", requests := ["./a.js"], modules := [0], resolved := true }
  next := 2
  loadedModules := [0, 1]

/-- The body of `b.js` throws. -/
def throwing : Host Unit := { crossing with body := fun p => if p = 1 then some () else none }

theorem crossed_ready : crossed.Ready throwing where
  unmarked := by decide
  exception_eq := by decide
  imports := by decide

/-- Of two modules that import one another, the one that was imported is run first; it throws, and
the other is not run. -/
theorem evaluateModule_runs_crossing :
    ∃ ctx', evaluateModule throwing 3 crossed 0 = some (.error (), ctx') ∧ ctx'.ran = [1] ∧
      crossed.Evaluated throwing 0 [1] (.error ()) := by
  obtain ⟨r, ctx', new, hrun, hran, hspec⟩ := evaluateModule_runs crossed_ready
    (m := 0) (by decide) (show crossed.loadedModules.length < 3 by decide)
  have heval : (evaluateModule throwing 3 crossed 0).map (fun s => (s.1.toBool, s.2.ran)) =
      some (false, [1]) := by decide +kernel
  rw [hrun, Option.map_some, Option.some.injEq, Prod.mk.injEq] at heval
  obtain ⟨hr, hran'⟩ := heval
  obtain rfl : new = [1] := hran.symm.trans hran'
  cases r with
  | ok u => cases hr
  | error e => exact ⟨ctx', hrun, hran', hspec⟩

/-- Whatever comes of it, the table is ready again. -/
theorem evaluateModule_ready (hs : ctx.Ready H) {fuel : Nat} {m : ModulePtr}
    {r : Except V Unit} (h : evaluateModule H fuel ctx m = some (r, ctx')) : ctx'.Ready H := by
  have hsame := evaluateModule_during h
  refine ⟨fun p hp => ?_, ?_, fun p hp he q hq => ?_⟩
  · rw [evaluateModule_marks h p]
    exact hs.unmarked p (hsame.loadedModules_eq ▸ hp)
  · rw [hsame.loadedModules_eq]
    refine visit_keeps (W := evaluation H)
      (J := fun st => ∀ p ∈ ctx.loadedModules, (st.defs p).evaluated = true →
        (st.defs p).evalException = H.body p) (K := fun _ => True) (fun _ _ _ _ => trivial)
      (fun st n hJ _ p hp => ?_) (fun st n hJ _ p hp => ?_) (fun st n hJ p hp => ?_) h
      hs.exception_eq
    · by_cases hpn : p = n
      · subst hpn
        simpa [evaluation] using hJ p hp
      · simpa [evaluation, Context.modify_defs_of_ne _ hpn] using hJ p hp
    · by_cases hpn : p = n
      · subst hpn
        simp [evaluation]
      · simpa [evaluation, Context.modify_defs_of_ne _ hpn] using hJ p hp
    · by_cases hpn : p = n
      · subst hpn
        simpa [evaluation] using hJ p hp
      · simpa [evaluation, Context.modify_defs_of_ne _ hpn] using hJ p hp
  · have hbefore : (ctx.defs p).evaluated = false := by
      rw [Bool.eq_false_iff]
      intro he'
      rw [hsame.evaluated p he'] at he
      cases he
    rw [ModuleDef.modules_eq (hsame.defs_eq p)] at hq
    rw [hsame.loadedModules_eq]
    exact hs.imports p (hsame.loadedModules_eq ▸ hp) hbefore q hq

/-- Every import is bound to a module of the table. -/
structure Context.Settled (H : Host V) (ctx : Context V) : Prop where
  lt_next : ∀ p ∈ ctx.loadedModules, p < ctx.next
  complete : ∀ p ∈ ctx.loadedModules, ctx.Complete p
  unmarked : ∀ p ∈ ctx.loadedModules, (ctx.defs p).evalMark = false
  exception_eq : ∀ p ∈ ctx.loadedModules, (ctx.defs p).evaluated = true →
    (ctx.defs p).evalException = H.body p

theorem Context.Settled.begun (hs : ctx.Settled H) : ctx.Begun :=
  fun p hp => ⟨hs.lt_next p hp, (hs.complete p hp).1⟩

theorem Context.Settled.ready (hs : ctx.Settled H) : ctx.Ready H :=
  ⟨hs.unmarked, hs.exception_eq, fun p hp _ => (hs.complete p hp).modules_loaded⟩

theorem evaluateModule_settled (hs : ctx.Settled H) {fuel : Nat} {m : ModulePtr}
    {r : Except V Unit} (h : evaluateModule H fuel ctx m = some (r, ctx')) : ctx'.Settled H := by
  have hsame := (evaluateModule_during h).toSameTable
  have hready := evaluateModule_ready hs.ready h
  refine ⟨fun p hp => ?_, fun p hp => ?_, hready.unmarked, hready.exception_eq⟩
  · rw [hsame.next_eq]
    exact hs.lt_next p (hsame.loadedModules_eq ▸ hp)
  · exact hsame.complete (hs.complete p (hsame.loadedModules_eq ▸ hp))

/-! ## Whole runs -/

/-- `executeModule(moduleName)` and `executeModuleScript(source, moduleName)`. -/
inductive Call
  | executeModule (moduleName : String)
  | executeModuleScript (source moduleName : String)

def call (H : Host V) (fuel : Nat) (ctx : Context V) : Call → Option (Executed V × Context V)
  | .executeModule moduleName => executeModule H fuel ctx moduleName
  | .executeModuleScript source moduleName => executeModuleScript H fuel ctx source moduleName

/-- An action is a call, with the depth of recursion it may use. -/
def step (H : Host V) (ctx : Context V) (a : Nat × Call) : Option (Context V) :=
  (call H a.1 ctx a.2).map Prod.snd

/-- Loading leaves alone what older modules have been through, whatever comes of it. -/
structure Context.Keeps (ctx ctx' : Context V) : Prop where
  next_le : ctx.next ≤ ctx'.next
  ran_eq : ctx'.ran = ctx.ran
  evaluated_eq : ∀ p < ctx.next, (ctx'.defs p).evaluated = (ctx.defs p).evaluated
  lt_next : (∀ p ∈ ctx.loadedModules, p < ctx.next) → ∀ p ∈ ctx'.loadedModules, p < ctx'.next

namespace Context.Keeps

variable {ctx'' : Context V}

theorem refl : ctx.Keeps ctx := ⟨Nat.le_refl _, rfl, fun _ _ => rfl, id⟩

theorem trans (h : ctx.Keeps ctx') (h' : ctx'.Keeps ctx'') : ctx.Keeps ctx'' where
  next_le := Nat.le_trans h.next_le h'.next_le
  ran_eq := h'.ran_eq.trans h.ran_eq
  evaluated_eq p hp := by
    rw [h'.evaluated_eq p (Nat.lt_of_lt_of_le hp h.next_le), h.evaluated_eq p hp]
  lt_next hlt := h'.lt_next (h.lt_next hlt)

theorem modify (m : ModulePtr) (f : ModuleDef V → ModuleDef V)
    (hf : ∀ d, (f d).evaluated = d.evaluated) : ctx.Keeps (ctx.modify m f) where
  next_le := Nat.le_refl _
  ran_eq := rfl
  evaluated_eq p _ := by
    by_cases hp : p = m
    · subst hp
      rw [modify_defs_self, hf]
    · rw [modify_defs_of_ne _ hp]
  lt_next hlt := hlt

theorem setModule (m m1 : ModulePtr) : ctx.Keeps (ctx.setModule m m1) := modify m _ fun _ => rfl

theorem newModuleDef (moduleName : String) : ctx.Keeps (ctx.newModuleDef moduleName) where
  next_le := Nat.le_succ _
  ran_eq := rfl
  evaluated_eq p hp := by simp [Context.newModuleDef, Function.update_of_ne (Nat.ne_of_lt hp)]
  lt_next hlt p hp := by
    rcases List.mem_append.1 hp with hp | hp
    · exact Nat.lt_succ_of_lt (hlt p hp)
    · rw [List.mem_singleton.1 hp]
      exact Nat.lt_succ_self _

theorem freeModuleDef (m : ModulePtr) : ctx.Keeps (ctx.freeModuleDef m) :=
  ⟨Nat.le_refl _, rfl, fun _ _ => rfl, fun hlt p hp => hlt p (List.mem_of_mem_erase hp)⟩

theorem freeNotEvaluated : ctx.Keeps ctx.freeNotEvaluated :=
  ⟨Nat.le_refl _, rfl, fun _ _ => rfl, fun hlt p hp => hlt p (List.mem_filter.1 hp).1⟩

end Context.Keeps

section

variable {resolve : Context V → ModulePtr → Option (Bool × Context V)}
  (hresolve : ∀ ctx m b ctx', resolve ctx m = some (b, ctx') → ctx.Keeps ctx')
include hresolve

theorem evalInternal_keeps {source moduleName : String} {r : Option ModulePtr}
    (h : evalInternal H resolve ctx source moduleName = some (r, ctx')) : ctx.Keeps ctx' := by
  have hnew : ctx.Keeps (ctx.newModuleDef moduleName) := .newModuleDef moduleName
  simp only [evalInternal] at h
  split at h
  · simp only [Option.some.injEq, Prod.mk.injEq] at h
    obtain ⟨-, rfl⟩ := h
    exact hnew.trans (.freeModuleDef _)
  · split at h
    · cases h
    next hr =>
      simp only [Option.some.injEq, Prod.mk.injEq] at h
      obtain ⟨-, rfl⟩ := h
      refine ((hnew.trans (.modify _ _ ?_)).trans (hresolve _ _ _ _ hr)).trans (.freeModuleDef _)
      exact fun _ => rfl
    next hr =>
      simp only [Option.some.injEq, Prod.mk.injEq] at h
      obtain ⟨-, rfl⟩ := h
      refine (hnew.trans (.modify _ _ ?_)).trans (hresolve _ _ _ _ hr)
      exact fun _ => rfl

theorem hostResolve_keeps {base name : String} {r : Option ModulePtr}
    (h : hostResolve H resolve ctx base name = some (r, ctx')) : ctx.Keeps ctx' := by
  simp only [hostResolve, moduleLoader] at h
  split at h
  · simp only [Option.some.injEq, Prod.mk.injEq] at h
    obtain ⟨-, rfl⟩ := h
    exact .refl
  · split at h
    · simp only [Option.some.injEq, Prod.mk.injEq] at h
      obtain ⟨-, rfl⟩ := h
      exact .refl
    next n _ _ _ =>
      have hlog : ctx.Keeps { ctx with scripts := ctx.scripts ++ [n] } :=
        ⟨Nat.le_refl _, rfl, fun _ _ => rfl, id⟩
      split at h
      · simp only [Option.some.injEq, Prod.mk.injEq] at h
        obtain ⟨-, rfl⟩ := h
        exact hlog
      · exact hlog.trans (evalInternal_keeps hresolve h)

theorem resolveRequests_keeps {m : ModulePtr} {reqs : List String} {b : Bool}
    (h : resolveRequests H resolve m reqs ctx = some (b, ctx')) : ctx.Keeps ctx' := by
  induction reqs generalizing ctx with
  | nil =>
    simp only [resolveRequests, Option.some.injEq, Prod.mk.injEq] at h
    obtain ⟨-, rfl⟩ := h
    exact .refl
  | cons name reqs ih =>
    rw [resolveRequests] at h
    split at h
    · cases h
    next hr =>
      simp only [Option.some.injEq, Prod.mk.injEq] at h
      obtain ⟨-, rfl⟩ := h
      exact hostResolve_keeps hresolve hr
    next m1 _ hr =>
      have hset := (hostResolve_keeps hresolve hr).trans (.setModule m m1)
      split at h
      · cases h
      next hr' =>
        simp only [Option.some.injEq, Prod.mk.injEq] at h
        obtain ⟨-, rfl⟩ := h
        exact hset.trans (hresolve _ _ _ _ hr')
      next hr' => exact (hset.trans (hresolve _ _ _ _ hr')).trans (ih h)

end

theorem resolveModule_keeps (H : Host V) : ∀ (fuel : Nat) (ctx : Context V) (m : ModulePtr) (b : Bool)
    (ctx' : Context V), resolveModule H fuel ctx m = some (b, ctx') → ctx.Keeps ctx' := by
  intro fuel
  induction fuel with
  | zero => intro ctx m b ctx' h; simp only [resolveModule, reduceCtorEq] at h
  | succ fuel ih =>
    intro ctx m b ctx' h
    rw [resolveModule] at h
    split at h
    · simp only [Option.some.injEq, Prod.mk.injEq] at h
      obtain ⟨-, rfl⟩ := h
      exact .refl
    · refine Context.Keeps.trans (.modify m _ ?_) (resolveRequests_keeps ih h)
      exact fun _ => rfl

/-- The bodies that have been run are told apart by `evaluated`. -/
structure Context.RanOnce (ctx : Context V) : Prop where
  lt_next : ∀ p ∈ ctx.loadedModules, p < ctx.next
  nodup : ctx.ran.Nodup
  evaluated : ∀ p ∈ ctx.ran, p < ctx.next ∧ (ctx.defs p).evaluated = true

theorem Context.RanOnce.keeps (hr : ctx.RanOnce) (h : ctx.Keeps ctx') : ctx'.RanOnce where
  lt_next := h.lt_next hr.lt_next
  nodup := h.ran_eq ▸ hr.nodup
  evaluated p hp := by
    rw [h.ran_eq] at hp
    obtain ⟨hlt, he⟩ := hr.evaluated p hp
    exact ⟨Nat.lt_of_lt_of_le hlt h.next_le, by rw [h.evaluated_eq p hlt, he]⟩

theorem evaluateModule_ranOnce (hr : ctx.RanOnce) {fuel : Nat} {m : ModulePtr} {r : Except V Unit}
    (h : evaluateModule H fuel ctx m = some (r, ctx')) : ctx'.RanOnce := by
  obtain ⟨new, hran, hfin, -⟩ := visit_ordered (evaluation_lawful H ctx) (evaluation_logged H)
    Context.During.refl h
  have hJ : (ctx'.loadedModules = ctx.loadedModules ∧ ctx'.next = ctx.next) ∧
      ∀ p ∈ ctx'.ran, p < ctx.next ∧ (ctx'.defs p).evaluated = true := by
    refine visit_keeps (W := evaluation H)
      (J := fun st => (st.loadedModules = ctx.loadedModules ∧ st.next = ctx.next) ∧
        ∀ p ∈ st.ran, p < ctx.next ∧ (st.defs p).evaluated = true)
      (K := fun n => n < ctx.next) (fun st n hJ hn => ?_) (fun st n hJ _ => ⟨hJ.1, fun p hp => ?_⟩)
      (fun st n hJ hn => ⟨hJ.1, fun p hp => ?_⟩) (fun st n hJ => ⟨hJ.1, fun p hp => ?_⟩) h
      ⟨⟨rfl, rfl⟩, hr.evaluated⟩
    · exact hr.lt_next n (by simpa [evaluation, hJ.1.1] using hn)
    · rw [evaluation_enter_evaluated]
      exact hJ.2 p hp
    · rw [evaluation_finish_evaluated]
      rcases List.mem_append.1 hp with hp | hp
      · exact ⟨(hJ.2 p hp).1, Or.inr (hJ.2 p hp).2⟩
      · rw [List.mem_singleton.1 hp]
        exact ⟨hn, Or.inl rfl⟩
    · rw [evaluation_abandon_evaluated]
      exact hJ.2 p hp
  refine ⟨by rw [hJ.1.1, hJ.1.2]; exact hr.lt_next, ?_, by rw [hJ.1.2]; exact hJ.2⟩
  rw [hran]
  refine List.nodup_append'.2 ⟨hr.nodup, hfin.nodup, fun p hp hp' => ?_⟩
  have he := (evaluation_skip_none.1 (hfin.unmarked p hp')).1
  rw [(hr.evaluated p hp).2] at he
  cases he

theorem executeModuleScript_ranOnce (hr : ctx.RanOnce) {fuel : Nat} {source moduleName : String}
    {r : Executed V} (h : executeModuleScript H fuel ctx source moduleName = some (r, ctx')) :
    ctx'.RanOnce := by
  simp only [executeModuleScript] at h
  split at h
  · cases h
  next he =>
    simp only [Option.some.injEq, Prod.mk.injEq] at h
    obtain ⟨-, rfl⟩ := h
    exact hr.keeps (evalInternal_keeps (resolveModule_keeps H fuel) he)
  next he =>
    have hr' := hr.keeps (evalInternal_keeps (resolveModule_keeps H fuel) he)
    split at h
    · split at h
      · cases h
      next hv =>
        simp only [Option.some.injEq, Prod.mk.injEq] at h
        obtain ⟨-, rfl⟩ := h
        exact evaluateModule_ranOnce hr' hv
      next hv =>
        simp only [Option.some.injEq, Prod.mk.injEq] at h
        obtain ⟨-, rfl⟩ := h
        exact (evaluateModule_ranOnce hr' hv).keeps .freeNotEvaluated
    · simp only [Option.some.injEq, Prod.mk.injEq] at h
      obtain ⟨-, rfl⟩ := h
      exact hr'.keeps .freeNotEvaluated

/-- The module that a call executes, unless it has no script. -/
def Call.script (H : Host V) : Call → Option (String × String)
  | .executeModule moduleName => (H.getModuleScript moduleName).map fun script => (script, moduleName)
  | .executeModuleScript source moduleName => some (source, moduleName)

/-- `executeModule` asks for the script. -/
def Context.asked (ctx : Context V) : Call → Context V
  | .executeModule moduleName => { ctx with scripts := ctx.scripts ++ [moduleName] }
  | .executeModuleScript _ _ => ctx

theorem call_eq {fuel : Nat} {c : Call} : call H fuel ctx c =
    match c.script H with
    | none => some (.scriptIsNull, ctx.asked c)
    | some script => executeModuleScript H fuel (ctx.asked c) script.1 script.2 := by
  cases c with
  | executeModuleScript source moduleName => rfl
  | executeModule moduleName =>
    cases hscript : H.getModuleScript moduleName with
    | none =>
      simp only [call, executeModule, Call.script, Context.asked, hscript, Option.map_none]
    | some script =>
      simp only [call, executeModule, Call.script, Context.asked, hscript, Option.map_some]

theorem Context.keeps_asked (ctx : Context V) (c : Call) : ctx.Keeps (ctx.asked c) := by
  cases c with
  | executeModule moduleName => exact ⟨Nat.le_refl _, rfl, fun _ _ => rfl, id⟩
  | executeModuleScript source moduleName => exact .refl

/-- The bodies that have been run are told apart, whatever fails. -/
theorem call_ranOnce (hr : ctx.RanOnce) {fuel : Nat} {c : Call} {r : Executed V}
    (h : call H fuel ctx c = some (r, ctx')) : ctx'.RanOnce := by
  have hasked := hr.keeps (ctx.keeps_asked c)
  rw [call_eq] at h
  cases hscript : c.script H with
  | none =>
    rw [hscript] at h
    obtain ⟨-, rfl⟩ := Prod.mk.inj (Option.some.inj h)
    exact hasked
  | some script =>
    rw [hscript] at h
    exact executeModuleScript_ranOnce hasked h

/-- The call does not fail while it loads: nothing is missing, and all of it parses. -/
def Loads (H : Host V) (ctx : Context V) (a : Nat × Call) : Prop :=
  ∀ script, a.2.script H = some script → ∀ ctx',
    evalInternal H (resolveModule H a.1) (ctx.asked a.2) script.1 script.2 ≠ some (none, ctx')

/-- What a call finds: a table that can be loaded into and evaluated. -/
structure Context.Usable (H : Host V) (ctx : Context V) : Prop where
  begun : ctx.Begun
  ready : ctx.Ready H

theorem Context.Usable.asked (h : ctx.Usable H) (c : Call) : (ctx.asked c).Usable H := by
  cases c with
  | executeModuleScript source moduleName => exact h
  | executeModule moduleName =>
    exact ⟨h.begun, h.ready.unmarked, h.ready.exception_eq, h.ready.imports⟩

theorem Context.Usable.loaded {moduleName : String} {specifiers : List String} {new : List ModulePtr}
    (h : ctx.Usable H) (hl : ctx.Loaded moduleName specifiers new ctx') : ctx'.Usable H := by
  have hcases : ∀ p ∈ ctx'.loadedModules, p ∈ ctx.loadedModules ∧ ctx'.defs p = ctx.defs p ∨
      p ∈ ctx.next :: new := fun p hp => by
    rw [hl.loaded_eq] at hp
    exact (List.mem_append.1 hp).imp_left fun hp => ⟨hp, hl.defs_eq p (h.begun p hp).1⟩
  refine ⟨fun p hp => ?_, fun p hp => ?_, fun p hp => ?_, fun p hp => ?_⟩
  · rcases hcases p hp with ⟨hp, hdef⟩ | hp
    · rw [hdef]
      exact ⟨Nat.lt_of_lt_of_le (h.begun p hp).1 hl.next_le, (h.begun p hp).2⟩
    · exact ⟨(hl.mem_new p hp).2, (hl.complete p hp).1⟩
  · rcases hcases p hp with ⟨hp, hdef⟩ | hp
    · rw [hdef]
      exact h.ready.unmarked p hp
    · exact (hl.idle p hp).2
  · rcases hcases p hp with ⟨hp, hdef⟩ | hp
    · rw [hdef]
      exact h.ready.exception_eq p hp
    · rw [(hl.idle p hp).1]
      exact fun he => absurd he Bool.false_ne_true
  · rcases hcases p hp with ⟨hp, hdef⟩ | hp
    · rw [hdef, hl.loaded_eq]
      intro he q hq
      exact List.mem_append_left _ (h.ready.imports p hp he q hq)
    · exact fun _ => (hl.complete p hp).modules_loaded

theorem Context.Usable.evaluated (h : ctx.Usable H) {fuel : Nat} {m : ModulePtr} {r : Except V Unit}
    (hrun : evaluateModule H fuel ctx m = some (r, ctx')) : ctx'.Usable H := by
  have hsame := (evaluateModule_during hrun).toSameTable
  refine ⟨fun p hp => ?_, evaluateModule_ready h.ready hrun⟩
  have hresolved : (ctx'.defs p).resolved = (ctx.defs p).resolved :=
    (congrArg ModuleDef.resolved (hsame.defs_eq p) : (ctx'.defs p).linked.resolved = _)
  rw [hsame.next_eq, hresolved]
  exact h.begun p (hsame.loadedModules_eq ▸ hp)

/-- Where modules that have not been run are freed, none is left to read what they import. -/
theorem Context.Usable.freeNotEvaluated (h : ctx.Usable H) : ctx.freeNotEvaluated.Usable H := by
  have hmem : ∀ p ∈ ctx.freeNotEvaluated.loadedModules,
      p ∈ ctx.loadedModules ∧ (ctx.defs p).evaluated = true := fun p hp => List.mem_filter.1 hp
  refine ⟨fun p hp => h.begun p (hmem p hp).1, fun p hp => h.ready.unmarked p (hmem p hp).1,
    fun p hp => h.ready.exception_eq p (hmem p hp).1, fun p hp he => ?_⟩
  have hevaluated := (hmem p hp).2
  rw [show (ctx.defs p).evaluated = false from he] at hevaluated
  cases hevaluated

theorem executeModuleScript_usable (h : ctx.Usable H) {fuel : Nat} {source moduleName : String}
    (hloads : ∀ ctx', evalInternal H (resolveModule H fuel) ctx source moduleName ≠ some (none, ctx'))
    {r : Executed V} (hrun : executeModuleScript H fuel ctx source moduleName = some (r, ctx')) :
    ctx'.Usable H := by
  have hloaded : ∀ m t, evalInternal H (resolveModule H fuel) ctx source moduleName =
      some (some m, t) → t.Usable H := by
    intro m t he
    cases fuel with
    | zero =>
      unfold evalInternal at he
      cases hparse : H.parse source with
      | none => simp [hparse] at he
      | some specifiers => simp [hparse, resolveModule] at he
    | succ k =>
      obtain ⟨-, specifiers, new, -, hl⟩ := evalInternal_loaded (imports H k) h.begun he
      exact h.loaded hl
  simp only [executeModuleScript] at hrun
  split at hrun
  · cases hrun
  next t he => exact absurd he (hloads t)
  next m t he =>
    have ht := hloaded m t he
    split at hrun
    · split at hrun
      · cases hrun
      next hv =>
        obtain ⟨-, rfl⟩ := Prod.mk.inj (Option.some.inj hrun)
        exact ht.evaluated hv
      next hv =>
        obtain ⟨-, rfl⟩ := Prod.mk.inj (Option.some.inj hrun)
        exact (ht.evaluated hv).freeNotEvaluated
    · obtain ⟨-, rfl⟩ := Prod.mk.inj (Option.some.inj hrun)
      exact ht.freeNotEvaluated

theorem call_usable (h : ctx.Usable H) {fuel : Nat} {c : Call} (hloads : Loads H ctx (fuel, c))
    {r : Executed V} (hrun : call H fuel ctx c = some (r, ctx')) : ctx'.Usable H := by
  rw [call_eq] at hrun
  cases hscript : c.script H with
  | none =>
    rw [hscript] at hrun
    obtain ⟨-, rfl⟩ := Prod.mk.inj (Option.some.inj hrun)
    exact h.asked c
  | some script =>
    rw [hscript] at hrun
    exact executeModuleScript_usable (h.asked c) (hloads script hscript) hrun

/-- `U` has the names that a call may have to look up. -/
structure Call.Within (H : Host V) (c : Call) (U : List (Option String)) : Prop where
  closed : ∀ x ∈ U, ∀ y ∈ edges H x, y ∈ U
  roots : ∀ script, c.script H = some script → ∀ specifiers, H.parse script.1 = some specifiers →
    ∀ name ∈ reqModuleEntries specifiers, normalize script.2 name ∈ U

/-- The call ends, and so has not read what is freed. -/
theorem call_isSome (h : ctx.Usable H) {c : Call} {U : List (Option String)} (hU : c.Within H U)
    {fuel : Nat} (hfuel : ctx.loadedModules.length + U.length + 2 ≤ fuel) :
    (call H fuel ctx c).isSome := by
  rw [call_eq]
  cases hscript : c.script H with
  | none => rfl
  | some script =>
    have ha := h.asked c
    have hlength : (ctx.asked c).loadedModules.length = ctx.loadedModules.length := by
      cases c <;> rfl
    obtain ⟨r, t, he, hbound⟩ := evalInternal_ends ha.begun hU.closed (hU.roots script hscript)
      (show U.length + 2 ≤ fuel by omega)
    unfold executeModuleScript
    simp only [he]
    cases r with
    | none => rfl
    | some m =>
      obtain ⟨k, rfl⟩ : ∃ k, fuel = k + 1 := ⟨fuel - 1, by omega⟩
      obtain ⟨rfl, specifiers, new, -, hl⟩ := evalInternal_loaded (imports H k) ha.begun he
      have hm : (ctx.asked c).next ∈ t.loadedModules :=
        hl.loaded_eq ▸ List.mem_append_right _ List.mem_cons_self
      have hlt := hbound (Option.some_ne_none _)
      obtain ⟨⟨r, t'⟩, hrun⟩ := Option.isSome_iff_exists.1
        (evaluateModule_isSome (ha.loaded hl).ready hm (show t.loadedModules.length < k + 1 by omega))
      simp only [hrun]
      split
      · cases r <;> rfl
      · rfl

theorem ranOnce_initial : (initial : Context V).RanOnce where
  lt_next := List.forall_mem_nil _
  nodup := List.nodup_nil
  evaluated := List.forall_mem_nil _

theorem usable_initial : (initial : Context V).Usable H where
  begun := List.forall_mem_nil _
  ready := ⟨List.forall_mem_nil _, List.forall_mem_nil _, List.forall_mem_nil _⟩

theorem loads_of_eval {fuel : Nat} {c : Call} {script : String × String} {m : ModulePtr}
    (hscript : c.script H = some script)
    (h : (evalInternal H (resolveModule H fuel) (ctx.asked c) script.1 script.2).map Prod.fst =
      some (some m)) : Loads H ctx (fuel, c) := by
  intro script' hscript' ctx' he
  obtain rfl := Option.some.inj (hscript.symm.trans hscript')
  rw [he] at h
  cases h

/-- `a.js` imports `b.js`, which imports it, and what is missing: `b.js` is left with an import that
has been freed. -/
example : (step { crossing with
    parse := fun s => if s = "a" then some ["./b.js", "./c.js"] else crossing.parse s } initial
    (6, .executeModule "a.js")).map (fun ctx => (ctx.loadedModules, (ctx.defs 1).modules)) =
    some ([1], [0]) := by decide +kernel

/-! ## Runs without a failure -/

/-- The call does not fail, though there may be no script. -/
def Succeeds (H : Host V) (ctx : Context V) (a : Nat × Call) : Prop :=
  ∀ r ctx', call H a.1 ctx a.2 = some (r, ctx') → r = .returned ∨ r = .scriptIsNull

/-- What has been loaded has been run, and did not throw. -/
structure Context.AllRun (H : Host V) (ctx : Context V) : Prop where
  settled : ctx.Settled H
  ranOnce : ctx.RanOnce
  ran_iff : ∀ p, p ∈ ctx.ran ↔ p ∈ ctx.loadedModules
  body_eq : ∀ p ∈ ctx.loadedModules, H.body p = none

theorem Context.AllRun.logged (h : ctx.AllRun H) (scripts : List String) :
    ({ ctx with scripts } : Context V).AllRun H where
  settled := ⟨h.settled.lt_next, h.settled.complete, h.settled.unmarked, h.settled.exception_eq⟩
  ranOnce := ⟨h.ranOnce.lt_next, h.ranOnce.nodup, h.ranOnce.evaluated⟩
  ran_iff := h.ran_iff
  body_eq := h.body_eq

section

variable {moduleName : String} {specifiers : List String} {new : List ModulePtr}

theorem Context.Settled.loaded (hs : ctx.Settled H)
    (hl : ctx.Loaded moduleName specifiers new ctx') : ctx'.Settled H := by
  have hcases : ∀ p ∈ ctx'.loadedModules, p ∈ ctx.loadedModules ∧ ctx'.defs p = ctx.defs p ∨
      p ∈ ctx.next :: new := fun p hp => by
    rw [hl.loaded_eq] at hp
    exact (List.mem_append.1 hp).imp_left fun hp => ⟨hp, hl.defs_eq p (hs.lt_next p hp)⟩
  refine ⟨fun p hp => ?_, fun p hp => ?_, fun p hp => ?_, fun p hp => ?_⟩
  · rcases hcases p hp with ⟨hp, -⟩ | hp
    · exact Nat.lt_of_lt_of_le (hs.lt_next p hp) hl.next_le
    · exact (hl.mem_new p hp).2
  · rcases hcases p hp with ⟨hp, hdef⟩ | hp
    · exact hl.toGrows.complete hs.lt_next hdef (hs.complete p hp)
    · exact hl.complete p hp
  · rcases hcases p hp with ⟨hp, hdef⟩ | hp
    · rw [hdef]
      exact hs.unmarked p hp
    · exact (hl.idle p hp).2
  · rcases hcases p hp with ⟨hp, hdef⟩ | hp
    · rw [hdef]
      exact hs.exception_eq p hp
    · simp [(hl.idle p hp).1]

/-- What has come with a module is below it: an older module only imports older ones. -/
theorem Context.Settled.below_of_loaded (hs : ctx.Settled H)
    (hl : ctx.Loaded moduleName specifiers new ctx') {p : ModulePtr} (hp : p ∈ ctx.next :: new) :
    ctx'.Below ctx.next p := by
  have hs' := hs.loaded hl
  suffices h : ∀ a, ctx'.ImportedFrom a p → a ∈ ctx'.loadedModules →
      a ∈ ctx.next :: new ∧ ctx'.Below a p from
    (h _ (hl.importedFrom p hp) (hl.loaded_eq ▸ List.mem_append_right _ List.mem_cons_self)).2
  intro a ha
  induction ha using ReflTransGen.head_induction_on with
  | refl => exact fun _ => ⟨hp, .refl⟩
  | @head a c hac _ ih =>
    intro hmem
    obtain ⟨hc, hbelow⟩ := ih ((hs'.complete a hmem).modules_loaded c hac.2)
    rw [hl.loaded_eq] at hmem
    rcases List.mem_append.1 hmem with hold | hnew
    · have hc' := hac.2
      rw [hl.defs_eq a (hs.lt_next a hold)] at hc'
      have hlt := hs.lt_next c ((hs.complete a hold).modules_loaded c hc')
      exact absurd hlt (Nat.not_lt.2 (hl.mem_new c hc).1)
    · exact ⟨hnew, hbelow.head ⟨(hl.idle a hnew).1, hac.2⟩⟩

/-- A module has been loaded and evaluated. -/
theorem Context.AllRun.evaluated {ctx'' : Context V} (h : ctx.AllRun H)
    (hl : ctx.Loaded moduleName specifiers new ctx') {fuel : Nat}
    (hrun : evaluateModule H fuel ctx' ctx.next = some (.ok (), ctx'')) (hr : ctx'.RanOnce) :
    ctx''.AllRun H := by
  have hs' := h.settled.loaded hl
  have hmem : ctx.next ∈ ctx'.loadedModules :=
    hl.loaded_eq ▸ List.mem_append_right _ List.mem_cons_self
  have hsame := (evaluateModule_during hrun).toSameTable
  have hs'' := evaluateModule_settled hs' hrun
  obtain ⟨ran, hran, hspec⟩ := evaluateModule_spec hs'.ready hmem hrun
  have hbody := hspec.returns_iff.1 rfl
  have hran_iff : ∀ p, p ∈ ran ↔ ctx'.Below ctx.next p ∧ (ctx'.defs p).evaluated = false :=
    fun p => ⟨hspec.below p, fun hp => hspec.all rfl p hp.1 hp.2⟩
  refine ⟨hs'', evaluateModule_ranOnce hr hrun, fun p => ?_, fun p hp => ?_⟩
  · rw [hran, hl.ran_eq, hsame.loadedModules_eq, List.mem_append, h.ran_iff, hran_iff]
    constructor
    · rintro (hp | ⟨hp, -⟩)
      · exact hl.loaded_eq ▸ List.mem_append_left _ hp
      · exact hs'.ready.below_loaded hmem hp
    · intro hp
      rw [hl.loaded_eq] at hp
      exact (List.mem_append.1 hp).imp_right fun hp =>
        ⟨h.settled.below_of_loaded hl hp, (hl.idle p hp).1⟩
  · rw [hsame.loadedModules_eq, hl.loaded_eq] at hp
    rcases List.mem_append.1 hp with hp | hp
    · exact h.body_eq p hp
    · exact hbody p (h.settled.below_of_loaded hl hp)

end

theorem executeModuleScript_ne_scriptIsNull {fuel : Nat} {source moduleName : String} :
    executeModuleScript H fuel ctx source moduleName ≠ some (.scriptIsNull, ctx') := by
  simp only [executeModuleScript]
  split
  · simp
  · simp
  · split
    · split <;> simp
    · simp

theorem executeModuleScript_allRun (h : ctx.AllRun H) {fuel : Nat} {source moduleName : String}
    (hrun : executeModuleScript H fuel ctx source moduleName = some (.returned, ctx')) :
    ctx'.AllRun H := by
  simp only [executeModuleScript] at hrun
  split at hrun
  · cases hrun
  · simp at hrun
  next m ctx₁ he =>
    have hr := h.ranOnce.keeps (evalInternal_keeps (resolveModule_keeps H fuel) he)
    split at hrun
    · split at hrun
      · cases hrun
      next hv =>
        simp only [Option.some.injEq, Prod.mk.injEq, true_and] at hrun
        subst hrun
        cases fuel with
        | zero => simp only [evaluateModule, visit, reduceCtorEq] at hv
        | succ k =>
          obtain ⟨rfl, _, _, -, hl⟩ := evalInternal_loaded (imports H k) h.settled.begun he
          exact h.evaluated hl hv hr
      · simp at hrun
    · simp at hrun

end HybridStack.QuickJs.ES6Module
