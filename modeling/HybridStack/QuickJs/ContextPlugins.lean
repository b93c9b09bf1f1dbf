import HybridStack.Lib.Transition
import Mathlib.Data.List.Nodup
import Mathlib.Data.List.Perm.Basic

/-!
# The plugins of a context

`addPlugin` runs on the thread that calls it: it asks, sets the plugin up and puts it into the set in
three steps. `close` runs on the handler thread and goes through the same set. Nothing keeps the two
apart but the set itself, whose iterator throws if it finds the set changed.

| here | there |
| --- | --- |
| `Action.addPlugin`, `contains`, `setupEnds` | `JSContext.addPlugin` (JSContext.java:171-178) |
| `Action.close`, `next`, `clear` | the event of `close`, its loop, and what is behind it (JSContext.java:64-71) |
| `Action.release` | `JSContext.super.close()` (JSContext.java:80) |

A plugin is its own identity, as `Plugin` has no `equals`. What `setup` and `close` of a plugin do is
not modelled but for whether they throw; that they call `addPlugin` or `close` of the same context on
the same thread is left out.

- **`plugins_closed`**: which plugins a released context has closed, in any run.
- **`closed_once`**: when each plugin is closed exactly once.
- **`never_released`**: what a plugin that cannot be closed does to its context.
-/

namespace HybridStack.QuickJs.ContextPlugins

open Transition

variable {P : Type}

/-- Where the handler thread is with `close`. -/
inductive Phase (P : Type)
  | idle
  /-- In the loop, with the plugins that the iterator still has to give. -/
  | closing (todo : List P) (modified : Bool)
  /-- Behind `plugins.clear()`. -/
  | cleared
  | released
  deriving DecidableEq, Repr

inductive Entry (P : Type)
  | added (p : P)
  /-- A `close` has begun. -/
  | closing
  | closed (p : P)
  deriving DecidableEq, Repr

structure State (P : Type) where
  plugins : List P := []
  /-- The calls of `addPlugin` that are past `checkReleased`. -/
  calls : List P := []
  /-- The setups that run. -/
  setups : List P := []
  phase : Phase P := .idle
  log : List (Entry P) := []

inductive Action (P : Type)
  | addPlugin (p : P)
  | contains (p : P)
  /-- The setup of `p` returns, or throws. -/
  | setupEnds (p : P) (returns : Bool)
  /-- The event of a `close` begins, with the set in this order. -/
  | close (order : List P)
  /-- The loop gets to its next plugin, whose `close` returns or throws. -/
  | next (returns : Bool)
  | clear
  | release
  deriving DecidableEq, Repr

/-- The set has changed under the iterator, if there is one. -/
def Phase.changed : Phase P → Phase P
  | .closing todo _ => .closing todo true
  | phase => phase

variable [DecidableEq P]

/-- `plugins.add`. -/
def State.add (s : State P) (p : P) : State P :=
  { s with
    plugins := s.plugins.insert p
    phase := if p ∈ s.plugins then s.phase else s.phase.changed
    log := s.log ++ [.added p] }

def step (s : State P) : Action P → Option (State P)
  | .addPlugin p =>
    -- of a released context it throws
    if s.phase = .released then some s else some { s with calls := p :: s.calls }
  | .contains p =>
    if p ∈ s.calls then
      let s := { s with calls := s.calls.erase p }
      some (if p ∈ s.plugins then s else { s with setups := p :: s.setups })
    else none
  | .setupEnds p returns =>
    if p ∈ s.setups then
      let s := { s with setups := s.setups.erase p }
      some (if returns then s.add p else s)
    else none
  | .close order =>
    match s.phase with
    | .idle =>
      if order.Perm s.plugins then
        some { s with phase := .closing order false, log := s.log ++ [.closing] }
      else none
    | .released => some s
    | _ => none
  | .next returns =>
    match s.phase with
    | .closing (p :: todo) modified =>
      -- ConcurrentModificationException, before the plugin is reached
      if modified then some { s with phase := .idle }
      else some { s with
        phase := if returns then .closing todo false else .idle
        log := s.log ++ [.closed p] }
    | _ => none
  | .clear =>
    match s.phase with
    | .closing [] _ => some { s with plugins := [], phase := .cleared }
    | _ => none
  | .release =>
    match s.phase with
    | .cleared => some { s with phase := .released }
    | _ => none

/-! ## What a step can do -/

/-- The set, the loop and the history are as they were. -/
structure State.Same (s s' : State P) : Prop where
  plugins : s'.plugins = s.plugins
  phase : s'.phase = s.phase
  log : s'.log = s.log

theorem step_cases {s s' : State P} {a : Action P} (h : step s a = some s') :
    State.Same s s' ∨
    (∃ p, a = .setupEnds p true ∧ State.Same (s.add p) s') ∨
    (∃ order, order.Perm s.plugins ∧ s.phase = .idle ∧
      s' = { s with phase := .closing order false, log := s.log ++ [.closing] }) ∨
    (∃ p todo, s.phase = .closing (p :: todo) true ∧ s' = { s with phase := .idle }) ∨
    (∃ p todo returns, a = .next returns ∧ s.phase = .closing (p :: todo) false ∧
      s' = { s with
        phase := if returns then .closing todo false else .idle
        log := s.log ++ [.closed p] }) ∨
    (∃ modified, s.phase = .closing [] modified ∧ s' = { s with plugins := [], phase := .cleared }) ∨
    s.phase = .cleared ∧ s' = { s with phase := .released } := by
  cases a with
  | addPlugin p =>
    apply Or.inl
    simp only [step] at h
    split at h
    next =>
      obtain rfl := Option.some.inj h
      exact ⟨rfl, rfl, rfl⟩
    next =>
      obtain rfl := Option.some.inj h
      exact ⟨rfl, rfl, rfl⟩
  | contains p =>
    apply Or.inl
    obtain ⟨-, h⟩ := Option.ite_none_right_eq_some.1 h
    obtain rfl := Option.some.inj h
    by_cases hp : p ∈ s.plugins
    · rw [if_pos hp]
      exact ⟨rfl, rfl, rfl⟩
    · rw [if_neg hp]
      exact ⟨rfl, rfl, rfl⟩
  | setupEnds p returns =>
    obtain ⟨-, h⟩ := Option.ite_none_right_eq_some.1 h
    obtain rfl := Option.some.inj h
    cases returns with
    | false => exact Or.inl ⟨rfl, rfl, rfl⟩
    | true => exact Or.inr (Or.inl ⟨p, rfl, rfl, rfl, rfl⟩)
  | close order =>
    simp only [step] at h
    split at h
    next hphase =>
      obtain ⟨hperm, h⟩ := Option.ite_none_right_eq_some.1 h
      exact Or.inr (Or.inr (Or.inl ⟨order, hperm, hphase, (Option.some.inj h).symm⟩))
    next =>
      obtain rfl := Option.some.inj h
      exact Or.inl ⟨rfl, rfl, rfl⟩
    next => cases h
  | next returns =>
    simp only [step] at h
    split at h
    next p todo modified hphase =>
      cases modified with
      | true => exact Or.inr (Or.inr (Or.inr (Or.inl ⟨p, todo, hphase, (Option.some.inj h).symm⟩)))
      | false =>
        exact Or.inr (Or.inr (Or.inr (Or.inr (Or.inl
          ⟨p, todo, returns, rfl, hphase, (Option.some.inj h).symm⟩))))
    next => cases h
  | clear =>
    simp only [step] at h
    split at h
    next modified hphase =>
      exact Or.inr (Or.inr (Or.inr (Or.inr (Or.inr (Or.inl
        ⟨modified, hphase, (Option.some.inj h).symm⟩)))))
    next => cases h
  | release =>
    simp only [step] at h
    split at h
    next hphase =>
      exact Or.inr (Or.inr (Or.inr (Or.inr (Or.inr (Or.inr ⟨hphase, (Option.some.inj h).symm⟩)))))
    next => cases h

/-! ## The history -/

def Entry.closed? : Entry P → Option P
  | .closed p => some p
  | _ => none

/-- The plugins that were closed, in order. -/
def closes (log : List (Entry P)) : List P := log.filterMap Entry.closed?

omit [DecidableEq P] in
theorem closes_concat_added (log : List (Entry P)) (p : P) : closes (log ++ [.added p]) = closes log := by
  unfold closes
  rw [List.filterMap_append, List.filterMap_cons_none rfl, List.filterMap_nil, List.append_nil]

omit [DecidableEq P] in
theorem closes_concat_closed (log : List (Entry P)) (p : P) :
    closes (log ++ [.closed p]) = closes log ++ [p] := by
  unfold closes
  rw [List.filterMap_append]
  rfl

/-- The history has a pass, begun last of all, that still has to close `todo`: it closes each plugin
once that had been added when it began. -/
def Pass (log : List (Entry P)) (todo : List P) : Prop :=
  ∃ before after, log = before ++ .closing :: after ∧ .closing ∉ after ∧
    (closes after ++ todo).Nodup ∧ ∀ p, p ∈ closes after ++ todo ↔ .added p ∈ before

omit [DecidableEq P] in
theorem Pass.start {log : List (Entry P)} {plugins order : List P} (hperm : order.Perm plugins)
    (hnodup : plugins.Nodup) (hmem : ∀ p, p ∈ plugins ↔ .added p ∈ log) :
    Pass (log ++ [.closing]) order := by
  refine ⟨log, [], rfl, List.not_mem_nil, hperm.nodup_iff.2 hnodup, ?_⟩
  intro p
  rw [← hmem p]
  exact hperm.mem_iff

omit [DecidableEq P] in
theorem Pass.added {log : List (Entry P)} {todo : List P} (h : Pass log todo) (p : P) :
    Pass (log ++ [.added p]) todo := by
  obtain ⟨before, after, rfl, hlast, hnodup, hmem⟩ := h
  refine ⟨before, after ++ [.added p], by simp, by simpa using hlast, ?_, ?_⟩
  · rw [closes_concat_added]
    exact hnodup
  · rw [closes_concat_added]
    exact hmem

omit [DecidableEq P] in
theorem Pass.closed {log : List (Entry P)} {p : P} {todo : List P} (h : Pass log (p :: todo)) :
    Pass (log ++ [.closed p]) todo := by
  obtain ⟨before, after, rfl, hlast, hnodup, hmem⟩ := h
  have hsame : closes (after ++ [.closed p]) ++ todo = closes after ++ p :: todo := by
    rw [closes_concat_closed, List.append_assoc, List.singleton_append]
  refine ⟨before, after ++ [.closed p], by simp, by simpa using hlast, ?_, ?_⟩
  · rw [hsame]
    exact hnodup
  · rw [hsame]
    exact hmem

/-! ## The invariant -/

/-- What the set and the history are like while the handler thread is there. -/
def Phase.Fits (plugins : List P) (log : List (Entry P)) : Phase P → Prop
  | .idle => ∀ p, p ∈ plugins ↔ .added p ∈ log
  | .closing todo _ => (∀ p, p ∈ plugins ↔ .added p ∈ log) ∧ Pass log todo
  | .cleared => Pass log []
  | .released => Pass log []

structure State.Inv (s : State P) : Prop where
  nodup : s.plugins.Nodup
  /-- Whatever has been closed had been added. -/
  ordered : ∀ before p after, s.log = before ++ .closed p :: after → .added p ∈ before
  fits : s.phase.Fits s.plugins s.log

omit [DecidableEq P] in
theorem ordered_concat {log : List (Entry P)} {e : Entry P}
    (h : ∀ before p after, log = before ++ .closed p :: after → .added p ∈ before)
    (he : ∀ p, e = .closed p → .added p ∈ log) :
    ∀ before p after, log ++ [e] = before ++ .closed p :: after → .added p ∈ before := by
  intro before p after hsplit
  rcases split_concat hsplit with ⟨rest, hrest⟩ | ⟨rfl, hlast⟩
  · exact h before p rest hrest
  · exact he p hlast.symm

namespace State.Inv

variable {s s' : State P}

omit [DecidableEq P] in
theorem start : ({} : State P).Inv where
  nodup := List.nodup_nil
  ordered before p after h := by simp at h
  fits p := by simp

omit [DecidableEq P] in
theorem same (h : s.Inv) (hs : State.Same s s') : s'.Inv where
  nodup := by
    rw [hs.plugins]
    exact h.nodup
  ordered := by
    rw [hs.log]
    exact h.ordered
  fits := by
    rw [hs.plugins, hs.phase, hs.log]
    exact h.fits

theorem add (h : s.Inv) (p : P) : (s.add p).Inv where
  nodup := h.nodup.insert
  ordered := ordered_concat h.ordered (by simp)
  fits := by
    have hmem : (∀ q, q ∈ s.plugins ↔ .added q ∈ s.log) →
        ∀ q, q ∈ s.plugins.insert p ↔ .added q ∈ s.log ++ [.added p] := by
      intro hset q
      rw [List.mem_insert_iff, List.mem_append, List.mem_singleton, hset q, Entry.added.injEq]
      exact or_comm
    have hfits := h.fits
    unfold State.add
    cases hphase : s.phase with
    | idle =>
      rw [hphase] at hfits
      simp only [Phase.changed, ite_self]
      exact hmem hfits
    | closing todo modified =>
      rw [hphase] at hfits
      simp only [Phase.changed]
      split
      next => exact ⟨hmem hfits.1, hfits.2.added p⟩
      next => exact ⟨hmem hfits.1, hfits.2.added p⟩
    | cleared =>
      rw [hphase] at hfits
      simp only [Phase.changed, ite_self]
      exact hfits.added p
    | released =>
      rw [hphase] at hfits
      simp only [Phase.changed, ite_self]
      exact hfits.added p

theorem step {a : Action P} (h : s.Inv) (hstep : ContextPlugins.step s a = some s') : s'.Inv := by
  have hfits := h.fits
  rcases step_cases hstep with hsame | ⟨p, -, hsame⟩ | ⟨order, hperm, hphase, rfl⟩ |
    ⟨p, todo, hphase, rfl⟩ | ⟨p, todo, returns, -, hphase, rfl⟩ | ⟨modified, hphase, rfl⟩ |
    ⟨hphase, rfl⟩
  · exact h.same hsame
  · exact (h.add p).same hsame
  · rw [hphase] at hfits
    refine ⟨h.nodup, ordered_concat h.ordered (by simp), ?_, ?_⟩
    · intro q
      rw [hfits q]
      simp
    · exact .start hperm h.nodup hfits
  · rw [hphase] at hfits
    exact ⟨h.nodup, h.ordered, hfits.1⟩
  · rw [hphase] at hfits
    obtain ⟨hset, hpass⟩ := hfits
    have hset' : ∀ q, q ∈ s.plugins ↔ .added q ∈ s.log ++ [.closed p] := by
      intro q
      rw [hset q]
      simp
    refine ⟨h.nodup, ordered_concat h.ordered ?_, ?_⟩
    · intro q hq
      obtain rfl := Entry.closed.inj hq
      obtain ⟨before, after, hlog, -, -, hmem⟩ := hpass
      rw [hlog]
      exact List.mem_append_left _ ((hmem p).1 (List.mem_append_right _ List.mem_cons_self))
    · cases returns with
      | true => exact ⟨hset', hpass.closed⟩
      | false => exact hset'
  · rw [hphase] at hfits
    exact ⟨List.nodup_nil, h.ordered, hfits.2⟩
  · rw [hphase] at hfits
    exact ⟨h.nodup, h.ordered, hfits⟩

end State.Inv

theorem inv_of_reaches {s : State P} {C : State P → Action P → Prop} (h : Reaches step C {} s) :
    s.Inv :=
  h.invariant State.Inv .start fun _ _ _ hs _ hstep => hs.step hstep

/-- **What a context closes.** In any run, whichever setups and closes throw and however the threads
interleave, only what has been added is closed; and once the context is released, its last `close`
has closed each plugin exactly once that had been added when it began, and none that came later. -/
theorem plugins_closed {s : State P} (h : Reaches step (fun _ _ => True) {} s) :
    (∀ before p after, s.log = before ++ .closed p :: after → .added p ∈ before) ∧
      (s.phase = .released → ∃ before after, s.log = before ++ .closing :: after ∧
        .closing ∉ after ∧ (closes after).Nodup ∧ ∀ p, p ∈ closes after ↔ .added p ∈ before) := by
  have hinv := inv_of_reaches h
  refine ⟨hinv.ordered, ?_⟩
  intro hphase
  have hfits := hinv.fits
  rw [hphase] at hfits
  obtain ⟨before, after, hlog, hlast, hnodup, hmem⟩ := hfits
  simp only [List.append_nil] at hnodup hmem
  exact ⟨before, after, hlog, hlast, hnodup, hmem⟩

/-- A plugin whose close throws the first time, one that it keeps from being closed, and one whose
setup is over too late. -/
def twoCloses : List (Action String) :=
  [.addPlugin "worker", .contains "worker", .setupEnds "worker" true,
    .addPlugin "console", .contains "console", .setupEnds "console" true,
    .close ["worker", "console"], .next false, .addPlugin "setTimeout", .contains "setTimeout",
    .close ["console", "worker"], .next true, .next true, .clear, .setupEnds "setTimeout" true, .release]

theorem plugins_closed_twoCloses : ∃ s, run step {} twoCloses = some s ∧
    closes s.log = ["worker", "console", "worker"] ∧
    ∃ before after, s.log = before ++ .closing :: after ∧ (closes after).Nodup ∧
      ∀ p, p ∈ closes after ↔ .added p ∈ before := by
  have hrun : (run step {} twoCloses).map (fun s => (s.phase, closes s.log)) =
      some (.released, ["worker", "console", "worker"]) := by
    decide +kernel
  obtain ⟨s, hs, heq⟩ := Option.map_eq_some_iff.1 hrun
  obtain ⟨hphase, hcloses⟩ := Prod.mk.inj heq
  obtain ⟨-, hreleased⟩ := plugins_closed (reaches_of_run hs (meets_true _ _))
  obtain ⟨before, after, hlog, -, hnodup, hmem⟩ := hreleased hphase
  exact ⟨s, hs, hcloses, before, after, hlog, hnodup, hmem⟩

/-! ## Exactly once -/

/-- No plugin's close throws, and no setup is over but while there is no `close`. -/
def Orderly (s : State P) : Action P → Prop
  | .setupEnds _ true => s.phase = .idle
  | .next false => False
  | _ => True

instance (s : State P) (a : Action P) : Decidable (Orderly s a) := by
  unfold Orderly
  split <;> infer_instance

/-- How far the only pass of an orderly run is. -/
def Phase.Orderly (log : List (Entry P)) : Phase P → Prop
  | .idle => closes log = []
  | .closing todo modified => modified = false ∧ (closes log ++ todo).Nodup ∧
      ∀ p, p ∈ closes log ++ todo ↔ .added p ∈ log
  | .cleared => (closes log).Nodup ∧ ∀ p, p ∈ closes log ↔ .added p ∈ log
  | .released => (closes log).Nodup ∧ ∀ p, p ∈ closes log ↔ .added p ∈ log

theorem Phase.Orderly.step {s s' : State P} {a : Action P} (hinv : s.Inv)
    (h : s.phase.Orderly s.log) (ha : ContextPlugins.Orderly s a)
    (hstep : ContextPlugins.step s a = some s') : s'.phase.Orderly s'.log := by
  rcases step_cases hstep with hsame | ⟨p, rfl, hsame⟩ | ⟨order, hperm, hphase, rfl⟩ |
    ⟨p, todo, hphase, rfl⟩ | ⟨p, todo, returns, rfl, hphase, rfl⟩ | ⟨modified, hphase, rfl⟩ |
    ⟨hphase, rfl⟩
  · rw [hsame.phase, hsame.log]
    exact h
  · have hidle : s.phase = .idle := ha
    rw [hidle] at h
    rw [hsame.phase, hsame.log]
    unfold State.add
    simp only [hidle, Phase.changed, ite_self]
    show closes (s.log ++ [.added p]) = []
    rw [closes_concat_added]
    exact h
  · -- the set has everything that has been added, and nothing has been closed
    have hfits := hinv.fits
    rw [hphase] at h hfits
    have hnone : closes (s.log ++ [.closing]) = [] := by
      unfold closes
      rw [List.filterMap_append]
      exact List.append_eq_nil_iff.2 ⟨h, rfl⟩
    refine ⟨rfl, ?_, ?_⟩
    · rw [hnone, List.nil_append]
      exact hperm.nodup_iff.2 hinv.nodup
    · intro p
      rw [hnone, List.nil_append, hperm.mem_iff, hfits p]
      simp
  · rw [hphase] at h
    exact Bool.noConfusion h.1
  · cases returns with
    | false => exact ha.elim
    | true =>
      rw [hphase] at h
      have hsame : closes (s.log ++ [.closed p]) ++ todo = closes s.log ++ p :: todo := by
        rw [closes_concat_closed, List.append_assoc, List.singleton_append]
      refine ⟨rfl, ?_, ?_⟩
      · rw [hsame]
        exact h.2.1
      · intro q
        rw [hsame, h.2.2 q]
        simp
  · rw [hphase] at h
    obtain ⟨-, hnodup, hmem⟩ := h
    simp only [List.append_nil] at hnodup hmem
    exact ⟨hnodup, hmem⟩
  · rw [hphase] at h
    exact h

/-- **Exactly once**: in a run in which no plugin's close throws and every plugin is added before the
context is closed, no plugin is ever closed twice, and a released context has closed them all. -/
theorem closed_once {s : State P} (h : Reaches step Orderly {} s) :
    (closes s.log).Nodup ∧
      (s.phase = .released → ∀ p, p ∈ closes s.log ↔ .added p ∈ s.log) := by
  have hboth : s.Inv ∧ s.phase.Orderly s.log := by
    apply h.invariant (fun s => s.Inv ∧ s.phase.Orderly s.log)
    · exact ⟨.start, rfl⟩
    · intro s a s' hs ha hstep
      exact ⟨hs.1.step hstep, hs.2.step hs.1 ha hstep⟩
  have horderly := hboth.2
  constructor
  · cases hphase : s.phase with
    | idle =>
      rw [hphase] at horderly
      rw [horderly]
      exact List.nodup_nil
    | closing todo modified =>
      rw [hphase] at horderly
      exact horderly.2.1.of_append_left
    | cleared =>
      rw [hphase] at horderly
      exact horderly.1
    | released =>
      rw [hphase] at horderly
      exact horderly.1
  · intro hphase
    rw [hphase] at horderly
    exact horderly.2

def oneClose : List (Action String) :=
  [.addPlugin "worker", .addPlugin "worker", .contains "worker", .contains "worker",
    .setupEnds "worker" true, .setupEnds "worker" true, .addPlugin "console", .contains "console",
    .setupEnds "console" true, .close ["console", "worker"], .next true, .next true, .clear, .release,
    .close []]

theorem closed_once_oneClose : ∃ s, run step {} oneClose = some s ∧
    ∀ p, p ∈ closes s.log ↔ .added p ∈ s.log := by
  have hrun : (run step {} oneClose).map State.phase = some .released := by
    decide +kernel
  obtain ⟨s, hs, hphase⟩ := Option.map_eq_some_iff.1 hrun
  have hmeets : Meets step Orderly {} oneClose := by
    decide +kernel
  exact ⟨s, hs, (closed_once (reaches_of_run hs hmeets)).2 hphase⟩

/-! ## A plugin that cannot be closed -/

/-- The close of `p` throws. -/
def Throws (p : P) (s : State P) : Action P → Prop
  | .next true => ∀ todo modified, s.phase ≠ .closing (p :: todo) modified
  | _ => True

/-- `close` is not past `p`. -/
def Phase.Before (p : P) : Phase P → Prop
  | .idle => True
  | .closing todo _ => p ∈ todo
  | .cleared => False
  | .released => False

omit [DecidableEq P] in
theorem Phase.Before.changed {p : P} {phase : Phase P} (h : phase.Before p) :
    phase.changed.Before p := by
  cases phase with
  | idle => trivial
  | closing todo modified => exact h
  | cleared => exact h
  | released => exact h

/-- **A plugin that cannot be closed** keeps its context, and every plugin of it, from ever being
released. -/
theorem never_released {s s' : State P} {p : P} (h : Reaches step (fun _ _ => True) {} s)
    (hp : .added p ∈ s.log) (hidle : s.phase = .idle) (h' : Reaches step (Throws p) s s') :
    s'.phase ≠ .released ∧ ∀ q ∈ s.plugins, q ∈ s'.plugins := by
  have hset := (inv_of_reaches h).fits
  rw [hidle] at hset
  have hkeep : s'.phase.Before p ∧ ∀ q ∈ s.plugins, q ∈ s'.plugins := by
    apply h'.invariant (fun t => t.phase.Before p ∧ ∀ q ∈ s.plugins, q ∈ t.plugins)
    · rw [hidle]
      exact ⟨trivial, fun q hq => hq⟩
    · intro t a t' ⟨hbefore, hkeep⟩ ha hstep
      rcases step_cases hstep with hsame | ⟨q, -, hsame⟩ | ⟨order, hperm, -, rfl⟩ |
        ⟨q, todo, -, rfl⟩ | ⟨q, todo, returns, rfl, hphase, rfl⟩ | ⟨modified, hphase, rfl⟩ |
        ⟨hphase, rfl⟩
      · rw [hsame.phase, hsame.plugins]
        exact ⟨hbefore, hkeep⟩
      · rw [hsame.phase, hsame.plugins]
        constructor
        · unfold State.add
          dsimp only
          split
          next => exact hbefore
          next => exact hbefore.changed
        · intro r hr
          exact List.mem_insert_of_mem (hkeep r hr)
      · exact ⟨hperm.mem_iff.2 (hkeep p ((hset p).2 hp)), hkeep⟩
      · exact ⟨trivial, hkeep⟩
      · refine ⟨?_, hkeep⟩
        cases returns with
        | false => trivial
        | true =>
          rw [hphase] at hbefore
          rcases List.mem_cons.1 hbefore with rfl | hlater
          · exact absurd hphase (ha todo false)
          · exact hlater
      · rw [hphase] at hbefore
        exact absurd hbefore List.not_mem_nil
      · rw [hphase] at hbefore
        exact hbefore.elim
  refine ⟨?_, hkeep.2⟩
  intro hreleased
  rw [hreleased] at hkeep
  exact hkeep.1

theorem never_released_twoCloses : ∃ s s', run step {} (twoCloses.take 6) = some s ∧
    run step s [.close ["worker", "console"], .next false] = some s' ∧
    ∀ q ∈ s.plugins, q ∈ s'.plugins := by
  have hrun : (run step {} (twoCloses.take 6)).map (fun s => (s.phase, s.plugins, s.log)) =
      some (.idle, ["console", "worker"], [.added "worker", .added "console"]) := by
    decide +kernel
  obtain ⟨s, hs, heq⟩ := Option.map_eq_some_iff.1 hrun
  simp only [Prod.mk.injEq] at heq
  obtain ⟨hphase, hplugins, hlog⟩ := heq
  have hlater : ∃ s', run step s [.close ["worker", "console"], .next false] = some s' := by
    have hperm : ["worker", "console"].Perm s.plugins := by
      rw [hplugins]
      exact List.Perm.swap _ _ _
    simp [run, step, hphase, hperm]
  obtain ⟨s', hs'⟩ := hlater
  have hmeets : Meets step (Throws "worker") s [.close ["worker", "console"], .next false] := by
    apply meets_of_forall
    intro a ha t
    simp only [List.mem_cons, List.not_mem_nil, or_false] at ha
    rcases ha with rfl | rfl <;> trivial
  have hreaches := never_released (reaches_of_run hs (meets_true _ _)) (p := "worker")
    (by simp [hlog]) hphase (reaches_of_run hs' hmeets)
  exact ⟨s, s', hs, hs', hreaches.2⟩

end HybridStack.QuickJs.ContextPlugins
