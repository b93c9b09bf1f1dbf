import HybridStack.Lib.Transition
import Mathlib.Data.List.Nodup
import Mathlib.Logic.Function.Basic

/-!
# `QuickJS.sContextMap`

The map of the contexts of all runtimes, by the address of the native context. The constructor and
`close` are two steps each, and those of different runtimes run on different threads.

| here | there |
| --- | --- |
| `Action.create`, `Action.put` | `_createContext`, then JSContext.java:22-28 |
| `Action.startClose` to `Action.remove` | JSContext.java:63-84: the guard, `_releaseContext(contextPtr)`, `sContextMap.remove(getContextPtr())` |
| `Registered` | what `callJavaCallback`, `createJSValue` and `getModuleScript` rely on (QuickJS.java:98-145) |

`_releaseContext` drops a reference of the native context (`JS_FreeContext`, quickjs.c:2279). Its
block is freed with the last one, which for functions that refer to the context may take a collection;
from the drop on the address may be free here. The allocator may return any address that is free, one
just freed included.

- **`registered`**: every open context is found, in every run in which no close removes the key of a
  context that is open.
- `registered_iff`: at a removal this is what it takes.
- `missing`: a context created at the address of one that is being closed.
-/

namespace HybridStack.QuickJs.ContextMap

open Transition

abbrev Pointer := Nat

inductive Phase
  /-- `_createContext` has returned. -/
  | created
  /-- The constructor has finished. -/
  | opened
  /-- `close` has started. -/
  | closing
  /-- `_releaseContext` has returned. -/
  | released
  | closed
  deriving DecidableEq, Repr

/-- The reference of the Java context to the native one has not been dropped. -/
def Phase.isLive : Phase → Bool
  | .created | .opened | .closing => true
  | .released | .closed => false

structure Context where
  contextPtr : Pointer
  phase : Phase
  deriving DecidableEq, Repr

/-- `Ref` are references to `JSContext` objects. -/
structure State (Ref : Type) where
  contexts : Ref → Option Context := fun _ => none
  allocated : List Pointer := []
  sContextMap : Pointer → Option Ref := fun _ => none

inductive Action (Ref : Type)
  | create (c : Ref) (contextPtr : Pointer)
  | put (c : Ref)
  | startClose (c : Ref)
  | release (c : Ref)
  | remove (c : Ref)
  deriving DecidableEq, Repr

variable {Ref : Type}

/-- The context a step is about. -/
def Action.context : Action Ref → Ref
  | .create c _ | .put c | .startClose c | .release c | .remove c => c

/-- Each open context is the value under its pointer. -/
def Registered (s : State Ref) : Prop :=
  ∀ c p, s.contexts c = some ⟨p, .opened⟩ → s.sContextMap p = some c

/-- The live contexts have the allocated addresses, each its own. -/
structure Addresses (s : State Ref) : Prop where
  nodup : s.allocated.Nodup
  allocated : ∀ c context, s.contexts c = some context → context.phase.isLive →
    context.contextPtr ∈ s.allocated
  distinct : ∀ c c' context context', s.contexts c = some context → context.phase.isLive →
    s.contexts c' = some context' → context'.phase.isLive →
      context.contextPtr = context'.contextPtr → c = c'

theorem addresses_start : Addresses ({} : State Ref) where
  nodup := List.nodup_nil
  allocated c context h := by simp at h
  distinct c c' context context' h := by simp at h

/-! ## Steps -/

variable [DecidableEq Ref]

/-- The context moves on to another phase. -/
def State.setPhase (s : State Ref) (c : Ref) (context : Context) (phase : Phase) : State Ref :=
  { s with contexts := Function.update s.contexts c (some { context with phase }) }

def step (s : State Ref) : Action Ref → Option (State Ref)
  | .create c p =>
    if s.contexts c = none ∧ p ∉ s.allocated then
      some { s with
        contexts := Function.update s.contexts c (some ⟨p, .created⟩)
        allocated := p :: s.allocated }
    else none
  | .put c =>
    match s.contexts c with
    | some ⟨p, .created⟩ =>
      some { s.setPhase c ⟨p, .created⟩ .opened with
        sContextMap := Function.update s.sContextMap p (some c) }
    | _ => none
  | .startClose c =>
    match s.contexts c with
    | some ⟨p, .opened⟩ => some (s.setPhase c ⟨p, .opened⟩ .closing)
    | _ => none
  | .release c =>
    match s.contexts c with
    | some ⟨p, .closing⟩ =>
      some { s.setPhase c ⟨p, .closing⟩ .released with allocated := s.allocated.erase p }
    | _ => none
  | .remove c =>
    match s.contexts c with
    | some ⟨p, .released⟩ =>
      some { s.setPhase c ⟨p, .released⟩ .closed with
        sContextMap := Function.update s.sContextMap p none }
    | _ => none

/-- A close that comes to remove its key removes no open context's. -/
def StepOk (s : State Ref) : Action Ref → Prop
  | .remove c => ∀ p, s.contexts c = some ⟨p, .released⟩ →
      ∀ c', s.contexts c' ≠ some ⟨p, .opened⟩
  | _ => True

/-! ## What every step keeps -/

variable {s s' : State Ref}

/-- A context at its address moves on without leaving it. -/
theorem Addresses.setPhase (h : Addresses s) {c : Ref} {context : Context} {phase : Phase}
    (hc : s.contexts c = some context) (hlive : phase.isLive → context.phase.isLive) :
    Addresses (s.setPhase c context phase) := by
  have hold : ∀ d context', (s.setPhase c context phase).contexts d = some context' →
      context'.phase.isLive → ∃ old, s.contexts d = some old ∧ old.phase.isLive ∧
        old.contextPtr = context'.contextPtr := by
    intro d context' hd hlive'
    by_cases hdc : d = c
    · subst hdc
      simp only [State.setPhase, Function.update_self, Option.some.injEq] at hd
      subst hd
      exact ⟨context, hc, hlive hlive', rfl⟩
    · simp only [State.setPhase, Function.update_of_ne hdc] at hd
      exact ⟨context', hd, hlive', rfl⟩
  refine ⟨h.nodup, fun d context' hd hl => ?_, fun d d' context₁ context₂ hd hl hd' hl' hp => ?_⟩
  · obtain ⟨old, hold, hlold, hptr⟩ := hold d context' hd hl
    exact hptr ▸ h.allocated d old hold hlold
  · obtain ⟨old₁, h₁, hl₁, hp₁⟩ := hold d context₁ hd hl
    obtain ⟨old₂, h₂, hl₂, hp₂⟩ := hold d' context₂ hd' hl'
    exact h.distinct d d' old₁ old₂ h₁ hl₁ h₂ hl₂ (hp₁.trans (hp.trans hp₂.symm))

theorem Addresses.create (h : Addresses s) {c : Ref} {p : Pointer} (hp : p ∉ s.allocated) :
    Addresses { s with
      contexts := Function.update s.contexts c (some ⟨p, .created⟩)
      allocated := p :: s.allocated } := by
  refine ⟨List.nodup_cons.2 ⟨hp, h.nodup⟩, fun d context hd hl => ?_,
    fun d d' context context' hd hl hd' hl' hptr => ?_⟩
  · by_cases hdc : d = c
    · subst hdc
      simp only [Function.update_self, Option.some.injEq] at hd
      subst hd
      exact List.mem_cons_self
    · simp only [Function.update_of_ne hdc] at hd
      exact List.mem_cons_of_mem p (h.allocated d context hd hl)
  · -- nothing else lives at the new address
    have hnew : ∀ e context, e ≠ c → Function.update s.contexts c (some ⟨p, .created⟩) e = some context →
        context.phase.isLive → context.contextPtr ≠ p := by
      intro e context he hctx hl hptr
      rw [Function.update_of_ne he] at hctx
      exact hp (hptr ▸ h.allocated e context hctx hl)
    by_cases hdc : d = c <;> by_cases hdc' : d' = c
    · exact hdc.trans hdc'.symm
    · subst hdc
      simp only [Function.update_self, Option.some.injEq] at hd
      subst hd
      exact (hnew d' context' hdc' hd' hl' hptr.symm).elim
    · subst hdc'
      simp only [Function.update_self, Option.some.injEq] at hd'
      subst hd'
      exact (hnew d context hdc hd hl hptr).elim
    · simp only [Function.update_of_ne hdc, Function.update_of_ne hdc'] at hd hd'
      exact h.distinct d d' context context' hd hl hd' hl' hptr

theorem Addresses.release (h : Addresses s) {c : Ref} {p : Pointer}
    (hc : s.contexts c = some ⟨p, .closing⟩) :
    Addresses { s.setPhase c ⟨p, .closing⟩ .released with allocated := s.allocated.erase p } := by
  have hset : Addresses (s.setPhase c ⟨p, .closing⟩ .released) :=
    h.setPhase hc (by simp [Phase.isLive])
  refine ⟨h.nodup.erase p, fun d context hd hl => ?_, hset.distinct⟩
  have hne : d ≠ c := by
    rintro rfl
    simp only [State.setPhase, Function.update_self, Option.some.injEq] at hd
    subst hd
    simp [Phase.isLive] at hl
  rw [h.nodup.mem_erase_iff]
  simp only [State.setPhase, Function.update_of_ne hne] at hd
  exact ⟨fun hptr => hne (h.distinct d c context _ hd hl hc rfl hptr), h.allocated d context hd hl⟩

/-- What a step does, by the context it is about. -/
theorem step_cases {a : Action Ref} (hs : step s a = some s') :
    (∃ c p, a = .create c p ∧ s.contexts c = none ∧ p ∉ s.allocated ∧
      s' = { s with
        contexts := Function.update s.contexts c (some ⟨p, .created⟩)
        allocated := p :: s.allocated }) ∨
    (∃ c p, a = .put c ∧ s.contexts c = some ⟨p, .created⟩ ∧
      s' = { s.setPhase c ⟨p, .created⟩ .opened with
        sContextMap := Function.update s.sContextMap p (some c) }) ∨
    (∃ c p, a = .startClose c ∧ s.contexts c = some ⟨p, .opened⟩ ∧
      s' = s.setPhase c ⟨p, .opened⟩ .closing) ∨
    (∃ c p, a = .release c ∧ s.contexts c = some ⟨p, .closing⟩ ∧
      s' = { s.setPhase c ⟨p, .closing⟩ .released with allocated := s.allocated.erase p }) ∨
    (∃ c p, a = .remove c ∧ s.contexts c = some ⟨p, .released⟩ ∧
      s' = { s.setPhase c ⟨p, .released⟩ .closed with
        sContextMap := Function.update s.sContextMap p none }) := by
  cases a with
  | create c p =>
    simp only [step] at hs
    split_ifs at hs with h
    exact Or.inl ⟨c, p, rfl, h.1, h.2, (Option.some.inj hs).symm⟩
  | put c =>
    simp only [step] at hs
    split at hs
    next p hc => exact Or.inr (Or.inl ⟨c, p, rfl, hc, (Option.some.inj hs).symm⟩)
    next => simp at hs
  | startClose c =>
    simp only [step] at hs
    split at hs
    next p hc => exact Or.inr (Or.inr (Or.inl ⟨c, p, rfl, hc, (Option.some.inj hs).symm⟩))
    next => simp at hs
  | release c =>
    simp only [step] at hs
    split at hs
    next p hc => exact Or.inr (Or.inr (Or.inr (Or.inl ⟨c, p, rfl, hc, (Option.some.inj hs).symm⟩)))
    next => simp at hs
  | remove c =>
    simp only [step] at hs
    split at hs
    next p hc => exact Or.inr (Or.inr (Or.inr (Or.inr ⟨c, p, rfl, hc, (Option.some.inj hs).symm⟩)))
    next => simp at hs

theorem contexts_of_step {a : Action Ref} (hs : step s a = some s') {d : Ref} (hd : d ≠ a.context) :
    s'.contexts d = s.contexts d := by
  rcases step_cases hs with ⟨c, p, rfl, -, -, rfl⟩ | ⟨c, p, rfl, -, rfl⟩ | ⟨c, p, rfl, -, rfl⟩ |
    ⟨c, p, rfl, -, rfl⟩ | ⟨c, p, rfl, -, rfl⟩
  all_goals exact Function.update_of_ne hd _ _

theorem Addresses.step {a : Action Ref} (h : Addresses s) (hs : step s a = some s') :
    Addresses s' := by
  rcases step_cases hs with ⟨c, p, -, -, hp, rfl⟩ | ⟨c, p, -, hc, rfl⟩ | ⟨c, p, -, hc, rfl⟩ |
    ⟨c, p, -, hc, rfl⟩ | ⟨c, p, -, hc, rfl⟩
  · exact h.create hp
  · have hset : Addresses (s.setPhase c ⟨p, .created⟩ .opened) :=
      h.setPhase hc (by simp [Phase.isLive])
    exact ⟨hset.nodup, hset.allocated, hset.distinct⟩
  · exact h.setPhase hc (by simp [Phase.isLive])
  · exact h.release hc
  · have hset : Addresses (s.setPhase c ⟨p, .released⟩ .closed) :=
      h.setPhase hc (by simp [Phase.isLive])
    exact ⟨hset.nodup, hset.allocated, hset.distinct⟩

/-! ## Where the map finds every open context -/

/-- An open context after a step that only moved another one on, or closed it. -/
theorem opened_of_setPhase {c d : Ref} {context : Context} {phase : Phase} {p : Pointer}
    (hphase : phase ≠ .opened) (hd : (s.setPhase c context phase).contexts d = some ⟨p, .opened⟩) :
    s.contexts d = some ⟨p, .opened⟩ := by
  by_cases hdc : d = c
  · subst hdc
    simp only [State.setPhase, Function.update_self, Option.some.injEq, Context.mk.injEq] at hd
    exact (hphase hd.2).elim
  · simpa only [State.setPhase, Function.update_of_ne hdc] using hd

/-- An open context is found after a step if it was before, and its key is not removed. -/
theorem found_of_step {a : Action Ref} (haddr : Addresses s) (hs : step s a = some s') {d : Ref}
    {q : Pointer} (hok : ∀ c, a = .remove c → s.contexts c = some ⟨q, .released⟩ →
      s.contexts d ≠ some ⟨q, .opened⟩)
    (hfound : s.contexts d = some ⟨q, .opened⟩ → s.sContextMap q = some d)
    (hd : s'.contexts d = some ⟨q, .opened⟩) : s'.sContextMap q = some d := by
  rcases step_cases hs with ⟨c, p, rfl, hnone, -, rfl⟩ | ⟨c, p, rfl, hc, rfl⟩ | ⟨c, p, rfl, hc, rfl⟩ |
    ⟨c, p, rfl, hc, rfl⟩ | ⟨c, p, rfl, hc, rfl⟩
  · by_cases hdc : d = c
    · simp [hdc] at hd
    · simp only [Function.update_of_ne hdc] at hd
      exact hfound hd
  · by_cases hdc : d = c
    · subst hdc
      simp only [State.setPhase, Function.update_self, Option.some.injEq, Context.mk.injEq] at hd
      obtain rfl := hd.1
      simp
    · -- another open context has another address
      simp only [State.setPhase, Function.update_of_ne hdc] at hd
      have hne : q ≠ p := fun hqp => hdc (haddr.distinct d c _ _ hd rfl hc rfl hqp)
      show Function.update s.sContextMap p (some c) q = some d
      rw [Function.update_of_ne hne]
      exact hfound hd
  · exact hfound (opened_of_setPhase (by simp) hd)
  · exact hfound (opened_of_setPhase (by simp) hd)
  · have hopen := opened_of_setPhase (by simp) hd
    have hne : q ≠ p := by
      rintro rfl
      exact hok c rfl hc hopen
    show Function.update s.sContextMap p none q = some d
    rw [Function.update_of_ne hne]
    exact hfound hopen

theorem Registered.step {a : Action Ref} (h : Registered s) (haddr : Addresses s)
    (hok : StepOk s a) (hs : step s a = some s') : Registered s' := by
  intro d q hd
  refine found_of_step haddr hs (fun c hc hrel => ?_) (h d q) hd
  subst hc
  exact hok q hrel d

/-- **The context registry always finds every open context**, in every run of such steps. -/
theorem registered {s : State Ref} (h : Reaches step StepOk {} s) : Registered s := by
  have hinv : Addresses s ∧ Registered s :=
    h.invariant (fun s => Addresses s ∧ Registered s) ⟨addresses_start, fun c p hc => by simp at hc⟩
      fun _ _ _ hi hok hs => ⟨hi.1.step hs, hi.2.step hi.1 hok hs⟩
  exact hinv.2

/-- Where every open context is found, it is found after a step if and only if the step is such a
one. -/
theorem registered_iff {a : Action Ref} (h : Registered s) (haddr : Addresses s)
    (hs : step s a = some s') : Registered s' ↔ StepOk s a := by
  refine ⟨fun hreg => ?_, fun hok => h.step haddr hok hs⟩
  cases a with
  | remove c =>
    rintro p hc d hd
    simp only [step, hc, Option.some.injEq] at hs
    subst hs
    have hdc : d ≠ c := by
      rintro rfl
      simp [hc] at hd
    have hget := hreg d p (by simpa only [State.setPhase, Function.update_of_ne hdc] using hd)
    simp at hget
  | _ => trivial

/-! ## Runs -/

/-- A context is created at the address of a closed one. -/
def reusedAfterClose : List (Action Nat) :=
  [.create 0 7, .put 0, .startClose 0, .release 0, .remove 0, .create 1 7, .put 1]

theorem registered_reusedAfterClose :
    Meets step StepOk {} reusedAfterClose ∧
    ∃ s, run step {} reusedAfterClose = some s ∧ s.contexts 1 = some ⟨7, .opened⟩ ∧
      s.sContextMap 7 = some 1 ∧ Registered s := by
  have hmeets : Meets step StepOk ({} : State Nat) reusedAfterClose := by
    refine ⟨trivial, trivial, trivial, trivial, ?_, trivial, trivial, trivial⟩
    intro p hp d hd
    by_cases hd0 : d = 0
    · subst hd0
      exact absurd (hp.symm.trans hd) (by simp)
    · simp [State.setPhase, Function.update_of_ne hd0] at hd
  have hrun : ∃ s, run step {} reusedAfterClose = some s ∧ s.contexts 1 = some ⟨7, .opened⟩ :=
    ⟨_, rfl, rfl⟩
  obtain ⟨s, hs, hopen⟩ := hrun
  have hreg := registered (reaches_of_run hs hmeets)
  exact ⟨hmeets, s, hs, hopen, hreg 1 7 hopen, hreg⟩

/-- **An open context that is not found**: it was created and put while the close of the one that had
its address had still to remove the key. -/
theorem missing : ¬ ∀ s : State Nat, Reaches step (fun _ _ => True) {} s → Registered s := by
  intro h
  have hrun : ∃ s : State Nat, run step {} [.create 0 7, .put 0, .startClose 0, .release 0,
      .create 1 7, .put 1, .remove 0] = some s ∧ s.contexts 1 = some ⟨7, .opened⟩ ∧
        s.sContextMap 7 = none := ⟨_, rfl, rfl, rfl⟩
  obtain ⟨s, hs, hopen, hnone⟩ := hrun
  have hget := h s (reaches_of_run hs (meets_true _ _)) 1 7 hopen
  rw [hnone] at hget
  exact absurd hget (by simp)

end HybridStack.QuickJs.ContextMap
