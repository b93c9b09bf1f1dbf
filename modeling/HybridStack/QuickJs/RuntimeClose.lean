import HybridStack.QuickJs.ContextMap
import Mathlib.Data.List.Perm.Basic

/-!
# `QuickJS.close`

The event takes the contexts to close from the map that all runtimes share, by `size` and then
`toArray`. Between any two of its steps other threads create and close contexts of other runtimes.
What plugins do when their context is closed is left out. As in `ContextMap`, the address of a
context may be free once `_releaseContext` has dropped its reference.

| here | there |
| --- | --- |
| `Action.enter` | QuickJS.java:67-69: the guard |
| `Action.size`, `Action.toArray` | QuickJS.java:70-71 |
| `Action.visit` | QuickJS.java:72-76: one entry of `values` |
| `Action.releaseContext`, `Action.removeContext` | the rest of `context.close()`, JSContext.java:81-82 |
| `Action.releaseRuntime`, `Action.setReleased` | QuickJS.java:77-78 |
| `Action.contexts` | a step of any context's constructor or `close`, by `ContextMap.step` |

- **`close_completes`**: in every run in which the map has the same size at both reads (or none at
  the first).
- `stops_short`: otherwise the event never comes to `_releaseRuntime`.
- `stopped`: a context of another runtime is removed between the two.
-/

namespace HybridStack.QuickJs.RuntimeClose

open Transition ContextMap

inductive Phase (Ref : Type)
  /-- No close event runs. -/
  | idle
  /-- The runtime is not released. -/
  | entered
  /-- `values = new JSContext[n]`. -/
  | sized (n : Nat)
  /-- The entries of `values` still to come. -/
  | visiting (values : List (Option Ref))
  /-- In the close of a context, before `_releaseContext`. -/
  | closing (context : Ref) (values : List (Option Ref))
  /-- In the close of a context, before its key is removed. -/
  | removing (context : Ref) (values : List (Option Ref))
  /-- `_releaseRuntime` has returned. -/
  | freed
  /-- A null entry was dereferenced: the event is over. -/
  | stopped
  deriving DecidableEq, Repr

/-- The contexts of all runtimes, with the keys of `sContextMap`, and the runtime that closes. -/
structure State (Ref : Type) where
  map : ContextMap.State Ref := {}
  keys : List Pointer := []
  phase : Phase Ref := .idle
  released : Bool := false
  releaseRuntimeCalls : Nat := 0

inductive Action (Ref : Type)
  | contexts (a : ContextMap.Action Ref)
  | enter
  | size
  /-- `order` is the order in which the map has its keys. -/
  | toArray (order : List Pointer)
  | visit
  | releaseContext
  | removeContext
  | releaseRuntime
  | setReleased
  deriving DecidableEq, Repr

/-- The actions of the close event. -/
def Action.isClose {Ref : Type} : Action Ref → Bool
  | .contexts _ => false
  | _ => true

variable {Ref : Type}

/-- The array after `sContextMap.values().toArray(values)`: one that is too short stays as it was. -/
def State.values (s : State Ref) (n : Nat) (order : List Pointer) : List (Option Ref) :=
  if order.length ≤ n then
    order.map s.map.sContextMap ++ List.replicate (n - order.length) none
  else List.replicate n none

def keysAfter (map : ContextMap.State Ref) (keys : List Pointer) :
    ContextMap.Action Ref → List Pointer
  | .put c =>
    match map.contexts c with
    | some context => keys.insert context.contextPtr
    | none => keys
  | .remove c =>
    match map.contexts c with
    | some context => keys.erase context.contextPtr
    | none => keys
  | _ => keys

variable [DecidableEq Ref]

/-- A step of a context, on the map. -/
def State.onMap (s : State Ref) (a : ContextMap.Action Ref) : Option (State Ref) :=
  (ContextMap.step s.map a).map fun map => { s with map, keys := keysAfter s.map s.keys a }

/-- `own c` says that `c.getQuickJS()` is the runtime that closes. -/
def step (own : Ref → Bool) (s : State Ref) : Action Ref → Option (State Ref)
  | .contexts a => s.onMap a
  | .enter =>
    match s.phase with
    | .idle => some (if s.released then s else { s with phase := .entered })
    | _ => none
  | .size =>
    match s.phase with
    | .entered => some { s with phase := .sized s.keys.length }
    | _ => none
  | .toArray order =>
    match s.phase with
    | .sized n =>
      if order.isPerm s.keys then some { s with phase := .visiting (s.values n order) } else none
    | _ => none
  | .visit =>
    match s.phase with
    | .visiting (none :: _) => some { s with phase := .stopped }
    | .visiting (some c :: values) =>
      if own c then
        match s.onMap (.startClose c) with
        | some s' => some { s' with phase := .closing c values }
        | none => some { s with phase := .visiting values }
      else some { s with phase := .visiting values }
    | _ => none
  | .releaseContext =>
    match s.phase with
    | .closing c values =>
      (s.onMap (.release c)).map fun s' => { s' with phase := .removing c values }
    | _ => none
  | .removeContext =>
    match s.phase with
    | .removing c values =>
      (s.onMap (.remove c)).map fun s' => { s' with phase := .visiting values }
    | _ => none
  | .releaseRuntime =>
    match s.phase with
    | .visiting [] =>
      some { s with phase := .freed, releaseRuntimeCalls := s.releaseRuntimeCalls + 1 }
    | _ => none
  | .setReleased =>
    match s.phase with
    | .freed => some { s with phase := .idle, released := true }
    | _ => none

/-- The runtime's own contexts are at rest from the beginning of the event. -/
def Alone (own : Ref → Bool) (s : State Ref) : Action Ref → Prop
  | .enter => ∀ c context, own c → s.map.contexts c = some context →
      context.phase = .opened ∨ context.phase = .closed
  | .contexts a => own a.context → s.phase = .idle ∧ s.released = false
  | _ => True

/-- The map has the same size at both reads, or none at the first, and no close that comes to remove
its key removes that of an open context of the runtime. -/
def StepOk (own : Ref → Bool) (s : State Ref) : Action Ref → Prop
  | .toArray _ => ∀ n, s.phase = .sized n → s.keys.length = n ∨ n = 0
  | .contexts (.remove c) => ∀ p, s.map.contexts c = some ⟨p, .released⟩ →
      ∀ d, own d → s.map.contexts d ≠ some ⟨p, .opened⟩
  | _ => True

/-! ## The map and its keys -/

variable {own : Ref → Bool} {s s' : State Ref}

structure Shared (own : Ref → Bool) (map : ContextMap.State Ref) (keys : List Pointer) : Prop where
  addresses : Addresses map
  nodup : keys.Nodup
  mem_keys : ∀ p, p ∈ keys ↔ (map.sContextMap p).isSome
  found : ∀ c p, own c → map.contexts c = some ⟨p, .opened⟩ → map.sContextMap p = some c

omit [DecidableEq Ref] in
theorem shared_start : Shared own {} [] where
  addresses := addresses_start
  nodup := List.nodup_nil
  mem_keys p := by simp
  found c p _ h := by simp at h

theorem onMap_eq_some {a : ContextMap.Action Ref} : s.onMap a = some s' ↔
    ∃ map, ContextMap.step s.map a = some map ∧
      s' = { s with map, keys := keysAfter s.map s.keys a } := by
  simp only [State.onMap, Option.map_eq_some_iff, eq_comm (a := s')]

/-- What a step does: the inversion of `step`. -/
inductive Takes (own : Ref → Bool) (s : State Ref) : Action Ref → State Ref → Prop
  | contexts {a : ContextMap.Action Ref} {map : ContextMap.State Ref} :
    ContextMap.step s.map a = some map →
    Takes own s (.contexts a) { s with map, keys := keysAfter s.map s.keys a }
  /-- The runtime is released already. -/
  | stay : s.phase = .idle → s.released = true → Takes own s .enter s
  | enter : s.phase = .idle → s.released = false → Takes own s .enter { s with phase := .entered }
  | size : s.phase = .entered → Takes own s .size { s with phase := .sized s.keys.length }
  | toArray {n : Nat} {order : List Pointer} : s.phase = .sized n → order.Perm s.keys →
    Takes own s (.toArray order) { s with phase := .visiting (s.values n order) }
  | null {values : List (Option Ref)} : s.phase = .visiting (none :: values) →
    Takes own s .visit { s with phase := .stopped }
  | startClose {c : Ref} {values : List (Option Ref)} {map : ContextMap.State Ref} :
    s.phase = .visiting (some c :: values) → own c →
    ContextMap.step s.map (.startClose c) = some map →
    Takes own s .visit { s with map, phase := .closing c values }
  /-- A context that is closed already. -/
  | closed {c : Ref} {values : List (Option Ref)} : s.phase = .visiting (some c :: values) → own c →
    ContextMap.step s.map (.startClose c) = none →
    Takes own s .visit { s with phase := .visiting values }
  | skip {c : Ref} {values : List (Option Ref)} : s.phase = .visiting (some c :: values) → ¬ own c →
    Takes own s .visit { s with phase := .visiting values }
  | releaseContext {c : Ref} {values : List (Option Ref)} {map : ContextMap.State Ref} :
    s.phase = .closing c values → ContextMap.step s.map (.release c) = some map →
    Takes own s .releaseContext { s with map, phase := .removing c values }
  | removeContext {c : Ref} {values : List (Option Ref)} {map : ContextMap.State Ref} :
    s.phase = .removing c values → ContextMap.step s.map (.remove c) = some map →
    Takes own s .removeContext
      { s with map, keys := keysAfter s.map s.keys (.remove c), phase := .visiting values }
  | releaseRuntime : s.phase = .visiting [] → Takes own s .releaseRuntime
      { s with phase := .freed, releaseRuntimeCalls := s.releaseRuntimeCalls + 1 }
  | setReleased : s.phase = .freed →
    Takes own s .setReleased { s with phase := .idle, released := true }

theorem takes_of_step {a : Action Ref} (hs : step own s a = some s') : Takes own s a s' := by
  cases a with
  | contexts a =>
    obtain ⟨map, hmap, rfl⟩ := onMap_eq_some.1 hs
    exact .contexts hmap
  | enter =>
    simp only [step] at hs
    split at hs
    next hv =>
      obtain rfl := Option.some.inj hs
      split_ifs with hrel
      · exact .stay hv hrel
      · exact .enter hv (by simpa using hrel)
    next => simp at hs
  | toArray order =>
    simp only [step] at hs
    split at hs
    next n hv =>
      split_ifs at hs with hperm
      obtain rfl := Option.some.inj hs
      exact .toArray hv (List.isPerm_iff.1 hperm)
    next => simp at hs
  | visit =>
    simp only [step] at hs
    split at hs
    next values hv => exact Option.some.inj hs ▸ .null hv
    next c values hv =>
      split_ifs at hs with hc
      · split at hs
        next t ht =>
          obtain rfl := Option.some.inj hs
          obtain ⟨map, hmap, rfl⟩ := onMap_eq_some.1 ht
          exact .startClose hv hc hmap
        next hnone => exact Option.some.inj hs ▸ .closed hv hc (by simpa [State.onMap] using hnone)
      · exact Option.some.inj hs ▸ .skip hv hc
    next => simp at hs
  | releaseContext =>
    simp only [step] at hs
    split at hs
    next c values hv =>
      obtain ⟨t, ht, rfl⟩ := Option.map_eq_some_iff.1 hs
      obtain ⟨map, hmap, rfl⟩ := onMap_eq_some.1 ht
      exact .releaseContext hv hmap
    next => simp at hs
  | removeContext =>
    simp only [step] at hs
    split at hs
    next c values hv =>
      obtain ⟨t, ht, rfl⟩ := Option.map_eq_some_iff.1 hs
      obtain ⟨map, hmap, rfl⟩ := onMap_eq_some.1 ht
      exact .removeContext hv hmap
    next => simp at hs
  | size =>
    simp only [step] at hs
    split at hs
    next hv => exact Option.some.inj hs ▸ .size hv
    next => simp at hs
  | releaseRuntime =>
    simp only [step] at hs
    split at hs
    next hv => exact Option.some.inj hs ▸ .releaseRuntime hv
    next => simp at hs
  | setReleased =>
    simp only [step] at hs
    split at hs
    next hv => exact Option.some.inj hs ▸ .setReleased hv
    next => simp at hs

/-- The keys after a step are those of the map after it. -/
theorem keys_of_step {map map' : ContextMap.State Ref} {keys : List Pointer}
    {a : ContextMap.Action Ref} (hnodup : keys.Nodup)
    (hmem : ∀ p, p ∈ keys ↔ (map.sContextMap p).isSome) (hs : ContextMap.step map a = some map') :
    (keysAfter map keys a).Nodup ∧
      ∀ p, p ∈ keysAfter map keys a ↔ (map'.sContextMap p).isSome := by
  rcases step_cases hs with ⟨c, q, rfl, -, -, rfl⟩ | ⟨c, q, rfl, hc, rfl⟩ | ⟨c, q, rfl, -, rfl⟩ |
    ⟨c, q, rfl, -, rfl⟩ | ⟨c, q, rfl, hc, rfl⟩
  · exact ⟨hnodup, hmem⟩
  · simp only [keysAfter, hc]
    refine ⟨hnodup.insert, fun p => ?_⟩
    by_cases hp : p = q
    · simp [hp]
    · simp [List.mem_insert_iff, hp, hmem p]
  · exact ⟨hnodup, hmem⟩
  · exact ⟨hnodup, hmem⟩
  · simp only [keysAfter, hc]
    refine ⟨hnodup.erase q, fun p => ?_⟩
    rw [hnodup.mem_erase_iff]
    by_cases hp : p = q
    · simp [hp]
    · simp [hp, hmem p]

theorem Shared.step {map map' : ContextMap.State Ref} {keys : List Pointer}
    {a : ContextMap.Action Ref} (h : Shared own map keys)
    (hok : ∀ c p, a = .remove c → map.contexts c = some ⟨p, .released⟩ →
      ∀ d, own d → map.contexts d ≠ some ⟨p, .opened⟩)
    (hs : ContextMap.step map a = some map') : Shared own map' (keysAfter map keys a) := by
  obtain ⟨hnodup, hmem⟩ := keys_of_step h.nodup h.mem_keys hs
  refine ⟨h.addresses.step hs, hnodup, hmem, fun d p hd hopen => ?_⟩
  exact found_of_step h.addresses hs (fun c hc hrel => hok c p hc hrel d hd)
    (fun hold => h.found d p hd hold) hopen

/-! ## The contexts of the runtime -/

/-- The runtime's own contexts. -/
def mine (own : Ref → Bool) (map : ContextMap.State Ref) (c : Ref) : Option Context :=
  if own c then map.contexts c else none

omit [DecidableEq Ref] in
theorem mine_eq_some {map : ContextMap.State Ref} {c : Ref} {context : Context} :
    mine own map c = some context ↔ own c ∧ map.contexts c = some context := by
  unfold mine
  split_ifs with h <;> simp [h]

/-- A step of another runtime's context leaves the runtime's own. -/
theorem mine_of_other {map map' : ContextMap.State Ref} {a : ContextMap.Action Ref}
    (ha : ¬ own a.context) (hs : ContextMap.step map a = some map') :
    mine own map' = mine own map := by
  funext d
  unfold mine
  split_ifs with hd
  · refine contexts_of_step hs ?_
    rintro rfl
    exact ha hd
  · rfl

/-- One of the runtime's own contexts moves on. -/
theorem mine_of_update {map map' : ContextMap.State Ref} {c : Ref} {context : Context}
    (hc : own c) (h : map'.contexts = Function.update map.contexts c (some context)) :
    mine own map' = Function.update (mine own map) c (some context) := by
  funext d
  by_cases hd : d = c
  · subst hd
    simp [mine, hc, h]
  · simp [mine, h, Function.update_of_ne hd]

theorem startClose_eq {map map' : ContextMap.State Ref} {c : Ref}
    (hs : ContextMap.step map (.startClose c) = some map') :
    ∃ p, map.contexts c = some ⟨p, .opened⟩ ∧
      map'.contexts = Function.update map.contexts c (some ⟨p, .closing⟩) := by
  rcases step_cases hs with ⟨_, _, h, -⟩ | ⟨_, _, h, -⟩ | ⟨_, p, h, hc, rfl⟩ | ⟨_, _, h, -⟩ |
    ⟨_, _, h, -⟩ <;> cases h
  exact ⟨p, hc, rfl⟩

theorem release_eq {map map' : ContextMap.State Ref} {c : Ref}
    (hs : ContextMap.step map (.release c) = some map') :
    ∃ p, map.contexts c = some ⟨p, .closing⟩ ∧
      map'.contexts = Function.update map.contexts c (some ⟨p, .released⟩) := by
  rcases step_cases hs with ⟨_, _, h, -⟩ | ⟨_, _, h, -⟩ | ⟨_, _, h, -⟩ | ⟨_, p, h, hc, rfl⟩ |
    ⟨_, _, h, -⟩ <;> cases h
  exact ⟨p, hc, rfl⟩

theorem remove_eq {map map' : ContextMap.State Ref} {c : Ref}
    (hs : ContextMap.step map (.remove c) = some map') :
    ∃ p, map.contexts c = some ⟨p, .released⟩ ∧
      map'.contexts = Function.update map.contexts c (some ⟨p, .closed⟩) := by
  rcases step_cases hs with ⟨_, _, h, -⟩ | ⟨_, _, h, -⟩ | ⟨_, _, h, -⟩ | ⟨_, _, h, -⟩ |
    ⟨_, p, h, hc, rfl⟩ <;> cases h
  exact ⟨p, hc, rfl⟩

/-! ## What holds in each phase -/

/-- A context is closed, or is open and still to be visited. -/
def Waits (contexts : Ref → Option Context) (values : List (Option Ref)) (d : Ref) : Prop :=
  ∀ context, contexts d = some context →
    context.phase = .closed ∨ context.phase = .opened ∧ some d ∈ values

/-- What holds of the runtime's own contexts, of `_releaseRuntime` and of `released`. -/
def PhaseOk (contexts : Ref → Option Context) (calls : Nat) (released : Bool) : Phase Ref → Prop
  | .idle => calls = 0 ∧ released = false ∨
      calls = 1 ∧ released = true ∧ ∀ d, Waits contexts [] d
  | .entered => (calls = 0 ∧ released = false) ∧
      ∀ d context, contexts d = some context → context.phase = .opened ∨ context.phase = .closed
  | .sized n => (calls = 0 ∧ released = false) ∧
      (∀ d context, contexts d = some context → context.phase = .opened ∨ context.phase = .closed) ∧
      (n = 0 → ∀ d p, contexts d ≠ some ⟨p, .opened⟩)
  | .visiting values => (calls = 0 ∧ released = false) ∧ none ∉ values ∧
      ∀ d, Waits contexts values d
  | .closing c values => (calls = 0 ∧ released = false) ∧ none ∉ values ∧
      (∃ p, contexts c = some ⟨p, .closing⟩) ∧ ∀ d, d ≠ c → Waits contexts values d
  | .removing c values => (calls = 0 ∧ released = false) ∧ none ∉ values ∧
      (∃ p, contexts c = some ⟨p, .released⟩ ∧ ∀ d, contexts d ≠ some ⟨p, .opened⟩) ∧
      ∀ d, d ≠ c → Waits contexts values d
  | .freed => calls = 1 ∧ released = false ∧ ∀ d, Waits contexts [] d
  | .stopped => False

structure Inv (own : Ref → Bool) (s : State Ref) : Prop where
  shared : Shared own s.map s.keys
  phase : PhaseOk (mine own s.map) s.releaseRuntimeCalls s.released s.phase

omit [DecidableEq Ref] in
theorem inv_start : Inv own ({} : State Ref) := ⟨shared_start, Or.inl ⟨rfl, rfl⟩⟩

theorem Waits.update {contexts : Ref → Option Context} {values : List (Option Ref)} {c d : Ref}
    {x : Option Context} (hd : d ≠ c) :
    Waits (Function.update contexts c x) values d ↔ Waits contexts values d := by
  simp only [Waits, Function.update_of_ne hd]

omit [DecidableEq Ref] in
theorem Waits.of_cons {contexts : Ref → Option Context} {values : List (Option Ref)} {c d : Ref}
    (hd : d ≠ c) (h : Waits contexts (some c :: values) d) : Waits contexts values d := by
  intro context hc
  refine (h context hc).imp_right fun hopen => ⟨hopen.1, ?_⟩
  simpa [hd] using hopen.2

theorem Inv.contexts {a : ContextMap.Action Ref} {map : ContextMap.State Ref} (h : Inv own s)
    (halone : Alone own s (.contexts a)) (hok : StepOk own s (.contexts a))
    (hmap : ContextMap.step s.map a = some map) :
    Inv own { s with map, keys := keysAfter s.map s.keys a } := by
  refine ⟨h.shared.step ?_ hmap, ?_⟩
  · rintro c p rfl hrel
    exact hok p hrel
  · by_cases ha : own a.context
    · obtain ⟨hidle, hrel⟩ := halone ha
      have hphase := h.phase
      simp only [hidle, hrel, PhaseOk] at hphase ⊢
      simpa using hphase
    · simpa only [mine_of_other ha hmap] using h.phase

omit [DecidableEq Ref] in
theorem Inv.enter (h : Inv own s) (halone : Alone own s .enter) (hidle : s.phase = .idle)
    (hrel : s.released = false) : Inv own { s with phase := .entered } := by
  have hphase := h.phase
  rw [hidle] at hphase
  have hfresh : s.releaseRuntimeCalls = 0 ∧ s.released = false :=
    hphase.resolve_right fun hdone => by simp [hrel] at hdone
  refine ⟨h.shared, hfresh, fun d context hd => ?_⟩
  obtain ⟨hown, hctx⟩ := mine_eq_some.1 hd
  exact halone d context hown hctx

omit [DecidableEq Ref] in
theorem Inv.size (h : Inv own s) (hentered : s.phase = .entered) :
    Inv own { s with phase := .sized s.keys.length } := by
  have hphase := h.phase
  rw [hentered] at hphase
  refine ⟨h.shared, hphase.1, hphase.2, fun hzero d p hd => ?_⟩
  obtain ⟨hown, hctx⟩ := mine_eq_some.1 hd
  have hmem : p ∈ s.keys := (h.shared.mem_keys p).2 (by simp [h.shared.found d p hown hctx])
  simp [List.length_eq_zero_iff.1 hzero] at hmem

omit [DecidableEq Ref] in
/-- The array has no null entry if and only if the size was right, or the array is empty. -/
theorem none_notMem_values {n : Nat} {order : List Pointer}
    (hsome : ∀ p ∈ order, (s.map.sContextMap p).isSome) :
    none ∉ s.values n order ↔ order.length = n ∨ n = 0 := by
  unfold State.values
  split_ifs with hle
  · have hmap : none ∉ order.map s.map.sContextMap := by
      simp only [List.mem_map, not_exists, not_and]
      intro p hp hnone
      simpa [hnone] using hsome p hp
    simp only [List.mem_append, hmap, false_or, List.mem_replicate, and_true]
    omega
  · simp only [List.mem_replicate, and_true]
    omega

omit [DecidableEq Ref] in
/-- The keys that `toArray` goes through lead to contexts. -/
theorem Shared.isSome_of_perm {map : ContextMap.State Ref} {keys order : List Pointer}
    (h : Shared own map keys) (hperm : order.Perm keys) (p : Pointer) (hp : p ∈ order) :
    (map.sContextMap p).isSome :=
  (h.mem_keys p).1 (hperm.mem_iff.1 hp)

omit [DecidableEq Ref] in
theorem Inv.toArray {n : Nat} {order : List Pointer} (h : Inv own s)
    (hok : StepOk own s (.toArray order)) (hsized : s.phase = .sized n)
    (hperm : order.Perm s.keys) : Inv own { s with phase := .visiting (s.values n order) } := by
  have hlen : order.length = n ∨ n = 0 := hperm.length_eq ▸ hok n hsized
  have hphase := h.phase
  rw [hsized] at hphase
  refine ⟨h.shared, hphase.1, (none_notMem_values (h.shared.isSome_of_perm hperm)).2 hlen,
    fun d context hd => ?_⟩
  obtain ⟨hown, hctx⟩ := mine_eq_some.1 hd
  obtain ⟨p, phase⟩ := context
  refine (hphase.2.1 d _ hd).symm.imp_right fun hopen => ⟨hopen, ?_⟩
  obtain rfl : phase = .opened := hopen
  have hn : n ≠ 0 := fun hzero => hphase.2.2 hzero d p hd
  -- the context is found under a key, so it is one of the values
  have hfound := h.shared.found d p hown hctx
  have hmem : p ∈ order := hperm.mem_iff.2 ((h.shared.mem_keys p).2 (by simp [hfound]))
  have hle : order.length ≤ n := by omega
  simp only [State.values, hle, if_true, List.mem_append]
  exact Or.inl (List.mem_map.2 ⟨p, hmem, hfound⟩)

/-- The close of a context that is open begins. -/
theorem Inv.startClose {c : Ref} {values : List (Option Ref)} {map : ContextMap.State Ref}
    (h : Inv own s) (hv : s.phase = .visiting (some c :: values)) (hc : own c)
    (hmap : ContextMap.step s.map (.startClose c) = some map) :
    Inv own { s with map, phase := .closing c values } := by
  have hphase := h.phase
  simp only [hv, PhaseOk, List.mem_cons, reduceCtorEq, false_or] at hphase
  obtain ⟨hfresh, hnone, hwaits⟩ := hphase
  obtain ⟨p, hopen, hupdate⟩ := startClose_eq hmap
  refine ⟨h.shared.step (by simp) hmap, hfresh, hnone, ?_, ?_⟩
  · exact ⟨p, by simp [mine_of_update hc hupdate]⟩
  · intro d hd
    simp only [mine_of_update hc hupdate, Waits.update hd]
    exact (hwaits d).of_cons hd

/-- An entry that needs nothing: it is none of the runtime's open contexts. -/
theorem Inv.pass {c : Ref} {values : List (Option Ref)} (h : Inv own s)
    (hv : s.phase = .visiting (some c :: values))
    (hc : ∀ p, mine own s.map c ≠ some ⟨p, .opened⟩) :
    Inv own { s with phase := .visiting values } := by
  have hphase := h.phase
  simp only [hv, PhaseOk, List.mem_cons, reduceCtorEq, false_or] at hphase
  obtain ⟨hfresh, hnone, hwaits⟩ := hphase
  refine ⟨h.shared, hfresh, hnone, fun d => ?_⟩
  by_cases hd : d = c
  · subst hd
    rintro ⟨p, phase⟩ hctx
    refine (hwaits d _ hctx).imp_right fun hopen => ?_
    obtain rfl : phase = .opened := hopen.1
    exact (hc p hctx).elim
  · exact (hwaits d).of_cons hd

theorem Inv.releaseContext {c : Ref} {values : List (Option Ref)} {map : ContextMap.State Ref}
    (h : Inv own s) (hv : s.phase = .closing c values)
    (hmap : ContextMap.step s.map (.release c) = some map) :
    Inv own { s with map, phase := .removing c values } := by
  have hphase := h.phase
  simp only [hv, PhaseOk] at hphase
  obtain ⟨hfresh, hnone, ⟨p, hp⟩, hwaits⟩ := hphase
  obtain ⟨q, hclosing, hupdate⟩ := release_eq hmap
  obtain ⟨hc, hctx⟩ := mine_eq_some.1 hp
  refine ⟨h.shared.step (by simp) hmap, hfresh, hnone, ⟨q, ?_, fun d => ?_⟩, fun d hd => ?_⟩
  · simp [mine_of_update hc hupdate]
  · -- no other context has the address
    simp only [mine_of_update hc hupdate]
    by_cases hd : d = c
    · simp [hd]
    · rw [Function.update_of_ne hd]
      intro hopen
      exact hd (h.shared.addresses.distinct d c _ _ (mine_eq_some.1 hopen).2 rfl hclosing rfl rfl)
  · simp only [mine_of_update hc hupdate, Waits.update hd]
    exact hwaits d hd

theorem Inv.removeContext {c : Ref} {values : List (Option Ref)} {map : ContextMap.State Ref}
    (h : Inv own s) (hv : s.phase = .removing c values)
    (hmap : ContextMap.step s.map (.remove c) = some map) : Inv own
      { s with map, keys := keysAfter s.map s.keys (.remove c), phase := .visiting values } := by
  have hphase := h.phase
  simp only [hv, PhaseOk] at hphase
  obtain ⟨hfresh, hnone, ⟨p, hp, hfree⟩, hwaits⟩ := hphase
  obtain ⟨q, hreleased, hupdate⟩ := remove_eq hmap
  obtain ⟨hc, hctx⟩ := mine_eq_some.1 hp
  refine ⟨h.shared.step ?_ hmap, hfresh, hnone, fun d => ?_⟩
  · rintro c' p' hremove hrel d hd hopen
    cases hremove
    rw [hctx] at hrel
    cases hrel
    exact hfree d (mine_eq_some.2 ⟨hd, hopen⟩)
  · simp only [mine_of_update hc hupdate]
    by_cases hd : d = c
    · subst hd
      intro context hclosed
      rw [Function.update_self] at hclosed
      cases hclosed
      exact Or.inl rfl
    · exact (Waits.update hd).2 (hwaits d hd)

theorem inv_step {a : Action Ref} (h : Inv own s) (halone : Alone own s a) (hok : StepOk own s a)
    (hs : step own s a = some s') : Inv own s' := by
  have hphase := h.phase
  cases takes_of_step hs with
  | contexts hmap => exact h.contexts halone hok hmap
  | stay => exact h
  | enter hidle hrel => exact h.enter halone hidle hrel
  | size hv => exact h.size hv
  | toArray hv hperm => exact h.toArray hok hv hperm
  | null hv => simp [hv, PhaseOk] at hphase
  | startClose hv hc hmap => exact h.startClose hv hc hmap
  | closed hv hc hnone =>
    refine h.pass hv fun p hopen => ?_
    simp [ContextMap.step, (mine_eq_some.1 hopen).2] at hnone
  | skip hv hc => exact h.pass hv fun p hopen => hc (mine_eq_some.1 hopen).1
  | releaseContext hv hmap => exact h.releaseContext hv hmap
  | removeContext hv hmap => exact h.removeContext hv hmap
  | releaseRuntime hv =>
    rw [hv] at hphase
    exact ⟨h.shared, by simp [hphase.1.1], hphase.1.2, hphase.2.2⟩
  | setReleased hv =>
    rw [hv] at hphase
    exact ⟨h.shared, Or.inr ⟨hphase.1, rfl, hphase.2.2⟩⟩

/-! ## The event goes on and ends -/

/-- What is left of the event: its reads of the map, and then a bound on the number of steps. -/
def Phase.left : Phase Ref → Nat × Nat
  | .entered => (2, 0)
  | .sized n => (1, 3 * n + 3)
  | .visiting values => (1, 3 * values.length + 2)
  | .closing _ values => (1, 3 * values.length + 4)
  | .removing _ values => (1, 3 * values.length + 3)
  | .freed => (1, 1)
  | .idle | .stopped => (0, 0)

omit [DecidableEq Ref] in
theorem length_values (n : Nat) (order : List Pointer) : (s.values n order).length = n := by
  unfold State.values
  split_ifs with hle
  · simp only [List.length_append, List.length_map, List.length_replicate]
    omega
  · exact List.length_replicate

/-- Each step of an event that has begun leaves less of it. -/
theorem left_step {a : Action Ref} (ha : a.isClose) (hphase : s.phase ≠ .idle)
    (hs : step own s a = some s') :
    Prod.Lex (· < ·) (· < ·) s'.phase.left s.phase.left := by
  cases takes_of_step hs with
  | contexts => cases ha
  | stay hidle | enter hidle => exact (hphase hidle).elim
  | size hv =>
    rw [hv]
    exact Prod.Lex.left _ _ Nat.one_lt_two
  | toArray hv =>
    rw [hv]
    refine Prod.Lex.right _ ?_
    simp only [length_values]
    omega
  | null hv =>
    rw [hv]
    exact Prod.Lex.left _ _ Nat.one_pos
  | startClose hv | closed hv | skip hv =>
    rw [hv]
    refine Prod.Lex.right _ ?_
    simp only [List.length_cons]
    omega
  | releaseContext hv | removeContext hv | releaseRuntime hv =>
    rw [hv]
    exact Prod.Lex.right _ (Nat.lt_succ_self _)
  | setReleased hv =>
    rw [hv]
    exact Prod.Lex.left _ _ Nat.one_pos

/-- An event that has begun can always go on. -/
theorem Inv.goesOn (h : Inv own s) (hphase : s.phase ≠ .idle) :
    ∃ a : Action Ref, a.isClose ∧ (step own s a).isSome := by
  have hok := h.phase
  cases hv : s.phase with
  | idle => exact (hphase hv).elim
  | entered => exact ⟨.size, rfl, by simp only [step, hv, Option.isSome_some]⟩
  | sized n =>
    have hperm : s.keys.isPerm s.keys := List.isPerm_iff.2 (List.Perm.refl _)
    exact ⟨.toArray s.keys, rfl, by simp only [step, hv, hperm, if_true, Option.isSome_some]⟩
  | visiting values =>
    match values with
    | [] => exact ⟨.releaseRuntime, rfl, by simp only [step, hv, Option.isSome_some]⟩
    | none :: values => simp [hv, PhaseOk] at hok
    | some c :: values =>
      refine ⟨.visit, rfl, ?_⟩
      simp only [step, hv]
      split_ifs
      · cases s.onMap (.startClose c) <;> rfl
      · rfl
  | closing c values =>
    simp only [hv, PhaseOk] at hok
    obtain ⟨p, hp⟩ := hok.2.2.1
    have hclosing : s.map.contexts c = some ⟨p, .closing⟩ := (mine_eq_some.1 hp).2
    refine ⟨.releaseContext, rfl, ?_⟩
    simp only [step, hv, State.onMap, ContextMap.step, hclosing, Option.map_some, Option.isSome_some]
  | removing c values =>
    simp only [hv, PhaseOk] at hok
    obtain ⟨p, hp, -⟩ := hok.2.2.1
    have hreleased : s.map.contexts c = some ⟨p, .released⟩ := (mine_eq_some.1 hp).2
    refine ⟨.removeContext, rfl, ?_⟩
    simp only [step, hv, State.onMap, ContextMap.step, hreleased, Option.map_some, Option.isSome_some]
  | freed => exact ⟨.setReleased, rfl, by simp only [step, hv, Option.isSome_some]⟩
  | stopped => simp [hv, PhaseOk] at hok

/-- The steps of the event leave the contexts of other runtimes. -/
theorem Inv.others {a : Action Ref} (h : Inv own s) (ha : a.isClose) (hs : step own s a = some s')
    {c : Ref} (hc : ¬ own c) : s'.map.contexts c = s.map.contexts c := by
  have hne : ∀ {d : Ref}, own d → c ≠ d := by
    rintro d hd rfl
    exact hc hd
  have hphase := h.phase
  cases takes_of_step hs with
  | contexts => cases ha
  | startClose hv hd hmap => exact contexts_of_step hmap (hne hd)
  | releaseContext hv hmap =>
    simp only [hv, PhaseOk] at hphase
    obtain ⟨p, hp⟩ := hphase.2.2.1
    exact contexts_of_step hmap (hne (mine_eq_some.1 hp).1)
  | removeContext hv hmap =>
    simp only [hv, PhaseOk] at hphase
    obtain ⟨p, hp, -⟩ := hphase.2.2.1
    exact contexts_of_step hmap (hne (mine_eq_some.1 hp).1)
  | _ => rfl

/-- The step that ends the event leaves the runtime released. -/
theorem released_of_ends {a : Action Ref} (ha : a.isClose) (hs : step own s a = some s')
    (hidle : s'.phase = .idle) : s'.released = true := by
  cases takes_of_step hs with
  | contexts => cases ha
  | stay _ hrel => exact hrel
  | setReleased => rfl
  | _ => simp at hidle

/-! ## Every run -/

/-- What there is to hold in every state of a run. -/
structure Completes (own : Ref → Bool) (s : State Ref) : Prop where
  notStopped : s.phase ≠ .stopped
  goesOn : s.phase ≠ .idle → ∃ a : Action Ref, a.isClose ∧ (step own s a).isSome
  ends : s.phase ≠ .idle → ∀ a s', a.isClose → step own s a = some s' →
    Prod.Lex (· < ·) (· < ·) s'.phase.left s.phase.left
  undisturbed : ∀ a s', step own s (.contexts a) = some s' → s'.phase = s.phase
  others : ∀ a s' c, a.isClose → step own s a = some s' → ¬ own c →
    s'.map.contexts c = s.map.contexts c
  closed : 0 < s.releaseRuntimeCalls → ∀ c context, own c → s.map.contexts c = some context →
    context.phase = .closed
  once : s.releaseRuntimeCalls ≤ 1
  calledBefore : s.released → s.releaseRuntimeCalls = 1
  released : ∀ a s', a.isClose → step own s a = some s' → s'.phase = .idle → s'.released

omit [DecidableEq Ref] in
/-- `_releaseRuntime` is called once, when the runtime's contexts are closed. -/
theorem Inv.calls (h : Inv own s) : s.releaseRuntimeCalls ≤ 1 ∧
    (s.released → s.releaseRuntimeCalls = 1) ∧ (0 < s.releaseRuntimeCalls →
      ∀ d context, own d → s.map.contexts d = some context → context.phase = .closed) := by
  have hclosed : (∀ d, Waits (mine own s.map) [] d) →
      ∀ d context, own d → s.map.contexts d = some context → context.phase = .closed := by
    intro hwaits d context hd hctx
    refine (hwaits d context (mine_eq_some.2 ⟨hd, hctx⟩)).resolve_right fun hopen => ?_
    simp at hopen
  have hfresh : s.releaseRuntimeCalls = 0 ∧ s.released = false → s.releaseRuntimeCalls ≤ 1 ∧
      (s.released → s.releaseRuntimeCalls = 1) ∧ (0 < s.releaseRuntimeCalls →
        ∀ d context, own d → s.map.contexts d = some context → context.phase = .closed) := by
    rintro ⟨hzero, hrel⟩
    simp [hzero, hrel]
  have hok := h.phase
  cases hv : s.phase with
  | idle =>
    rw [hv] at hok
    rcases hok with hzero | ⟨hone, -, hwaits⟩
    · exact hfresh hzero
    · exact ⟨Nat.le_of_eq hone, fun _ => hone, fun _ => hclosed hwaits⟩
  | freed =>
    rw [hv] at hok
    exact ⟨Nat.le_of_eq hok.1, fun _ => hok.1, fun _ => hclosed hok.2.2⟩
  | stopped =>
    rw [hv] at hok
    exact hok.elim
  | _ =>
    rw [hv] at hok
    exact hfresh hok.1

/-- **The close completes**, in every run of such steps. -/
theorem close_completes
    (h : Reaches (step own) (fun s a => Alone own s a ∧ StepOk own s a) {} s) :
    Completes own s := by
  have hinv : Inv own s := h.invariant (Inv own) inv_start
    fun s a s' hi hok hs => inv_step hi hok.1 hok.2 hs
  obtain ⟨honce, hcalled, hclosed⟩ := hinv.calls
  refine ⟨fun hstop => ?_, hinv.goesOn, fun hphase a s' ha hs => left_step ha hphase hs,
    fun a s' hs => ?_, fun a s' c ha hs hc => hinv.others ha hs hc, hclosed, honce, hcalled,
    fun a s' ha hs hidle => released_of_ends ha hs hidle⟩
  · have hok := hinv.phase
    rw [hstop] at hok
    exact hok
  · obtain ⟨map, -, rfl⟩ := onMap_eq_some.1 hs
    rfl

/-- Context 0 is the runtime's own. -/
def zeroOwn (c : Nat) : Bool := c == 0

/-- The two runtimes have a context each. -/
def opening : List (Action Nat) :=
  [.contexts (.create 0 7), .contexts (.put 0), .contexts (.create 1 8), .contexts (.put 1)]

/-- The other runtime closes its context and creates one at the address that has become free. -/
def besideAnother : List (Action Nat) :=
  opening ++ [.enter, .size, .contexts (.startClose 1), .toArray [7, 8], .visit, .releaseContext,
    .contexts (.create 2 7), .removeContext, .visit, .releaseRuntime, .setReleased]

theorem close_completes_besideAnother : ∃ s, run (step zeroOwn) {} besideAnother = some s ∧
    s.released = true ∧ Completes zeroOwn s := by
  have hmeets : Meets (step zeroOwn) (fun s a => Alone zeroOwn s a ∧ StepOk zeroOwn s a) {}
      besideAnother := by
    refine ⟨⟨fun _ => ⟨rfl, rfl⟩, trivial⟩, ⟨fun _ => ⟨rfl, rfl⟩, trivial⟩,
      ⟨fun _ => ⟨rfl, rfl⟩, trivial⟩, ⟨fun _ => ⟨rfl, rfl⟩, trivial⟩, ⟨?_, trivial⟩,
      ⟨trivial, trivial⟩, ⟨fun h => absurd h (by decide), trivial⟩, ⟨trivial, ?_⟩,
      ⟨trivial, trivial⟩, ⟨trivial, trivial⟩, ⟨fun h => absurd h (by decide), trivial⟩,
      ⟨trivial, trivial⟩, ⟨trivial, trivial⟩, ⟨trivial, trivial⟩, ⟨trivial, trivial⟩, trivial⟩
    · intro c context hc hctx
      obtain rfl : c = 0 := by simpa [zeroOwn] using hc
      cases hctx
      exact Or.inl rfl
    · intro n hn
      cases hn
      exact Or.inl rfl
  have hrun : (run (step zeroOwn) {} besideAnother).map (·.released) = some true := by
    decide +kernel
  obtain ⟨s, hs, hreleased⟩ := Option.map_eq_some_iff.1 hrun
  exact ⟨s, hs, hreleased, close_completes (reaches_of_run hs hmeets)⟩

/-- The other runtime removes its context between the two reads. -/
def removedBetween : List (Action Nat) :=
  opening ++ [.enter, .size, .contexts (.startClose 1), .contexts (.release 1),
    .contexts (.remove 1), .toArray [7], .visit, .releaseContext, .removeContext, .visit]

/-- **An event that stops**: its own context is closed, and the runtime is not released. -/
theorem stopped : ¬ ∀ (own : Nat → Bool) (s : State Nat),
    Reaches (step own) (Alone own) {} s → Completes own s := by
  intro h
  have hmeets : Meets (step zeroOwn) (Alone zeroOwn) {} removedBetween := by
    refine ⟨fun _ => ⟨rfl, rfl⟩, fun _ => ⟨rfl, rfl⟩, fun _ => ⟨rfl, rfl⟩, fun _ => ⟨rfl, rfl⟩, ?_,
      trivial, fun h => absurd h (by decide), fun h => absurd h (by decide),
      fun h => absurd h (by decide), trivial, trivial, trivial, trivial, trivial, trivial⟩
    intro c context hc hctx
    obtain rfl : c = 0 := by simpa [zeroOwn] using hc
    cases hctx
    exact Or.inl rfl
  have hrun : (run (step zeroOwn) {} removedBetween).map (·.phase) = some .stopped := by
    decide +kernel
  obtain ⟨s, hs, hphase⟩ := Option.map_eq_some_iff.1 hrun
  exact (h zeroOwn s (reaches_of_run hs hmeets)).notStopped hphase

/-! ## A null in the array -/

/-- A null is still to come. -/
def Doomed : Phase Ref → Prop
  | .visiting values | .closing _ values | .removing _ values => none ∈ values
  | .stopped => True
  | _ => False

/-- A null that is to come stays ahead. -/
theorem doomed_step {a : Action Ref} (h : Doomed s.phase) (hs : step own s a = some s') :
    Doomed s'.phase ∧ s'.releaseRuntimeCalls = s.releaseRuntimeCalls := by
  cases takes_of_step hs with
  | contexts => exact ⟨h, rfl⟩
  | null => exact ⟨trivial, rfl⟩
  | startClose hv | closed hv | skip hv =>
    simp only [hv, Doomed, List.mem_cons, reduceCtorEq, false_or] at h
    exact ⟨h, rfl⟩
  | releaseContext hv | removeContext hv =>
    simp only [hv, Doomed] at h
    exact ⟨h, rfl⟩
  | stay hv | enter hv | size hv | toArray hv | releaseRuntime hv | setReleased hv =>
    -- no null is to come in these phases
    simp [hv, Doomed] at h

/-- An event that misses the size does not come to `_releaseRuntime`, whatever happens next. -/
theorem stops_short {s₁ s₂ : State Ref} {order : List Pointer} (h : Inv own s)
    (hs : step own s (.toArray order) = some s₁) (hbad : ¬ StepOk own s (.toArray order))
    (hrun : Reaches (step own) (fun _ _ => True) s₁ s₂) :
    s₂.releaseRuntimeCalls = 0 ∧ s₂.phase ≠ .idle := by
  have hok := h.phase
  have hstart : Doomed s₁.phase ∧ s₁.releaseRuntimeCalls = 0 := by
    cases takes_of_step hs with
    | toArray hsized hperm =>
      rw [hsized] at hok
      refine ⟨?_, hok.1.1⟩
      by_contra hnone
      refine hbad fun m hm => ?_
      obtain rfl := Phase.sized.inj (hsized.symm.trans hm)
      rw [← hperm.length_eq]
      exact (none_notMem_values (h.shared.isSome_of_perm hperm)).1 hnone
  have hend : Doomed s₂.phase ∧ s₂.releaseRuntimeCalls = 0 :=
    hrun.invariant (fun s => Doomed s.phase ∧ s.releaseRuntimeCalls = 0) hstart
      fun s a s' hi _ hs => ⟨(doomed_step hi.1 hs).1, (doomed_step hi.1 hs).2.trans hi.2⟩
  refine ⟨hend.2, fun hidle => ?_⟩
  simpa only [hidle, Doomed] using hend.1

end HybridStack.QuickJs.RuntimeClose
