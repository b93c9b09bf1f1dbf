import HybridStack.Lib.Transition
import Mathlib.Data.List.Nodup
import Mathlib.Data.List.Perm.Basic
import Mathlib.Logic.Function.Basic

/-!
# Java handles and the native references they own

The handles of one context, from its constructor to the end of its `close`.

| here | there |
| --- | --- |
| `State.createJSValue` | `TO_JAVA_OBJECT`, QuickJS.java:118-132 and JSValue.java:127-136 |
| `Action.callJavaCallback` | quickjs-jni.cpp:488-525 |
| `Action.transfer` | JSValue.java:138-155: `JSValue(context, value)` |
| `State.closeValue` | JSValue.java:165-171, and `finalize` JSValue.java:219-225 |
| `State.addObjRef` to `State.removeObjRef` | JSContext.java:34-59 |
| `Action.startClose` to `Action.closeGlobal` | JSContext.java:74-80 |
| `Action.evict` | `WeakHashMap` drops an entry whose boxed key has been collected |
| `Action.dup`, `Action.free` | the engine's own references |

Each operation is one step, the loop of `checkReleaseObjPtrPool` with its two accesses to the pool
included: one thread uses the API, beside that of the finalizer.

- **`accounted`**: each handle owns a reference of its own and gives it back once, in every run in
  which no callback is called on the global object, nothing is taken over from a released handle, and
  `close` finds each handle that is not released in `refs`.
- `listed_step`: it does where no two such handles have the same hash code and no entry of one is
  dropped.
- `owns_iff`: a callback keeps the count right if and only if it is not called on the global object.
- `missed`: a handle that `close` does not find is not released by it.
- `not_accounted`: a callback on the global object, whose reference is then released twice.
-/

namespace HybridStack.QuickJs.Handles

open Transition

/-- A `JSValue` of the engine: undefined, one without a reference count, or a counted object. -/
inductive Value (Obj : Type)
  | undefined
  | immediate
  | counted (o : Obj)
  deriving DecidableEq, Repr

/-- A Java `JSValue`; `context` says that its field is not null. -/
structure Handle (Obj : Type) where
  value : Value Obj
  hashCode : Int
  context : Bool
  released : Bool
  deriving DecidableEq, Repr

inductive Phase (Ref : Type)
  | opened
  /-- In the loop of `close` over `jsValues`. -/
  | closing (jsValues : List Ref)
  /-- The pool is empty, the context's own handle is still to be closed. -/
  | drained
  | closed
  deriving DecidableEq, Repr

/-- `Ref` are references to Java handles, `Obj` the engine's objects. Entries of the pool are with the
handle they come from. What the code does not keep: the handles `created`, the references
`engineHeld` by the engine itself, the `calls` of `_releasePtr` for each handle, and how often its
reference has `moved` to another handle. -/
structure State (Ref Obj : Type) where
  heap : Ref → Option (Handle Obj)
  created : List Ref
  refs : List (Int × Ref)
  releaseObjPtrPool : List (Ref × Value Obj)
  refCount : Obj → Int
  engineHeld : Obj → Nat
  calls : Ref → Nat
  moved : Ref → Nat
  phase : Phase Ref

inductive Action (Ref Obj : Type)
  /-- A native function returns a value with a reference of its own; `found` says that the context
  is in `sContextMap`. -/
  | createJSValue (h : Ref) (value : Value Obj) (hashCode : Int) (found : Bool)
  | callJavaCallback (objectHandle argsHandle : Ref) (thisVal : Value Obj) (args : Obj)
    (objectHash argsHash : Int) (found : Bool)
  /-- `h = new JSValue(context, value)`. -/
  | transfer (h value : Ref) (hashCode : Int)
  | close (h : Ref)
  | finalize (h : Ref)
  | evict (hashCode : Int)
  | checkReleased
  | dup (o : Obj)
  | free (o : Obj)
  /-- `order` is the order in which `refs` has its values. -/
  | startClose (order : List Ref)
  | closeNext
  | closePool
  | closeGlobal
  deriving DecidableEq, Repr

/-- `JSValue.TYPE_UNDEFINED`, the hash code of every `JSObject.Undefined`. -/
def typeUndefined : Int := 99

/-- `Integer.valueOf` has one box for such a number, which is never collected. -/
def isCached (n : Int) : Bool := -128 ≤ n && n ≤ 127

variable {Ref Obj : Type} [DecidableEq Ref] [DecidableEq Obj]

/-- How many references to `o` a value is: one or none. -/
def Value.references (v : Value Obj) (o : Obj) : Nat := if v = .counted o then 1 else 0

namespace State

variable (s : State Ref Obj)

/-- A reference more, as `JS_DupValue` or a new value. -/
def addReference (v : Value Obj) : State Ref Obj :=
  { s with refCount := fun o => s.refCount o + v.references o }

/-- `_releasePtr`, which is `JS_FreeValue`. -/
def releasePtr (h : Ref) (v : Value Obj) : State Ref Obj :=
  { s with
    refCount := fun o => s.refCount o - v.references o
    calls := Function.update s.calls h (s.calls h + 1) }

def removeObjRef (hashCode : Int) : State Ref Obj :=
  { s with refs := s.refs.filter fun e => e.1 ≠ hashCode }

def addObjRef (h : Ref) (hashCode : Int) : State Ref Obj :=
  { s with refs := (hashCode, h) :: s.refs.filter fun e => e.1 ≠ hashCode }

/-- A new Java object. -/
def allocate (h : Ref) (x : Handle Obj) : State Ref Obj :=
  { s with heap := Function.update s.heap h (some x), created := h :: s.created }

def setReleased (h : Ref) (x : Handle Obj) : State Ref Obj :=
  { s with heap := Function.update s.heap h (some { x with released := true }) }

def releaseObjRef (h : Ref) (x : Handle Obj) (finalize : Bool) : State Ref Obj :=
  let s := if finalize then
      { s with releaseObjPtrPool := s.releaseObjPtrPool ++ [(h, x.value)] }
    else s.releasePtr h x.value
  s.removeObjRef x.hashCode

/-- `close(finalize)`; a handle without a context throws instead of releasing. -/
def closeValue (h : Ref) (finalize : Bool) : State Ref Obj :=
  match s.heap h with
  | none => s
  | some x =>
    if x.released then s
    else if x.context then (s.setReleased h x).releaseObjRef h x finalize
    else s.setReleased h x

/-- An undefined value becomes an `Undefined`, which is released from the beginning. -/
def createJSValue (h : Ref) (value : Value Obj) (hashCode : Int) (found : Bool) : State Ref Obj :=
  let hashCode := if value = .undefined then typeUndefined else hashCode
  let s := s.allocate h ⟨value, hashCode, found, value = .undefined⟩
  if found then s.addObjRef h hashCode else s

def releaseAll (s : State Ref Obj) : List (Ref × Value Obj) → State Ref Obj
  | [] => s
  | e :: pool => (s.releasePtr e.1 e.2).releaseAll pool

def checkReleaseObjPtrPool : State Ref Obj :=
  { s.releaseAll s.releaseObjPtrPool with releaseObjPtrPool := [] }

/-- A handle that `refs` or the array of `close` holds is not collected. -/
def isReachable (h : Ref) : Bool :=
  h ∈ s.refs.map Prod.snd ||
    match s.phase with
    | .closing jsValues => h ∈ jsValues
    | _ => false

end State

/-- What the constructor leaves: the context's own handle, which owns the reference it got from
`JS_GetGlobalObject`. -/
def start (context : Ref) (global : Obj) (engineHeld : Obj → Nat) (hashCode : Int) :
    State Ref Obj where
  heap := Function.update (fun _ => none) context (some ⟨.counted global, hashCode, true, false⟩)
  created := [context]
  refs := []
  releaseObjPtrPool := []
  refCount o := engineHeld o + (Value.counted global).references o
  engineHeld
  calls _ := 0
  moved _ := 0
  phase := .opened

def step (context : Ref) (global : Obj) (s : State Ref Obj) :
    Action Ref Obj → Option (State Ref Obj)
  | .createJSValue h value hashCode found =>
    if s.phase = .opened ∧ s.heap h = none then
      some ((s.addReference value).createJSValue h value hashCode found)
    else none
  | .callJavaCallback objectHandle argsHandle thisVal args objectHash argsHash found =>
    if s.phase = .opened ∧ s.heap objectHandle = none ∧ s.heap argsHandle = none ∧
        objectHandle ≠ argsHandle then
      let s := s.addReference (.counted args)
      let s := s.createJSValue objectHandle thisVal objectHash found
      let s := s.createJSValue argsHandle (.counted args) argsHash found
      some (if thisVal = .counted global then s else s.addReference thisVal)
    else none
  | .transfer h value hashCode =>
    if s.phase = .opened ∧ s.heap h = none ∧ value ≠ context then
      match s.heap value with
      | none => none
      | some x =>
        let s := { s.setReleased value x with
          moved := Function.update s.moved value (s.moved value + 1) }
        let s := (s.allocate h ⟨x.value, hashCode, true, false⟩).removeObjRef x.hashCode
        some (s.addObjRef h hashCode).checkReleaseObjPtrPool
    else none
  | .close h => if h = context then none else some (s.closeValue h false)
  | .finalize h => if h = context ∨ s.isReachable h then none else some (s.closeValue h true)
  | .evict hashCode => if isCached hashCode then none else some (s.removeObjRef hashCode)
  | .checkReleased => some s.checkReleaseObjPtrPool
  | .dup o =>
    some { s.addReference (.counted o) with
      engineHeld := Function.update s.engineHeld o (s.engineHeld o + 1) }
  | .free o =>
    if s.engineHeld o = 0 then none
    else
      some { s with
        refCount := Function.update s.refCount o (s.refCount o - 1)
        engineHeld := Function.update s.engineHeld o (s.engineHeld o - 1) }
  | .startClose order =>
    if s.phase = .opened ∧ order.isPerm (s.refs.map Prod.snd) then
      some { s with phase := .closing order }
    else none
  | .closeNext =>
    match s.phase with
    | .closing (h :: jsValues) => some { s.closeValue h false with phase := .closing jsValues }
    | _ => none
  | .closePool =>
    match s.phase with
    | .closing [] => some { s.checkReleaseObjPtrPool with phase := .drained }
    | _ => none
  | .closeGlobal =>
    match s.phase with
    | .drained => some { s.closeValue context false with phase := .closed }
    | _ => none

/-- The callback is not called on the global object, the handle taken over from is not released, and
`close` finds in `refs` each handle that is not released. -/
def StepOk (context : Ref) (global : Obj) (s : State Ref Obj) : Action Ref Obj → Prop
  | .createJSValue _ _ _ found => found
  | .callJavaCallback _ _ thisVal _ _ _ found => found ∧ thisVal ≠ .counted global
  | .transfer _ value _ => ∀ x, s.heap value = some x → x.released = false
  | .startClose _ => ∀ h x, s.heap h = some x → h ≠ context → x.released = false →
      (x.hashCode, h) ∈ s.refs
  | _ => True

/-! ## What a step does -/

variable {context : Ref} {global : Obj} {s s' : State Ref Obj}

/-- The state after the constructor has marked `value` and allocated the new handle. -/
def handOver (s : State Ref Obj) (h value : Ref) (x : Handle Obj) (hashCode : Int) :
    State Ref Obj :=
  { s.setReleased value x with
    moved := Function.update s.moved value (s.moved value + 1) }.allocate h
      ⟨x.value, hashCode, true, false⟩

/-- The two handles of a callback before the receiver's reference is duplicated. -/
def callbackHandles (s : State Ref Obj) (objectHandle argsHandle : Ref) (thisVal : Value Obj)
    (args : Obj) (objectHash argsHash : Int) (found : Bool) : State Ref Obj :=
  ((s.addReference (.counted args)).createJSValue objectHandle thisVal objectHash found).createJSValue
    argsHandle (.counted args) argsHash found

/-- The inversion of `step`. -/
inductive Takes (context : Ref) (global : Obj) (s : State Ref Obj) :
    Action Ref Obj → State Ref Obj → Prop
  | createJSValue {h : Ref} {value : Value Obj} {hashCode : Int} {found : Bool} :
    s.phase = .opened → s.heap h = none →
    Takes context global s (.createJSValue h value hashCode found)
      ((s.addReference value).createJSValue h value hashCode found)
  | callJavaCallback {objectHandle argsHandle : Ref} {thisVal : Value Obj} {args : Obj}
    {objectHash argsHash : Int} {found : Bool} : s.phase = .opened → s.heap objectHandle = none →
    s.heap argsHandle = none → objectHandle ≠ argsHandle →
    Takes context global s
      (.callJavaCallback objectHandle argsHandle thisVal args objectHash argsHash found)
      (if thisVal = .counted global then
        callbackHandles s objectHandle argsHandle thisVal args objectHash argsHash found
      else (callbackHandles s objectHandle argsHandle thisVal args objectHash argsHash
        found).addReference thisVal)
  | transfer {h value : Ref} {hashCode : Int} {x : Handle Obj} : s.phase = .opened →
    s.heap h = none → value ≠ context → s.heap value = some x →
    Takes context global s (.transfer h value hashCode)
      (((handOver s h value x hashCode).removeObjRef x.hashCode).addObjRef h
        hashCode).checkReleaseObjPtrPool
  | close {h : Ref} : h ≠ context → Takes context global s (.close h) (s.closeValue h false)
  | finalize {h : Ref} : h ≠ context → s.isReachable h = false →
    Takes context global s (.finalize h) (s.closeValue h true)
  | evict {hashCode : Int} : isCached hashCode = false →
    Takes context global s (.evict hashCode) (s.removeObjRef hashCode)
  | checkReleased : Takes context global s .checkReleased s.checkReleaseObjPtrPool
  | dup {o : Obj} : Takes context global s (.dup o) { s.addReference (.counted o) with
      engineHeld := Function.update s.engineHeld o (s.engineHeld o + 1) }
  | free {o : Obj} : s.engineHeld o ≠ 0 → Takes context global s (.free o) { s with
      refCount := Function.update s.refCount o (s.refCount o - 1)
      engineHeld := Function.update s.engineHeld o (s.engineHeld o - 1) }
  | startClose {order : List Ref} : s.phase = .opened → order.Perm (s.refs.map Prod.snd) →
    Takes context global s (.startClose order) { s with phase := .closing order }
  | closeNext {h : Ref} {jsValues : List Ref} : s.phase = .closing (h :: jsValues) →
    Takes context global s .closeNext { s.closeValue h false with phase := .closing jsValues }
  | closePool : s.phase = .closing [] →
    Takes context global s .closePool { s.checkReleaseObjPtrPool with phase := .drained }
  | closeGlobal : s.phase = .drained →
    Takes context global s .closeGlobal { s.closeValue context false with phase := .closed }

theorem takes_of_step {a : Action Ref Obj} (hs : step context global s a = some s') :
    Takes context global s a s' := by
  cases a with
  | createJSValue =>
    simp only [step] at hs
    split_ifs at hs with hguard
    exact Option.some.inj hs ▸ .createJSValue hguard.1 hguard.2
  | callJavaCallback objectHandle argsHandle thisVal args objectHash argsHash found =>
    simp only [step] at hs
    by_cases hguard : s.phase = .opened ∧ s.heap objectHandle = none ∧ s.heap argsHandle = none ∧
        objectHandle ≠ argsHandle
    · rw [if_pos hguard] at hs
      exact Option.some.inj hs ▸ .callJavaCallback hguard.1 hguard.2.1 hguard.2.2.1 hguard.2.2.2
    · simp only [if_neg hguard, reduceCtorEq] at hs
  | transfer =>
    simp only [step] at hs
    split_ifs at hs with hguard
    split at hs
    next => simp at hs
    next x hx => exact Option.some.inj hs ▸ .transfer hguard.1 hguard.2.1 hguard.2.2 hx
  | close =>
    simp only [step] at hs
    split_ifs at hs with hh
    exact Option.some.inj hs ▸ .close hh
  | finalize =>
    simp only [step] at hs
    split_ifs at hs with hh
    rw [not_or, Bool.not_eq_true] at hh
    exact Option.some.inj hs ▸ .finalize hh.1 hh.2
  | evict =>
    simp only [step] at hs
    split_ifs at hs with hcached
    exact Option.some.inj hs ▸ .evict (by simpa using hcached)
  | checkReleased => exact Option.some.inj hs ▸ .checkReleased
  | dup => exact Option.some.inj hs ▸ .dup
  | free =>
    simp only [step] at hs
    split_ifs at hs with hheld
    exact Option.some.inj hs ▸ .free hheld
  | startClose =>
    simp only [step] at hs
    split_ifs at hs with hguard
    exact Option.some.inj hs ▸ .startClose hguard.1 (List.isPerm_iff.1 hguard.2)
  | closeNext =>
    simp only [step] at hs
    split at hs
    next hv => exact Option.some.inj hs ▸ .closeNext hv
    next => simp at hs
  | closePool =>
    simp only [step] at hs
    split at hs
    next hv => exact Option.some.inj hs ▸ .closePool hv
    next => simp at hs
  | closeGlobal =>
    simp only [step] at hs
    split at hs
    next hv => exact Option.some.inj hs ▸ .closeGlobal hv
    next => simp at hs

/-! ## The books -/

namespace State

variable (s : State Ref Obj)

/-- The handle is live and one of `o`. -/
def holds (o : Obj) (h : Ref) : Bool :=
  match s.heap h with
  | some x => !x.released && x.value = .counted o
  | none => false

/-- The number of live handles of `o`. -/
def live (o : Obj) : Nat := s.created.countP (s.holds o)

/-- The number of references to `o` in the pool. -/
def pooled (o : Obj) : Nat := s.releaseObjPtrPool.countP fun e => e.2 = .counted o

/-- The entries of the pool that come from `h`. -/
def poolEntries (h : Ref) : Nat := s.releaseObjPtrPool.countP fun e => e.1 = h

/-- A released handle that is not an `Undefined` owes one reference. -/
def due (h : Ref) : Nat :=
  match s.heap h with
  | some x => if x.released ∧ x.value ≠ .undefined then 1 else 0
  | none => 0

end State

/-- How many references to `o` there are beyond the engine's, those of live handles and those in the
pool. -/
def State.surplus (s : State Ref Obj) (o : Obj) : Int :=
  s.refCount o - ((s.engineHeld o + s.live o + s.pooled o : Nat) : Int)

/-- What a handle owes has been released, is in the pool or has moved to another handle. -/
structure Books (s : State Ref Obj) : Prop where
  nodup : s.created.Nodup
  mem_created : ∀ h, h ∈ s.created ↔ (s.heap h).isSome
  defined : ∀ h x, s.heap h = some x → x.released = false → x.value ≠ .undefined
  fates : ∀ h, s.calls h + s.poolEntries h + s.moved h = s.due h

omit [DecidableEq Ref] in
/-- Two counts over a list without duplicates that differ at one place. -/
theorem countP_add_eq {l : List Ref} (hl : l.Nodup) {h : Ref} (hh : h ∈ l) {p q : Ref → Bool}
    (hpq : ∀ r, r ≠ h → p r = q r) :
    l.countP p + (if q h then 1 else 0) = l.countP q + if p h then 1 else 0 := by
  induction l with
  | nil => simp at hh
  | cons r l ih =>
    obtain ⟨hr, hl⟩ := List.nodup_cons.1 hl
    simp only [List.countP_cons]
    by_cases hrh : r = h
    · subst hrh
      have hrest : l.countP p = l.countP q :=
        List.countP_congr fun x hx => by rw [hpq x fun hxr => hr (hxr ▸ hx)]
      omega
    · have hmem : h ∈ l := (List.mem_cons.1 hh).resolve_left fun hhr => hrh hhr.symm
      have hrest := ih hl hmem
      rw [hpq r hrh]
      omega

omit [DecidableEq Ref] in
/-- What a live handle counts for. -/
theorem ite_holds {h : Ref} {x : Handle Obj} (hx : s.heap h = some x) (o : Obj) :
    (if s.holds o h then 1 else 0) = if x.released then 0 else x.value.references o := by
  simp only [State.holds, hx, Value.references]
  cases x.released <;> simp

theorem books_start (context : Ref) (global : Obj) (engineHeld : Obj → Nat) (hashCode : Int) :
    Books (start context global engineHeld hashCode) where
  nodup := List.nodup_singleton context
  mem_created h := by
    by_cases hh : h = context <;> simp [start, hh]
  defined h x hx _ := by
    by_cases hh : h = context
    · simp only [start, hh, Function.update_self, Option.some.injEq] at hx
      subst hx
      simp
    · simp [start, hh] at hx
  fates h := by
    by_cases hh : h = context <;> simp [start, State.poolEntries, State.due, hh]

theorem surplus_start (context : Ref) (global : Obj) (engineHeld : Obj → Nat) (hashCode : Int)
    (o : Obj) : (start context global engineHeld hashCode).surplus o = 0 := by
  simp [start, State.surplus, State.live, State.pooled, State.holds, List.countP_cons,
    Value.references]

omit [DecidableEq Ref] in
/-- The live handles depend on the heap only. -/
theorem live_congr (hheap : s'.heap = s.heap) (hcreated : s'.created = s.created) (o : Obj) :
    s'.live o = s.live o := by
  have hholds : s'.holds o = s.holds o := by
    funext r
    rw [State.holds, State.holds, hheap]
  rw [State.live, State.live, hholds, hcreated]

/-! ## A reference more, a handle more -/

omit [DecidableEq Ref] in
theorem surplus_addReference (s : State Ref Obj) (v : Value Obj) (o : Obj) :
    (s.addReference v).surplus o = s.surplus o + v.references o := by
  have hlive : (s.addReference v).live o = s.live o := rfl
  have hpool : (s.addReference v).pooled o = s.pooled o := rfl
  have hheld : (s.addReference v).engineHeld o = s.engineHeld o := rfl
  have hcount : (s.addReference v).refCount o = s.refCount o + v.references o := rfl
  rw [State.surplus, State.surplus, hlive, hpool, hheld, hcount]
  omega

theorem Books.addReference (h : Books s) (v : Value Obj) : Books (s.addReference v) :=
  ⟨h.nodup, h.mem_created, h.defined, h.fates⟩

/-- A new handle owns what its value refers to, unless it is released. -/
theorem live_allocate (hb : Books s) {h : Ref} (hnone : s.heap h = none) (x : Handle Obj) (o : Obj) :
    (s.allocate h x).live o = s.live o + if x.released then 0 else x.value.references o := by
  have hnot : h ∉ s.created := by simp [hb.mem_created, hnone]
  have hrest : s.created.countP ((s.allocate h x).holds o) = s.created.countP (s.holds o) := by
    refine List.countP_congr fun r hr => ?_
    have hne : r ≠ h := fun hrh => hnot (hrh ▸ hr)
    simp only [State.holds, State.allocate, Function.update_of_ne hne]
  have hnew : (s.allocate h x).heap h = some x := by
    simp only [State.allocate, Function.update_self]
  have hcount : (s.allocate h x).live o = s.created.countP ((s.allocate h x).holds o) +
      if (s.allocate h x).holds o h then 1 else 0 := List.countP_cons
  rw [hcount, hrest, ite_holds hnew, State.live]

theorem Books.allocate (hb : Books s) {h : Ref} (hnone : s.heap h = none) {x : Handle Obj}
    (hx : x.released = true ↔ x.value = .undefined) : Books (s.allocate h x) where
  nodup := by
    refine List.nodup_cons.2 ⟨?_, hb.nodup⟩
    simp [hb.mem_created, hnone]
  mem_created r := by
    by_cases hr : r = h
    · simp [State.allocate, hr]
    · simp [State.allocate, hr, hb.mem_created r]
  defined r y hy hrel := by
    by_cases hr : r = h
    · simp only [State.allocate, hr, Function.update_self, Option.some.injEq] at hy
      subst hy
      simpa [hrel] using hx
    · simp only [State.allocate, Function.update_of_ne hr] at hy
      exact hb.defined r y hy hrel
  fates r := by
    have hold := hb.fates r
    by_cases hr : r = h
    · subst hr
      simp only [State.due, hnone] at hold
      have hdue : (s.allocate r x).due r = 0 := by
        simp only [State.due, State.allocate, Function.update_self, hx, and_not_self, if_false]
      rw [hdue]
      exact hold
    · have hdue : (s.allocate h x).due r = s.due r := by
        simp only [State.due, State.allocate, Function.update_of_ne hr]
      rw [hdue]
      exact hold

theorem surplus_createJSValue (hb : Books s) {h : Ref} (hnone : s.heap h = none) (v : Value Obj)
    (hashCode : Int) (found : Bool) (o : Obj) :
    (s.createJSValue h v hashCode found).surplus o = s.surplus o - v.references o := by
  have hlive := live_allocate hb hnone
    ⟨v, if v = .undefined then typeUndefined else hashCode, found, v = .undefined⟩ o
  have hsame : (s.createJSValue h v hashCode found).surplus o = (s.allocate h
      ⟨v, if v = .undefined then typeUndefined else hashCode, found, v = .undefined⟩).surplus o := by
    cases found <;> rfl
  rw [hsame]
  simp only [State.surplus, hlive]
  by_cases hv : v = .undefined
  · simp [hv, Value.references, State.allocate, State.pooled]
  · simp only [hv, decide_false, Bool.false_eq_true, if_false, State.allocate, State.pooled]
    omega

theorem Books.createJSValue (hb : Books s) {h : Ref} (hnone : s.heap h = none) (v : Value Obj)
    (hashCode : Int) (found : Bool) : Books (s.createJSValue h v hashCode found) := by
  have hall := hb.allocate hnone (x := ⟨v, if v = .undefined then typeUndefined else hashCode, found,
    v = .undefined⟩) (by simp)
  cases found
  · exact hall
  · exact ⟨hall.nodup, hall.mem_created, hall.defined, hall.fates⟩

/-! ## A handle released -/

/-- What the handle owned is owned by it no more. -/
theorem live_setReleased (hb : Books s) {h : Ref} {x : Handle Obj} (hx : s.heap h = some x)
    (o : Obj) : (s.setReleased h x).live o + (if x.released then 0 else x.value.references o) =
      s.live o := by
  have hmem : h ∈ s.created := (hb.mem_created h).2 (by simp [hx])
  have hcount := countP_add_eq hb.nodup hmem (p := (s.setReleased h x).holds o) (q := s.holds o)
    fun r hr => by simp only [State.holds, State.setReleased, Function.update_of_ne hr]
  have hnew : (s.setReleased h x).holds o h = false := by
    simp [State.holds, State.setReleased]
  rw [hnew, ite_holds hx] at hcount
  exact hcount

/-- The handle owes its reference, which has then to be accounted for. -/
theorem due_setReleased (hb : Books s) {h : Ref} {x : Handle Obj} (hx : s.heap h = some x)
    (hrel : x.released = false) (r : Ref) :
    (s.setReleased h x).due r = s.due r + if r = h then 1 else 0 := by
  by_cases hr : r = h
  · subst hr
    have hdef := hb.defined r x hx hrel
    simp [State.due, State.setReleased, hx, hrel, hdef]
  · simp [State.due, State.setReleased, hr]

theorem mem_created_setReleased (hb : Books s) {h : Ref} {x : Handle Obj} (hx : s.heap h = some x)
    (r : Ref) : r ∈ (s.setReleased h x).created ↔ ((s.setReleased h x).heap r).isSome := by
  by_cases hr : r = h
  · subst hr
    simp [State.setReleased, (hb.mem_created r).2, hx]
  · simp [State.setReleased, hr, hb.mem_created r]

theorem defined_setReleased (hb : Books s) {h : Ref} {x : Handle Obj} (r : Ref) (y : Handle Obj)
    (hy : (s.setReleased h x).heap r = some y) (hrel : y.released = false) :
    y.value ≠ .undefined := by
  by_cases hr : r = h
  · simp only [State.setReleased, hr, Function.update_self, Option.some.injEq] at hy
    subst hy
    simp at hrel
  · simp only [State.setReleased, Function.update_of_ne hr] at hy
    exact hb.defined r y hy hrel

/-- Released or put into the pool: one entry more for the handle, and its reference is off the count
or in the pool. -/
theorem releaseObjRef_counts (s : State Ref Obj) (h : Ref) (x : Handle Obj) (finalize : Bool) :
    (∀ r, (s.releaseObjRef h x finalize).calls r + (s.releaseObjRef h x finalize).poolEntries r =
      s.calls r + s.poolEntries r + if r = h then 1 else 0) ∧
    ∀ o, (s.releaseObjRef h x finalize).refCount o - (s.releaseObjRef h x finalize).pooled o =
      s.refCount o - s.pooled o - x.value.references o := by
  cases finalize with
  | false =>
    refine ⟨fun r => ?_, fun o => ?_⟩
    · have hcalls : (s.releaseObjRef h x false).calls r = s.calls r + if r = h then 1 else 0 := by
        by_cases hr : r = h
        · simp [State.releaseObjRef, State.releasePtr, State.removeObjRef, hr]
        · simp [State.releaseObjRef, State.releasePtr, State.removeObjRef, hr]
      have hpool : (s.releaseObjRef h x false).poolEntries r = s.poolEntries r := rfl
      omega
    · have hcount : (s.releaseObjRef h x false).refCount o = s.refCount o - x.value.references o :=
        rfl
      have hpool : (s.releaseObjRef h x false).pooled o = s.pooled o := rfl
      omega
  | true =>
    refine ⟨fun r => ?_, fun o => ?_⟩
    · have hcalls : (s.releaseObjRef h x true).calls r = s.calls r := rfl
      have hpool : (s.releaseObjRef h x true).poolEntries r =
          s.poolEntries r + if r = h then 1 else 0 := by
        simp [State.releaseObjRef, State.removeObjRef, State.poolEntries, List.countP_append, eq_comm]
      omega
    · have hcount : (s.releaseObjRef h x true).refCount o = s.refCount o := rfl
      have hpool : (s.releaseObjRef h x true).pooled o = s.pooled o + x.value.references o := by
        simp [State.releaseObjRef, State.removeObjRef, State.pooled, List.countP_append,
          List.countP_cons, Value.references]
      omega

theorem releaseObjRef_frame (s : State Ref Obj) (h : Ref) (x : Handle Obj) (finalize : Bool) :
    (s.releaseObjRef h x finalize).heap = s.heap ∧
    (s.releaseObjRef h x finalize).created = s.created ∧
    (s.releaseObjRef h x finalize).engineHeld = s.engineHeld ∧
    (s.releaseObjRef h x finalize).moved = s.moved ∧
    (s.releaseObjRef h x finalize).phase = s.phase := by
  cases finalize <;> exact ⟨rfl, rfl, rfl, rfl, rfl⟩

/-- The cases of `close(finalize)` for a handle with a context. -/
theorem closeValue_cases {h : Ref} (hcontext : ∀ x, s.heap h = some x → x.context = true)
    (finalize : Bool) : s.closeValue h finalize = s ∨ ∃ x, s.heap h = some x ∧ x.released = false ∧
      s.closeValue h finalize = (s.setReleased h x).releaseObjRef h x finalize := by
  unfold State.closeValue
  split
  · exact Or.inl rfl
  next x hx =>
    simp only [hcontext x hx, if_true]
    split_ifs with hrel
    · exact Or.inl rfl
    · exact Or.inr ⟨x, hx, by simpa using hrel, rfl⟩

theorem Books.closeValue (hb : Books s) {h : Ref}
    (hcontext : ∀ x, s.heap h = some x → x.context = true) (finalize : Bool) :
    Books (s.closeValue h finalize) := by
  rcases closeValue_cases hcontext finalize with hsame | ⟨x, hx, hrel, hclose⟩
  · rw [hsame]
    exact hb
  · obtain ⟨hheap, hcreated, -, hmoved, -⟩ := releaseObjRef_frame (s.setReleased h x) h x finalize
    obtain ⟨hcounts, -⟩ := releaseObjRef_counts (s.setReleased h x) h x finalize
    rw [hclose]
    refine ⟨?_, ?_, ?_, fun r => ?_⟩
    · rw [hcreated]
      exact hb.nodup
    · rw [hcreated, hheap]
      exact mem_created_setReleased hb hx
    · rw [hheap]
      exact defined_setReleased hb
    · have hdue : ((s.setReleased h x).releaseObjRef h x finalize).due r =
          s.due r + if r = h then 1 else 0 := by
        rw [← due_setReleased hb hx hrel, State.due, State.due, hheap]
      have hold : (s.setReleased h x).calls r + (s.setReleased h x).poolEntries r +
          (s.setReleased h x).moved r = s.due r := hb.fates r
      have hnew := hcounts r
      rw [hmoved, hdue]
      omega

theorem surplus_closeValue (hb : Books s) {h : Ref}
    (hcontext : ∀ x, s.heap h = some x → x.context = true) (finalize : Bool) (o : Obj) :
    (s.closeValue h finalize).surplus o = s.surplus o := by
  rcases closeValue_cases hcontext finalize with hsame | ⟨x, hx, hrel, hclose⟩
  · rw [hsame]
  · obtain ⟨hheap, hcreated, hengine, -⟩ := releaseObjRef_frame (s.setReleased h x) h x finalize
    obtain ⟨-, hcounts⟩ := releaseObjRef_counts (s.setReleased h x) h x finalize
    rw [hclose]
    have hlive := live_setReleased hb hx o
    rw [hrel, if_neg Bool.false_ne_true] at hlive
    have hlive' := live_congr hheap hcreated o
    have hold : (s.setReleased h x).refCount o - (s.setReleased h x).pooled o =
        s.refCount o - s.pooled o := rfl
    have hengine' : (s.setReleased h x).engineHeld o = s.engineHeld o := rfl
    have hnew := hcounts o
    rw [State.surplus, State.surplus, hlive', hengine, hengine']
    omega

/-! ## The pool emptied -/

theorem releaseAll_frame (pool : List (Ref × Value Obj)) : ∀ s : State Ref Obj,
    (s.releaseAll pool).heap = s.heap ∧ (s.releaseAll pool).created = s.created ∧
    (s.releaseAll pool).refs = s.refs ∧ (s.releaseAll pool).engineHeld = s.engineHeld ∧
    (s.releaseAll pool).moved = s.moved ∧ (s.releaseAll pool).phase = s.phase := by
  induction pool with
  | nil => exact fun s => ⟨rfl, rfl, rfl, rfl, rfl, rfl⟩
  | cons e pool ih => exact fun s => ih (s.releasePtr e.1 e.2)

/-- Each entry is a call of `_releasePtr`, for its handle and for its object. -/
theorem releaseAll_counts (pool : List (Ref × Value Obj)) : ∀ s : State Ref Obj,
    (∀ h, (s.releaseAll pool).calls h = s.calls h + pool.countP fun e => e.1 = h) ∧
    ∀ o, (s.releaseAll pool).refCount o =
      s.refCount o - (pool.countP fun e => e.2 = .counted o : Nat) := by
  induction pool with
  | nil => exact fun s => ⟨fun h => rfl, fun o => by simp [State.releaseAll]⟩
  | cons e pool ih =>
    intro s
    obtain ⟨hcalls, hcount⟩ := ih (s.releasePtr e.1 e.2)
    refine ⟨fun h => ?_, fun o => ?_⟩
    · rw [State.releaseAll, hcalls h]
      by_cases hh : e.1 = h
      · simp only [State.releasePtr, hh, Function.update_self, List.countP_cons, decide_true, if_true]
        omega
      · simp [State.releasePtr, Function.update_of_ne (Ne.symm hh), hh]
    · rw [State.releaseAll, hcount o]
      simp only [State.releasePtr, List.countP_cons, Value.references, decide_eq_true_eq]
      omega

theorem Books.checkReleaseObjPtrPool (hb : Books s) : Books s.checkReleaseObjPtrPool := by
  obtain ⟨hheap, hcreated, -, -, hmoved, -⟩ := releaseAll_frame s.releaseObjPtrPool s
  obtain ⟨hcalls, -⟩ := releaseAll_counts s.releaseObjPtrPool s
  have hheap' : s.checkReleaseObjPtrPool.heap = s.heap := hheap
  have hcreated' : s.checkReleaseObjPtrPool.created = s.created := hcreated
  refine ⟨?_, ?_, ?_, fun h => ?_⟩
  · rw [hcreated']
    exact hb.nodup
  · rw [hcreated', hheap']
    exact hb.mem_created
  · rw [hheap']
    exact hb.defined
  · have hdue : s.checkReleaseObjPtrPool.due h = s.due h := by
      rw [State.due, State.due, hheap']
    have hmoved' : s.checkReleaseObjPtrPool.moved h = s.moved h := congrFun hmoved h
    have hcalls' : s.checkReleaseObjPtrPool.calls h = s.calls h + s.poolEntries h := hcalls h
    have hempty : s.checkReleaseObjPtrPool.poolEntries h = 0 := rfl
    have hold := hb.fates h
    omega

theorem surplus_checkReleaseObjPtrPool (s : State Ref Obj) (o : Obj) :
    s.checkReleaseObjPtrPool.surplus o = s.surplus o := by
  obtain ⟨hheap, hcreated, -, hengine, -, -⟩ := releaseAll_frame s.releaseObjPtrPool s
  obtain ⟨-, hcount⟩ := releaseAll_counts s.releaseObjPtrPool s
  have hlive : s.checkReleaseObjPtrPool.live o = s.live o := live_congr hheap hcreated o
  have hempty : s.checkReleaseObjPtrPool.pooled o = 0 := rfl
  have hengine' : s.checkReleaseObjPtrPool.engineHeld o = s.engineHeld o := congrFun hengine o
  have hcount' : s.checkReleaseObjPtrPool.refCount o = s.refCount o - (s.pooled o : Nat) := hcount o
  rw [State.surplus, State.surplus, hlive, hempty, hengine', hcount']
  omega

/-! ## A reference handed over -/

theorem Books.moved (hb : Books s) {value : Ref} {x : Handle Obj} (hx : s.heap value = some x)
    (hrel : x.released = false) :
    Books { s.setReleased value x with
      moved := Function.update s.moved value (s.moved value + 1) } := by
  refine ⟨hb.nodup, mem_created_setReleased hb hx, defined_setReleased hb, fun r => ?_⟩
  have hold := hb.fates r
  have hdue := due_setReleased hb hx hrel r
  have hmoved : Function.update s.moved value (s.moved value + 1) r =
      s.moved r + if r = value then 1 else 0 := by
    by_cases hr : r = value
    · simp [hr]
    · simp [hr]
  show s.calls r + s.poolEntries r + Function.update s.moved value (s.moved value + 1) r =
    (s.setReleased value x).due r
  omega

theorem Books.handOver (hb : Books s) {h value : Ref} {x : Handle Obj} (hnone : s.heap h = none)
    (hx : s.heap value = some x) (hrel : x.released = false) (hashCode : Int) :
    Books (handOver s h value x hashCode) := by
  have hne : h ≠ value := by
    rintro rfl
    simp [hnone] at hx
  refine (hb.moved hx hrel).allocate ?_ ?_
  · simpa [State.setReleased, Function.update_of_ne hne] using hnone
  · simp [hb.defined value x hx hrel]

theorem surplus_handOver (hb : Books s) {h value : Ref} {x : Handle Obj} (hnone : s.heap h = none)
    (hx : s.heap value = some x) (hrel : x.released = false) (hashCode : Int) (o : Obj) :
    (handOver s h value x hashCode).surplus o = s.surplus o := by
  have hne : h ≠ value := by
    rintro rfl
    simp [hnone] at hx
  have hlive := live_setReleased hb hx o
  have hnew := live_allocate (hb.moved hx hrel) (h := h)
    (by simpa [State.setReleased, Function.update_of_ne hne] using hnone)
    ⟨x.value, hashCode, true, false⟩ o
  simp only [hrel, Bool.false_eq_true, if_false] at hlive hnew
  have hmid : State.live { s.setReleased value x with
      moved := Function.update s.moved value (s.moved value + 1) } o =
      (s.setReleased value x).live o := rfl
  have hlive' : (Handles.handOver s h value x hashCode).live o = s.live o := by
    rw [Handles.handOver, hnew, hmid]
    exact hlive
  have hpool : (Handles.handOver s h value x hashCode).pooled o = s.pooled o := rfl
  have hheld : (Handles.handOver s h value x hashCode).engineHeld o = s.engineHeld o := rfl
  have hcount : (Handles.handOver s h value x hashCode).refCount o = s.refCount o := rfl
  rw [State.surplus, State.surplus, hlive', hpool, hheld, hcount]

/-! ## What every step keeps -/

/-- From the beginning of `close` on, the handles that are not released are still to come. -/
def PhaseOk (context : Ref) (s : State Ref Obj) : Prop :=
  match s.phase with
  | .opened => True
  | .closing jsValues => ∀ h x, s.heap h = some x → h ≠ context → x.released = false → h ∈ jsValues
  | .drained => s.releaseObjPtrPool = [] ∧
      ∀ h x, s.heap h = some x → h ≠ context → x.released = true
  | .closed => s.releaseObjPtrPool = [] ∧ ∀ h x, s.heap h = some x → x.released = true

structure Inv (context : Ref) (s : State Ref Obj) : Prop where
  books : Books s
  surplus : ∀ o, s.surplus o = 0
  hasContext : ∀ h x, s.heap h = some x → x.context = true
  phase : PhaseOk context s

theorem inv_start (context : Ref) (global : Obj) (engineHeld : Obj → Nat) (hashCode : Int) :
    Inv context (start context global engineHeld hashCode) where
  books := books_start context global engineHeld hashCode
  surplus := surplus_start context global engineHeld hashCode
  hasContext h x hx := by
    by_cases hh : h = context
    · simp only [start, hh, Function.update_self, Option.some.injEq] at hx
      exact hx ▸ rfl
    · simp [start, hh] at hx
  phase := trivial

theorem heap_closeValue (s : State Ref Obj) (h : Ref) (finalize : Bool) :
    (s.closeValue h finalize).heap =
      match s.heap h with
      | none => s.heap
      | some x => Function.update s.heap h (some { x with released := true }) := by
  unfold State.closeValue
  split
  · rfl
  next x hx =>
    split_ifs with hrel hcontext
    · obtain ⟨value, hashCode, context, released⟩ := x
      obtain rfl : released = true := hrel
      rw [← hx, Function.update_eq_self]
    · cases finalize <;> rfl
    · rfl

theorem heap_closeValue_of_ne {h r : Ref} (hr : r ≠ h) (finalize : Bool) :
    (s.closeValue h finalize).heap r = s.heap r := by
  rw [heap_closeValue]
  cases s.heap h with
  | none => rfl
  | some x => exact Function.update_of_ne hr _ _

theorem released_closeValue {h : Ref} {finalize : Bool} {y : Handle Obj}
    (hy : (s.closeValue h finalize).heap h = some y) : y.released = true := by
  rw [heap_closeValue] at hy
  cases hx : s.heap h with
  | none => simp [hx] at hy
  | some x =>
    simp only [hx, Function.update_self, Option.some.injEq] at hy
    exact hy ▸ rfl

/-- A closed handle keeps its context. -/
theorem hasContext_closeValue {h : Ref} {finalize : Bool}
    (hcontext : ∀ r x, s.heap r = some x → x.context = true) (r : Ref) (y : Handle Obj)
    (hy : (s.closeValue h finalize).heap r = some y) : y.context = true := by
  rw [heap_closeValue] at hy
  cases hx : s.heap h with
  | none => exact hcontext r y (by simpa [hx] using hy)
  | some x =>
    simp only [hx] at hy
    by_cases hr : r = h
    · simp only [hr, Function.update_self, Option.some.injEq] at hy
      exact hy ▸ hcontext h x hx
    · rw [Function.update_of_ne hr] at hy
      exact hcontext r y hy

theorem phase_closeValue (s : State Ref Obj) (h : Ref) (finalize : Bool) :
    (s.closeValue h finalize).phase = s.phase := by
  unfold State.closeValue
  split
  · rfl
  · split_ifs <;> cases finalize <;> rfl

theorem pool_closeValue (s : State Ref Obj) (h : Ref) :
    (s.closeValue h false).releaseObjPtrPool = s.releaseObjPtrPool := by
  unfold State.closeValue
  split
  · rfl
  · split_ifs <;> rfl

/-- Nothing happens to a released handle. -/
theorem closeValue_of_released {h : Ref} (hrel : ∀ x, s.heap h = some x → x.released = true)
    (finalize : Bool) : s.closeValue h finalize = s := by
  unfold State.closeValue
  split
  · rfl
  next x hx => rw [if_pos (hrel x hx)]

theorem Inv.closeValue (hi : Inv context s) {h : Ref} (hne : s.phase = .drained → h ≠ context)
    (finalize : Bool) : Inv context (s.closeValue h finalize) := by
  refine ⟨hi.books.closeValue (hi.hasContext h) finalize, fun o => ?_,
    hasContext_closeValue hi.hasContext, ?_⟩
  · rw [surplus_closeValue hi.books (hi.hasContext h)]
    exact hi.surplus o
  · have hphase := hi.phase
    unfold PhaseOk at hphase ⊢
    rw [phase_closeValue]
    split at hphase
    next => trivial
    next jsValues hv =>
      intro r y hy hr hrel
      by_cases hrh : r = h
      · subst hrh
        simp [released_closeValue hy] at hrel
      · rw [heap_closeValue_of_ne hrh] at hy
        exact hphase r y hy hr hrel
    next hv =>
      rw [closeValue_of_released fun x hx => hphase.2 h x hx (hne hv)]
      exact hphase
    next hv =>
      rw [closeValue_of_released fun x hx => hphase.2 h x hx]
      exact hphase

theorem Inv.checkReleaseObjPtrPool (hi : Inv context s) :
    Inv context s.checkReleaseObjPtrPool := by
  obtain ⟨hheap, -, -, -, -, hphase⟩ := releaseAll_frame s.releaseObjPtrPool s
  have hheap' : s.checkReleaseObjPtrPool.heap = s.heap := hheap
  have hphase' : s.checkReleaseObjPtrPool.phase = s.phase := hphase
  refine ⟨hi.books.checkReleaseObjPtrPool, fun o => ?_, ?_, ?_⟩
  · rw [surplus_checkReleaseObjPtrPool]
    exact hi.surplus o
  · rw [hheap']
    exact hi.hasContext
  · have hok := hi.phase
    unfold PhaseOk at hok ⊢
    rw [hphase', hheap']
    split at hok
    next => trivial
    next => exact hok
    next => exact ⟨rfl, hok.2⟩
    next => exact ⟨rfl, hok.2⟩

theorem phase_createJSValue (s : State Ref Obj) (h : Ref) (v : Value Obj) (hashCode : Int)
    (found : Bool) : (s.createJSValue h v hashCode found).phase = s.phase := by
  cases found <;> rfl

theorem heap_createJSValue (s : State Ref Obj) (h : Ref) (v : Value Obj) (hashCode : Int)
    (found : Bool) : (s.createJSValue h v hashCode found).heap = Function.update s.heap h
      (some ⟨v, if v = .undefined then typeUndefined else hashCode, found, v = .undefined⟩) := by
  cases found <;> rfl

theorem hasContext_createJSValue {h : Ref} {v : Value Obj} {hashCode : Int}
    (hcontext : ∀ r x, s.heap r = some x → x.context = true) (r : Ref) (y : Handle Obj)
    (hy : (s.createJSValue h v hashCode true).heap r = some y) : y.context = true := by
  rw [heap_createJSValue] at hy
  by_cases hr : r = h
  · simp only [hr, Function.update_self, Option.some.injEq] at hy
    exact hy ▸ rfl
  · rw [Function.update_of_ne hr] at hy
    exact hcontext r y hy

omit [DecidableEq Ref] [DecidableEq Obj] in
theorem phaseOk_of_opened (hphase : s.phase = .opened) : PhaseOk context s := by
  simp only [PhaseOk, hphase]

/-- A native function's result becomes a handle. -/
theorem Inv.createJSValue (hi : Inv context s) (hphase : s.phase = .opened) {h : Ref}
    (hnone : s.heap h = none) (v : Value Obj) (hashCode : Int) :
    Inv context ((s.addReference v).createJSValue h v hashCode true) := by
  refine ⟨(hi.books.addReference v).createJSValue hnone v hashCode true, fun o => ?_,
    hasContext_createJSValue hi.hasContext, phaseOk_of_opened ?_⟩
  · rw [surplus_createJSValue (hi.books.addReference v) hnone, surplus_addReference, hi.surplus]
    omega
  · rw [phase_createJSValue]
    exact hphase

section Callback

variable {objectHandle argsHandle : Ref} (thisVal : Value Obj) (args : Obj)
  (objectHash argsHash : Int) (found : Bool)

theorem heap_argsHandle (hargs : s.heap argsHandle = none) (hne : objectHandle ≠ argsHandle) :
    ((s.addReference (.counted args)).createJSValue objectHandle thisVal objectHash found).heap
      argsHandle = none := by
  rw [heap_createJSValue, Function.update_of_ne hne.symm]
  exact hargs

theorem Books.callbackHandles (hb : Books s) (hobject : s.heap objectHandle = none)
    (hargs : s.heap argsHandle = none) (hne : objectHandle ≠ argsHandle) :
    Books (callbackHandles s objectHandle argsHandle thisVal args objectHash argsHash found) :=
  ((hb.addReference _).createJSValue hobject thisVal objectHash found).createJSValue
    (heap_argsHandle thisVal args objectHash found hargs hne) _ argsHash found

/-- The reference of the receiver's handle is still missing. -/
theorem surplus_callbackHandles (hb : Books s) (hobject : s.heap objectHandle = none)
    (hargs : s.heap argsHandle = none) (hne : objectHandle ≠ argsHandle) (o : Obj) :
    (callbackHandles s objectHandle argsHandle thisVal args objectHash argsHash found).surplus o =
      s.surplus o - thisVal.references o := by
  rw [Handles.callbackHandles, surplus_createJSValue
    ((hb.addReference _).createJSValue hobject thisVal objectHash found)
    (heap_argsHandle thisVal args objectHash found hargs hne),
    surplus_createJSValue (hb.addReference _) hobject, surplus_addReference]
  omega

end Callback

theorem Inv.callJavaCallback (hi : Inv context s) (hphase : s.phase = .opened)
    {objectHandle argsHandle : Ref} (hobject : s.heap objectHandle = none)
    (hargs : s.heap argsHandle = none) (hne : objectHandle ≠ argsHandle) (thisVal : Value Obj)
    (args : Obj) (objectHash argsHash : Int) : Inv context
      ((callbackHandles s objectHandle argsHandle thisVal args objectHash argsHash
        true).addReference thisVal) := by
  refine ⟨(hi.books.callbackHandles thisVal args objectHash argsHash true hobject hargs
    hne).addReference thisVal, fun o => ?_, ?_, phaseOk_of_opened ?_⟩
  · rw [surplus_addReference, surplus_callbackHandles thisVal args objectHash argsHash true hi.books
      hobject hargs hne, hi.surplus]
    omega
  · exact hasContext_createJSValue (hasContext_createJSValue hi.hasContext)
  · show (callbackHandles _ _ _ _ _ _ _ _).phase = _
    rw [callbackHandles, phase_createJSValue, phase_createJSValue]
    exact hphase

theorem Inv.transfer (hi : Inv context s) (hphase : s.phase = .opened) {h value : Ref}
    {x : Handle Obj} (hnone : s.heap h = none) (hx : s.heap value = some x)
    (hrel : x.released = false) (hashCode : Int) : Inv context
      (((handOver s h value x hashCode).removeObjRef x.hashCode).addObjRef h
        hashCode).checkReleaseObjPtrPool := by
  refine Inv.checkReleaseObjPtrPool ⟨?_, fun o => ?_, fun r y hy => ?_, phaseOk_of_opened hphase⟩
  · have hb := hi.books.handOver hnone hx hrel hashCode
    exact ⟨hb.nodup, hb.mem_created, hb.defined, hb.fates⟩
  · exact (surplus_handOver hi.books hnone hx hrel hashCode o).trans (hi.surplus o)
  · replace hy : (handOver s h value x hashCode).heap r = some y := hy
    simp only [handOver, State.allocate, State.setReleased] at hy
    by_cases hr : r = h
    · simp only [hr, Function.update_self, Option.some.injEq] at hy
      exact hy ▸ rfl
    · rw [Function.update_of_ne hr] at hy
      by_cases hv : r = value
      · simp only [hv, Function.update_self, Option.some.injEq] at hy
        exact hy ▸ hi.hasContext value x hx
      · rw [Function.update_of_ne hv] at hy
        exact hi.hasContext r y hy

/-- What the engine does with its own references. -/
theorem Inv.engine (hi : Inv context s) (hb : Books s') (hheap : s'.heap = s.heap)
    (hphase : s'.phase = s.phase) (hpool : s'.releaseObjPtrPool = s.releaseObjPtrPool)
    (hsurplus : ∀ o, s'.surplus o = s.surplus o) : Inv context s' := by
  refine ⟨hb, fun o => (hsurplus o).trans (hi.surplus o), ?_, ?_⟩
  · rw [hheap]
    exact hi.hasContext
  · have hok := hi.phase
    unfold PhaseOk at hok ⊢
    rw [hphase, hheap, hpool]
    exact hok

theorem Inv.dup (hi : Inv context s) (o : Obj) : Inv context { s.addReference (.counted o) with
    engineHeld := Function.update s.engineHeld o (s.engineHeld o + 1) } := by
  refine hi.engine ⟨hi.books.nodup, hi.books.mem_created, hi.books.defined, hi.books.fates⟩ rfl rfl
    rfl fun r => ?_
  show s.refCount r + (Value.counted o).references r -
    ((Function.update s.engineHeld o (s.engineHeld o + 1) r + s.live r + s.pooled r : Nat) : Int) = _
  rw [State.surplus]
  by_cases hr : r = o
  · subst hr
    simp only [Value.references, if_true, Function.update_self]
    omega
  · have hne : Value.counted o ≠ .counted r := fun h => hr (by cases h; rfl)
    simp only [Value.references, hne, if_false, Function.update_of_ne hr]
    omega

theorem Inv.free (hi : Inv context s) {o : Obj} (hheld : s.engineHeld o ≠ 0) : Inv context { s with
    refCount := Function.update s.refCount o (s.refCount o - 1)
    engineHeld := Function.update s.engineHeld o (s.engineHeld o - 1) } := by
  refine hi.engine ⟨hi.books.nodup, hi.books.mem_created, hi.books.defined, hi.books.fates⟩ rfl rfl
    rfl fun r => ?_
  show Function.update s.refCount o (s.refCount o - 1) r -
    ((Function.update s.engineHeld o (s.engineHeld o - 1) r + s.live r + s.pooled r : Nat) : Int) = _
  rw [State.surplus]
  by_cases hr : r = o
  · subst hr
    simp only [Function.update_self]
    omega
  · simp only [Function.update_of_ne hr]

/-- A move to another phase. -/
theorem Inv.setPhase (hi : Inv context s) {phase : Phase Ref}
    (hok : PhaseOk context { s with phase := phase }) : Inv context { s with phase := phase } :=
  ⟨⟨hi.books.nodup, hi.books.mem_created, hi.books.defined, hi.books.fates⟩, hi.surplus,
    hi.hasContext, hok⟩

theorem Inv.removeObjRef (hi : Inv context s) (hashCode : Int) :
    Inv context (s.removeObjRef hashCode) :=
  ⟨⟨hi.books.nodup, hi.books.mem_created, hi.books.defined, hi.books.fates⟩, hi.surplus,
    hi.hasContext, hi.phase⟩

theorem Inv.startClose (hi : Inv context s) {order : List Ref}
    (hok : StepOk context global s (.startClose order)) (hperm : order.Perm (s.refs.map Prod.snd)) :
    Inv context { s with phase := .closing order } := by
  refine hi.setPhase fun h x hx hne hrel => ?_
  have hmem : h ∈ s.refs.map Prod.snd := List.mem_map.2 ⟨_, hok h x hx hne hrel, rfl⟩
  exact hperm.mem_iff.2 hmem

theorem Inv.closeNext (hi : Inv context s) {h : Ref} {jsValues : List Ref}
    (hv : s.phase = .closing (h :: jsValues)) :
    Inv context { s.closeValue h false with phase := .closing jsValues } := by
  have hne : s.phase = .drained → h ≠ context := by simp [hv]
  refine (hi.closeValue hne false).setPhase fun r y hy hr hrel => ?_
  -- the one that was to come next is released
  have hrh : r ≠ h := by
    rintro rfl
    simp [released_closeValue hy] at hrel
  have hok := hi.phase
  simp only [PhaseOk, hv] at hok
  have hold : s.heap r = some y := by rw [← heap_closeValue_of_ne hrh]; exact hy
  exact (List.mem_cons.1 (hok r y hold hr hrel)).resolve_left hrh

theorem Inv.closePool (hi : Inv context s) (hv : s.phase = .closing []) :
    Inv context { s.checkReleaseObjPtrPool with phase := .drained } := by
  obtain ⟨hheap, -⟩ := releaseAll_frame s.releaseObjPtrPool s
  refine hi.checkReleaseObjPtrPool.setPhase ⟨rfl, fun h x hx hne => ?_⟩
  replace hx : (s.releaseAll s.releaseObjPtrPool).heap h = some x := hx
  rw [hheap] at hx
  have hok := hi.phase
  simp only [PhaseOk, hv] at hok
  cases hrel : x.released with
  | true => rfl
  | false => simpa using hok h x hx hne hrel

theorem Inv.closeGlobal (hi : Inv context s) (hv : s.phase = .drained) :
    Inv context { s.closeValue context false with phase := .closed } := by
  have hok := hi.phase
  simp only [PhaseOk, hv] at hok
  have hb := hi.books.closeValue (hi.hasContext context) false
  refine ⟨⟨hb.nodup, hb.mem_created, hb.defined, hb.fates⟩, fun o => ?_,
    hasContext_closeValue hi.hasContext, (pool_closeValue s context).trans hok.1, fun r y hy => ?_⟩
  · exact (surplus_closeValue hi.books (hi.hasContext context) false o).trans (hi.surplus o)
  · replace hy : (s.closeValue context false).heap r = some y := hy
    by_cases hr : r = context
    · subst hr
      exact released_closeValue hy
    · rw [heap_closeValue_of_ne hr] at hy
      exact hok.2 r y hy hr

theorem inv_step {a : Action Ref Obj} (hi : Inv context s) (hok : StepOk context global s a)
    (hs : step context global s a = some s') : Inv context s' := by
  cases takes_of_step hs with
  | createJSValue hphase hnone =>
    simp only [StepOk] at hok
    subst hok
    exact hi.createJSValue hphase hnone _ _
  | callJavaCallback hphase hobject hargs hne =>
    obtain ⟨rfl, hthis⟩ := hok
    rw [if_neg hthis]
    exact hi.callJavaCallback hphase hobject hargs hne _ _ _ _
  | transfer hphase hnone hvalue hx => exact hi.transfer hphase hnone hx (hok _ hx) _
  | close hh => exact hi.closeValue (fun _ => hh) false
  | finalize hh => exact hi.closeValue (fun _ => hh) true
  | evict => exact hi.removeObjRef _
  | checkReleased => exact hi.checkReleaseObjPtrPool
  | dup => exact hi.dup _
  | free hheld => exact hi.free hheld
  | startClose hphase hperm => exact hi.startClose hok hperm
  | closeNext hv => exact hi.closeNext hv
  | closePool hv => exact hi.closePool hv
  | closeGlobal hv => exact hi.closeGlobal hv

/-! ## Every run -/

/-- Each live handle owns a reference of its own, which is given back or handed over once, and is
given back when `close` has ended. -/
structure Accounted (s : State Ref Obj) : Prop where
  owns : ∀ o, s.refCount o = ((s.engineHeld o + s.live o + s.pooled o : Nat) : Int)
  neverBelow : ∀ o, (s.live o : Int) ≤ s.refCount o
  once : ∀ h, s.calls h + s.moved h ≤ 1
  notBefore : ∀ h x, s.heap h = some x → x.released = false → s.calls h + s.moved h = 0
  atEnd : s.phase = .closed → ∀ h x, s.heap h = some x → x.value ≠ .undefined →
    s.calls h + s.moved h = 1

omit [DecidableEq Ref] in
theorem due_le_one (s : State Ref Obj) (h : Ref) : s.due h ≤ 1 := by
  unfold State.due
  split
  · split_ifs <;> omega
  · omega

/-- **Every reference is accounted for**, in every run of such steps. -/
theorem accounted {engineHeld : Obj → Nat} {hashCode : Int}
    (h : Reaches (step context global) (StepOk context global)
      (start context global engineHeld hashCode) s) : Accounted s := by
  have hinv : Inv context s := h.invariant (Inv context)
    (inv_start context global engineHeld hashCode) fun s a s' hi hok hs => inv_step hi hok hs
  have howns : ∀ o, s.refCount o = ((s.engineHeld o + s.live o + s.pooled o : Nat) : Int) := by
    intro o
    have hzero := hinv.surplus o
    rw [State.surplus] at hzero
    omega
  refine ⟨howns, fun o => ?_, fun r => ?_, fun r x hx hrel => ?_, fun hclosed r x hx hvalue => ?_⟩
  · have ho := howns o
    omega
  · have hfate := hinv.books.fates r
    have hdue := due_le_one s r
    omega
  · have hfate := hinv.books.fates r
    simp only [State.due, hx, hrel, Bool.false_eq_true, false_and, if_false] at hfate
    omega
  · have hfate := hinv.books.fates r
    have hok := hinv.phase
    simp only [PhaseOk, hclosed] at hok
    have hpool : s.poolEntries r = 0 := by simp [State.poolEntries, hok.1]
    simp only [State.due, hx, hok.2 r x hx, hvalue, ne_eq, not_false_eq_true, and_self,
      if_true] at hfate
    omega

/-- A callback keeps the count right if and only if it is not called on the global object. -/
theorem owns_iff (hi : Inv context s) {objectHandle argsHandle : Ref} {thisVal : Value Obj}
    {args : Obj} {objectHash argsHash : Int} {found : Bool} (hs : step context global s
      (.callJavaCallback objectHandle argsHandle thisVal args objectHash argsHash found) = some s') :
    (∀ o, s'.surplus o = 0) ↔ thisVal ≠ .counted global := by
  cases takes_of_step hs with
  | callJavaCallback hphase hobject hargs hne =>
    have hhandles := surplus_callbackHandles thisVal args objectHash argsHash found hi.books hobject
      hargs hne
    by_cases hthis : thisVal = .counted global
    · have hmissing := hhandles global
      simp only [hi.surplus, hthis, Value.references, if_true] at hmissing
      refine iff_of_false (fun hzero => ?_) (not_not_intro hthis)
      have hglobal := hzero global
      simp only [hthis, if_true] at hglobal
      omega
    · refine iff_of_true (fun o => ?_) hthis
      rw [if_neg hthis, surplus_addReference, hhandles, hi.surplus]
      omega

/-! ## `close` ends -/

/-- The steps of `close`, which takes the values of `refs` in some order. -/
def closeSteps (order : List Ref) : List (Action Ref Obj) :=
  .startClose order :: (List.replicate order.length .closeNext ++ [.closePool, .closeGlobal])

/-- The loop comes to its end. -/
theorem closeNext_run (context : Ref) (global : Obj) (jsValues : List Ref) :
    ∀ s : State Ref Obj, s.phase = .closing jsValues →
      ∃ s', run (step context global) s (List.replicate jsValues.length .closeNext) = some s' ∧
        s'.phase = .closing [] := by
  induction jsValues with
  | nil => exact fun s hs => ⟨s, rfl, hs⟩
  | cons h jsValues ih =>
    intro s hs
    obtain ⟨s', hrun, hphase⟩ := ih { s.closeValue h false with phase := .closing jsValues } rfl
    refine ⟨s', ?_, hphase⟩
    simp only [List.length_cons, List.replicate_succ, run, step, hs]
    exact hrun

/-- `close` comes to its end by its own steps. -/
theorem close_ends (context : Ref) (global : Obj) {order : List Ref} (hs : s.phase = .opened)
    (horder : order.Perm (s.refs.map Prod.snd)) :
    ∃ s', run (step context global) s (closeSteps order) = some s' ∧ s'.phase = .closed := by
  have hstart : step context global s (.startClose order) =
      some { s with phase := .closing order } := by
    simp only [step, hs, List.isPerm_iff.2 horder, true_and, if_true]
  obtain ⟨t, hrun, ht⟩ := closeNext_run context global order { s with phase := .closing order } rfl
  refine ⟨{ State.closeValue { t.checkReleaseObjPtrPool with phase := .drained } context false with
    phase := .closed }, ?_, rfl⟩
  simp only [closeSteps, run, hstart]
  rw [run_append hrun]
  simp only [run, step, ht]

/-! ## Where `close` finds every handle -/

/-- A handle that is to be found in `refs`. -/
def Wanted (context : Ref) (s : State Ref Obj) (h : Ref) (x : Handle Obj) : Prop :=
  s.heap h = some x ∧ h ≠ context ∧ x.released = false

def Listed (context : Ref) (s : State Ref Obj) : Prop :=
  ∀ h x, Wanted context s h x → (x.hashCode, h) ∈ s.refs

def Distinct (context : Ref) (s : State Ref Obj) : Prop :=
  ∀ h h' x x', Wanted context s h x → Wanted context s h' x' → x.hashCode = x'.hashCode → h = h'

/-- No handle that is not released has the hash code. -/
def Unused (context : Ref) (s : State Ref Obj) (hashCode : Int) : Prop :=
  ∀ h x, Wanted context s h x → x.hashCode ≠ hashCode

/-- The hash code of what is made of a value. -/
def hashOf (v : Value Obj) (hashCode : Int) : Int := if v = .undefined then typeUndefined else hashCode

/-- No new handle has the hash code of one that is not released, and no entry of such a one is
dropped. -/
def HashOk (context : Ref) (s : State Ref Obj) : Action Ref Obj → Prop
  | .createJSValue _ value hashCode _ => Unused context s (hashOf value hashCode)
  | .callJavaCallback _ _ thisVal _ objectHash argsHash _ =>
    Unused context s (hashOf thisVal objectHash) ∧ Unused context s argsHash ∧
      hashOf thisVal objectHash ≠ argsHash
  | .transfer _ _ hashCode => Unused context s hashCode
  | .evict hashCode => Unused context s hashCode
  | _ => True

omit [DecidableEq Ref] [DecidableEq Obj] in
theorem mem_removeObjRef {k : Int} {e : Int × Ref} :
    e ∈ (s.removeObjRef k).refs ↔ e ∈ s.refs ∧ e.1 ≠ k := by
  simp [State.removeObjRef]

omit [DecidableEq Ref] [DecidableEq Obj] in
theorem mem_addObjRef {h : Ref} {k : Int} {e : Int × Ref} :
    e ∈ (s.addObjRef h k).refs ↔ e = (k, h) ∨ e ∈ s.refs ∧ e.1 ≠ k := by
  simp [State.addObjRef]

omit [DecidableEq Obj] in
/-- Of the handles that are not released after a step, each was so before, or is new under a hash
code that is not used; what is used stays in `refs`. -/
theorem listed_of_allocate {h : Ref} {y : Handle Obj} (hlisted : Listed context s ∧ Distinct context s)
    (hheap : s'.heap = Function.update s.heap h (some y)) (hunused : Unused context s y.hashCode)
    (hrefs : ∀ e, e = (y.hashCode, h) ∨ e ∈ s.refs ∧ e.1 ≠ y.hashCode → e ∈ s'.refs) :
    Listed context s' ∧ Distinct context s' := by
  have hcases : ∀ r x, Wanted context s' r x → r = h ∧ x = y ∨ Wanted context s r x := by
    rintro r x ⟨hx, hr, hrel⟩
    rw [hheap] at hx
    by_cases hrh : r = h
    · simp only [hrh, Function.update_self, Option.some.injEq] at hx
      exact Or.inl ⟨hrh, hx.symm⟩
    · rw [Function.update_of_ne hrh] at hx
      exact Or.inr ⟨hx, hr, hrel⟩
  refine ⟨fun r x hw => hrefs _ ?_, fun r r' x x' hw hw' heq => ?_⟩
  · rcases hcases r x hw with ⟨rfl, rfl⟩ | hold
    · exact Or.inl rfl
    · exact Or.inr ⟨hlisted.1 r x hold, hunused r x hold⟩
  · obtain ⟨rfl, rfl⟩ | hold := hcases r x hw <;> obtain ⟨rfl, rfl⟩ | hold' := hcases r' x' hw'
    · rfl
    · exact (hunused r' x' hold' heq.symm).elim
    · exact (hunused r x hold heq).elim
    · exact hlisted.2 r r' x x' hold hold' heq

theorem listed_createJSValue (hlisted : Listed context s ∧ Distinct context s) {h : Ref}
    {v : Value Obj} {hashCode : Int} (hunused : Unused context s (hashOf v hashCode)) :
    Listed context (s.createJSValue h v hashCode true) ∧
      Distinct context (s.createJSValue h v hashCode true) :=
  listed_of_allocate hlisted (heap_createJSValue s h v hashCode true) hunused
    fun _ he => mem_addObjRef.2 he

omit [DecidableEq Obj] in
/-- What a handle that is released leaves. -/
theorem listed_of_released (hlisted : Listed context s ∧ Distinct context s) {h : Ref}
    {x : Handle Obj} (hx : Wanted context s h x)
    (hheap : s'.heap = Function.update s.heap h (some { x with released := true }))
    (hrefs : ∀ e ∈ s.refs, e.1 ≠ x.hashCode → e ∈ s'.refs) :
    Listed context s' ∧ Distinct context s' := by
  have hcases : ∀ r y, Wanted context s' r y → r ≠ h ∧ Wanted context s r y := by
    rintro r y ⟨hy, hr, hrel⟩
    rw [hheap] at hy
    have hrh : r ≠ h := by
      rintro rfl
      simp only [Function.update_self, Option.some.injEq] at hy
      simp [← hy] at hrel
    rw [Function.update_of_ne hrh] at hy
    exact ⟨hrh, hy, hr, hrel⟩
  refine ⟨fun r y hw => ?_, fun r r' y y' hw hw' heq =>
    hlisted.2 r r' y y' (hcases r y hw).2 (hcases r' y' hw').2 heq⟩
  -- the hash code removed is not that of another one
  obtain ⟨hrh, hold⟩ := hcases r y hw
  exact hrefs _ (hlisted.1 r y hold) fun heq => hrh (hlisted.2 r h y x hold hx heq)

theorem listed_closeValue (hlisted : Listed context s ∧ Distinct context s) {h : Ref}
    (hne : h ≠ context) (finalize : Bool) :
    Listed context (s.closeValue h finalize) ∧ Distinct context (s.closeValue h finalize) := by
  cases hx : s.heap h with
  | none =>
    rw [closeValue_of_released fun x hsome => by simp [hx] at hsome]
    exact hlisted
  | some x =>
    cases hrel : x.released with
    | true =>
      rw [closeValue_of_released fun y hy => by rw [← Option.some.inj (hx.symm.trans hy), hrel]]
      exact hlisted
    | false =>
      refine listed_of_released hlisted ⟨hx, hne, hrel⟩ ?_ fun e he hk => ?_
      · rw [heap_closeValue, hx]
      · simp only [State.closeValue, hx, hrel, Bool.false_eq_true, if_false]
        split_ifs
        · cases finalize <;> exact mem_removeObjRef.2 ⟨he, hk⟩
        · exact he

omit [DecidableEq Ref] [DecidableEq Obj] in
theorem listed_congr (hlisted : Listed context s ∧ Distinct context s) (hheap : s'.heap = s.heap)
    (hrefs : s'.refs = s.refs) : Listed context s' ∧ Distinct context s' := by
  unfold Listed Distinct Wanted at *
  rw [hheap, hrefs]
  exact hlisted

omit [DecidableEq Obj] in
theorem listed_transfer (hlisted : Listed context s ∧ Distinct context s) {h value : Ref}
    {x : Handle Obj} (hx : Wanted context s value x) {hashCode : Int}
    (hunused : Unused context s hashCode) :
    Listed context (((handOver s h value x hashCode).removeObjRef x.hashCode).addObjRef h hashCode) ∧
      Distinct context
        (((handOver s h value x hashCode).removeObjRef x.hashCode).addObjRef h hashCode) := by
  have hmid : Listed context ((s.setReleased value x).removeObjRef x.hashCode) ∧
      Distinct context ((s.setReleased value x).removeObjRef x.hashCode) :=
    listed_of_released hlisted hx rfl fun _ he hk => mem_removeObjRef.2 ⟨he, hk⟩
  refine listed_of_allocate (y := ⟨x.value, hashCode, true, false⟩) hmid rfl ?_
    fun _ he => mem_addObjRef.2 he
  rintro r y ⟨hy, hr, hrel⟩
  by_cases hv : r = value
  · subst hv
    simp only [State.removeObjRef, State.setReleased, Function.update_self, Option.some.injEq] at hy
    simp [← hy] at hrel
  · simp only [State.removeObjRef, State.setReleased, Function.update_of_ne hv] at hy
    exact hunused r y ⟨hy, hr, hrel⟩

theorem listed_callbackHandles (hlisted : Listed context s ∧ Distinct context s)
    {objectHandle argsHandle : Ref} {thisVal : Value Obj} {args : Obj} {objectHash argsHash : Int}
    (hobject : Unused context s (hashOf thisVal objectHash)) (hargs : Unused context s argsHash)
    (hdiff : hashOf thisVal objectHash ≠ argsHash) :
    Listed context
        (callbackHandles s objectHandle argsHandle thisVal args objectHash argsHash true) ∧
      Distinct context
        (callbackHandles s objectHandle argsHandle thisVal args objectHash argsHash true) := by
  have hfirst := listed_createJSValue (s := s.addReference (.counted args)) (h := objectHandle)
    hlisted hobject
  refine listed_createJSValue hfirst ?_
  rintro r y ⟨hy, hr, hrel⟩
  rw [heap_createJSValue] at hy
  by_cases ho : r = objectHandle
  · simp only [ho, Function.update_self, Option.some.injEq] at hy
    exact hy ▸ hdiff
  · rw [Function.update_of_ne ho] at hy
    exact hargs r y ⟨hy, hr, hrel⟩

/-- **`close` finds every handle** where the hash codes are distinct and no entry is dropped. -/
theorem listed_step {a : Action Ref Obj} (hlisted : Listed context s ∧ Distinct context s)
    (hopened : s'.phase = .opened) (hok : StepOk context global s a) (hhash : HashOk context s a)
    (hs : step context global s a = some s') : Listed context s' ∧ Distinct context s' := by
  obtain ⟨hheap, -, hrefs, -⟩ := releaseAll_frame s.releaseObjPtrPool s
  cases takes_of_step hs with
  | @createJSValue h value hashCode found =>
    simp only [StepOk] at hok
    subst hok
    exact listed_createJSValue (s := s.addReference value) hlisted hhash
  | callJavaCallback =>
    obtain ⟨rfl, hthis⟩ := hok
    rw [if_neg hthis]
    exact listed_callbackHandles hlisted hhash.1 hhash.2.1 hhash.2.2
  | @transfer h value hashCode x hphase hnone hvalue hx =>
    obtain ⟨hheap, -, hrefs, -⟩ := releaseAll_frame s.releaseObjPtrPool
      (((handOver s h value x hashCode).removeObjRef x.hashCode).addObjRef h hashCode)
    exact listed_congr (listed_transfer hlisted ⟨hx, hvalue, hok x hx⟩ hhash) hheap hrefs
  | close hh => exact listed_closeValue hlisted hh false
  | finalize hh => exact listed_closeValue hlisted hh true
  | evict =>
    exact ⟨fun h x hw => mem_removeObjRef.2 ⟨hlisted.1 h x hw, hhash h x hw⟩, hlisted.2⟩
  | checkReleased => exact listed_congr hlisted hheap hrefs
  | dup | free => exact hlisted
  | startClose | closeNext | closePool | closeGlobal => simp at hopened

/-! ## Handles that `close` does not find -/

/-- The handle is in none of the places from which `close` takes what it closes. -/
def Overlooked (h : Ref) (x : Handle Obj) (s : State Ref Obj) : Prop :=
  s.heap h = some x ∧ s.phase ≠ .opened ∧ ∀ jsValues, s.phase = .closing jsValues → h ∉ jsValues

theorem overlooked_closeValue {h r : Ref} {x : Handle Obj} (ho : Overlooked h x s) (hr : h ≠ r)
    (finalize : Bool) : Overlooked h x (s.closeValue r finalize) := by
  refine ⟨(heap_closeValue_of_ne hr finalize).trans ho.1, ?_, ?_⟩
  · rw [phase_closeValue]
    exact ho.2.1
  · rw [phase_closeValue]
    exact ho.2.2

theorem overlooked_step {a : Action Ref Obj} {h : Ref} {x : Handle Obj} (hne : h ≠ context)
    (ho : Overlooked h x s) (ha : a ≠ .close h ∧ a ≠ .finalize h)
    (hs : step context global s a = some s') : Overlooked h x s' := by
  obtain ⟨hheap, -, -, -, -, hphase⟩ := releaseAll_frame s.releaseObjPtrPool s
  have hpool : Overlooked h x s.checkReleaseObjPtrPool :=
    ⟨(congrFun hheap h).trans ho.1, fun hp => ho.2.1 (hphase.symm.trans hp),
      fun l hl => ho.2.2 l (hphase.symm.trans hl)⟩
  cases takes_of_step hs with
  | createJSValue hp | callJavaCallback hp | transfer hp | startClose hp => exact (ho.2.1 hp).elim
  | close => exact overlooked_closeValue ho (fun hr => ha.1 (hr ▸ rfl)) false
  | finalize => exact overlooked_closeValue ho (fun hr => ha.2 (hr ▸ rfl)) true
  | evict | dup | free => exact ho
  | checkReleased => exact hpool
  | @closeNext r jsValues hv =>
    have hnot := ho.2.2 _ hv
    have hr : h ≠ r := fun hr => hnot (hr ▸ List.mem_cons_self)
    refine ⟨(overlooked_closeValue ho hr false).1, by simp, fun l hl hmem => ?_⟩
    obtain rfl : jsValues = l := by simpa using hl
    exact hnot (List.mem_cons_of_mem r hmem)
  | closePool => exact ⟨hpool.1, by simp, by simp⟩
  | closeGlobal => exact ⟨(overlooked_closeValue ho hne false).1, by simp, by simp⟩

/-- A handle that `refs` does not hold when `close` begins is not released by it. -/
theorem missed {h : Ref} {x : Handle Obj} {order : List Ref} {s₁ s₂ : State Ref Obj}
    (hne : h ≠ context) (hx : s.heap h = some x) (hnot : h ∉ s.refs.map Prod.snd)
    (hs : step context global s (.startClose order) = some s₁)
    (hrun : Reaches (step context global) (fun _ a => a ≠ .close h ∧ a ≠ .finalize h) s₁ s₂) :
    s₂.heap h = some x := by
  have hstart : Overlooked h x s₁ := by
    cases takes_of_step hs with
    | startClose hphase hperm =>
      refine ⟨hx, by simp, fun l hl hmem => ?_⟩
      obtain rfl : order = l := by simpa using hl
      exact hnot (hperm.mem_iff.1 hmem)
  have hend : Overlooked h x s₂ := hrun.invariant (Overlooked h x) hstart
    fun s a s' ho ha hs => overlooked_step hne ho ha hs
  exact hend.1

/-! ## Runs -/

/-- An object is made by `JSObject(context)` and used as the receiver of a callback, whose handle is
dropped and finalized. -/
def receiverFinalized : List (Action Nat Nat) :=
  [.createJSValue 1 (.counted 5) 1000 true, .transfer 2 1 2000,
    .callJavaCallback 3 4 (.counted 5) 6 3000 4000 true, .evict 3000, .finalize 3]

theorem accounted_receiverFinalized :
    ∃ s, Reaches (step 0 0) (StepOk 0 0) (start 0 0 (fun _ => 1) 7) s ∧ s.phase = .closed ∧
      Accounted s := by
  have hmeets : Meets (step 0 0) (StepOk 0 0) (start 0 0 (fun _ => 1) 7) receiverFinalized := by
    refine ⟨rfl, fun x hx => ?_, ⟨rfl, by simp⟩, trivial, trivial, trivial⟩
    cases hx
    rfl
  have hrun : (run (step 0 0) (start 0 0 (fun _ => 1) 7) receiverFinalized).map (fun s =>
      ((s.phase, s.created), s.refs, s.created.map s.heap)) = some ((.opened, [4, 3, 2, 1, 0]),
        [(4000, 4), (2000, 2)], [some ⟨.counted 6, 4000, true, false⟩,
          some ⟨.counted 5, 3000, true, true⟩, some ⟨.counted 5, 2000, true, false⟩,
          some ⟨.counted 5, 1000, true, true⟩, some ⟨.counted 0, 7, true, false⟩]) := by
    decide +kernel
  obtain ⟨t, ht, hfields⟩ := Option.map_eq_some_iff.1 hrun
  simp only [Prod.mk.injEq] at hfields
  obtain ⟨⟨hphase, hcreated⟩, hrefs, hheap⟩ := hfields
  have hreach := reaches_of_run ht hmeets
  have hinv : Inv 0 t := hreach.invariant (Inv 0) (inv_start 0 0 _ 7)
    fun s a s' hi hok hs => inv_step hi hok hs
  simp only [hcreated, List.map_cons, List.map_nil, List.cons.injEq, and_true] at hheap
  obtain ⟨h4, h3, h2, h1, -⟩ := hheap
  -- `close` finds both handles that are not released
  have hfound : StepOk 0 0 t (.startClose [4, 2]) := by
    intro h x hx hne hrel
    have hmem : h ∈ t.created := (hinv.books.mem_created h).2 (by simp [hx])
    simp only [hcreated, List.mem_cons, List.not_mem_nil, or_false] at hmem
    rcases hmem with rfl | rfl | rfl | rfl | rfl
    · cases h4.symm.trans hx
      simp [hrefs]
    · cases h3.symm.trans hx
      simp at hrel
    · cases h2.symm.trans hx
      simp [hrefs]
    · cases h1.symm.trans hx
      simp at hrel
    · exact (hne rfl).elim
  have horder : [4, 2].Perm (t.refs.map Prod.snd) := by simp [hrefs]
  obtain ⟨s, hs, hclosed⟩ := close_ends 0 0 hphase horder
  have hrest : Meets (step 0 0) (StepOk 0 0) t (closeSteps [4, 2]) := by
    refine ⟨hfound, ?_⟩
    split
    · refine meets_of_forall (fun a ha s => ?_) _
      simp only [List.length_cons, List.length_nil, List.mem_append, List.mem_replicate,
        List.mem_cons, List.not_mem_nil, or_false] at ha
      rcases ha with ⟨-, rfl⟩ | rfl | rfl <;> trivial
    · trivial
  have hend := hreach.trans (reaches_of_run hs hrest)
  exact ⟨s, hend, hclosed, accounted hend⟩

/-- **A reference released twice**: the receiver of a callback on the global object, and the context's
own handle, when `close` has ended the engine's reference is gone too. -/
theorem not_accounted : ¬ ∀ s : State Nat Nat,
    Reaches (step 0 0) (fun _ _ => True) (start 0 0 (fun _ => 1) 7) s → Accounted s := by
  intro h
  have hrun : (run (step 0 0) (start 0 0 (fun _ => 1) 7)
      (.callJavaCallback 1 2 (.counted 0) 5 1000 2000 true :: closeSteps [1, 2])).map (fun s =>
        (s.refCount 0, s.engineHeld 0)) = some (0, 1) := by
    decide +kernel
  obtain ⟨s, hs, hfields⟩ := Option.map_eq_some_iff.1 hrun
  simp only [Prod.mk.injEq] at hfields
  have howns := (h s (reaches_of_run hs (meets_true _ _))).owns 0
  rw [hfields.1, hfields.2] at howns
  omega

end HybridStack.QuickJs.Handles
