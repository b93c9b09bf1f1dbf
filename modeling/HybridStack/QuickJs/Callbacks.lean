import HybridStack.Lib.LinkedMap
import HybridStack.Lib.Transition

/-!
# Java callbacks behind JS functions

A JS function made for a Java callback carries the hash code of the callback and a flag, and no
reference to it; `functionRegistry` is the way back.

| here | there |
| --- | --- |
| `Registration` | JSObject.java:133-157 (`registerJavaMethod`, `registerClass`), JSFunction.java:5-13 |
| `Native.functionData` | `newFunction`, quickjs-jni.cpp:526-534 |
| `Native.constructor` | `_newClass`, quickjs-jni.cpp:723-731 |
| `register` | the native call, then `_registerCallback`, JSContext.java:147-157 |
| `nativeCall` | `callJavaCallback` and `js_worker_constructor`, quickjs-jni.cpp:488-524, 684-713 |
| `callJavaCallback` | QuickJS.java:93-115 |

A class reads the id off its new target, where it is a property like any other: the script may
assign it, and may construct with another target.

- **`callJavaCallback_iff`**: in every state of every run, a call that gets through reaches the
  callback of its function if and only if the id it passes is that of the callback and no function
  made later is for a callback with the same hash code.
- `wrong_callback`: a collision.
-/

namespace HybridStack.QuickJs.Callbacks

open Transition

/-! ## Registering -/

inductive Entry
  /-- With a `JavaVoidCallback` or a `JavaCallback`, and so in the next. -/
  | registerJavaMethod (void : Bool)
  | newJSFunction (void : Bool)
  | registerClass
  deriving DecidableEq, Repr

/-- The fields of `MethodDescriptor`. -/
inductive Field | voidCallback | callback
  deriving DecidableEq, Repr

def Entry.void : Entry → Bool
  | registerJavaMethod void | newJSFunction void => void
  | registerClass => false

/-- The callback; that of `registerClass` is the one it makes of its argument. -/
structure Registration (Callback : Type) where
  entry : Entry
  callback : Callback
  deriving DecidableEq, Repr

structure MethodDescriptor (Callback : Type) where
  voidCallback : Option Callback := none
  callback : Option Callback := none
  deriving DecidableEq, Repr

/-- What the engine keeps with a function. -/
inductive Native
  /-- `func_data`. -/
  | functionData (callbackId : Int32) (void_method : Bool)
  /-- The int in the property `java_caller_id`. -/
  | constructor (java_caller_id : Int32)
  deriving DecidableEq, Repr

/-- A function, and what it was made for. -/
structure JSFunction (Callback : Type) where
  native : Native
  registration : Registration Callback
  deriving DecidableEq, Repr

/-- An open context; its functions in the order in which they were made. -/
structure State (Callback : Type) where
  functionRegistry : LinkedMap Int32 (MethodDescriptor Callback) := .empty
  functions : List (JSFunction Callback) := []

variable {Callback : Type}

/-- The field that `void_method` selects. -/
def field (void_method : Bool) : Field := if void_method then .voidCallback else .callback

def MethodDescriptor.get (d : MethodDescriptor Callback) : Field → Option Callback
  | .voidCallback => d.voidCallback
  | .callback => d.callback

/-- `_registerCallback` sets the field of the type of the callback. -/
def Registration.descriptor (r : Registration Callback) : MethodDescriptor Callback :=
  match field r.entry.void with
  | .voidCallback => { voidCallback := some r.callback }
  | .callback => { callback := some r.callback }

variable (hashCode : Callback → Int32)

def Registration.native (r : Registration Callback) : Native :=
  match r.entry with
  | .registerJavaMethod void | .newJSFunction void => .functionData (hashCode r.callback) void
  | .registerClass => .constructor (hashCode r.callback)

def State.register (s : State Callback) (r : Registration Callback) : State Callback where
  functionRegistry := s.functionRegistry.put (hashCode r.callback) r.descriptor
  functions := s.functions ++ [⟨r.native hashCode, r⟩]

inductive Action (Callback : Type)
  | register (r : Registration Callback)
  /-- The script assigns `java_caller_id` of a function. -/
  | assign (i : Nat) (java_caller_id : Int32)
  deriving DecidableEq, Repr

/-- The property matters to a constructor only. -/
def Native.assign (java_caller_id : Int32) : Native → Native
  | .functionData callbackId void_method => .functionData callbackId void_method
  | .constructor _ => .constructor java_caller_id

def step (s : State Callback) : Action Callback → Option (State Callback)
  | .register r => some (s.register hashCode r)
  | .assign i java_caller_id =>
    some { s with functions := s.functions.modify i fun f =>
      { f with native := f.native.assign java_caller_id } }

/-! ## Calling -/

/-- What a class is constructed for: one of these functions, or an object with whatever int reading
`java_caller_id` of it gives. -/
inductive NewTarget
  | function (i : Nat)
  | other (java_caller_id : Int32)
  deriving DecidableEq, Repr

/-- A call, or a `new`, of the function `i`. -/
inductive Call
  | call (i : Nat)
  | construct (i : Nat) (newTarget : NewTarget)
  deriving DecidableEq, Repr

def Call.function : Call → Nat
  | .call i | .construct i _ => i

def State.native (s : State Callback) (i : Nat) : Option Native := s.functions[i]?.map (·.native)

/-- What is passed to Java. The engine throws when a class is called, when another function is
constructed, and when the new target is no constructor. -/
def State.nativeCall (s : State Callback) : Call → Option (Int32 × Bool)
  | .call i =>
    match s.native i with
    | some (.functionData callbackId void_method) => some (callbackId, void_method)
    | _ => none
  | .construct i newTarget =>
    match s.native i with
    | some (.constructor _) =>
      match newTarget with
      | .other java_caller_id => some (java_caller_id, false)
      | .function j =>
        match s.native j with
        | some (.constructor java_caller_id) => some (java_caller_id, false)
        | _ => none
    | _ => none

inductive Invocation (Callback : Type)
  /-- There is no descriptor. -/
  | nothing
  | nullPointerException
  | invoke (field : Field) (callback : Callback)
  deriving DecidableEq, Repr

def State.callJavaCallback (s : State Callback) (javaCallerId : Int32) (void_method : Bool) :
    Invocation Callback :=
  match s.functionRegistry.get javaCallerId with
  | none => .nothing
  | some methodDescriptor =>
    match methodDescriptor.get (field void_method) with
    | none => .nullPointerException
    | some callback => .invoke (field void_method) callback

/-! ## The registry and the functions -/

/-- The registry holds what was put for the functions, and a function the id and the flag it was
made with, but for the id of a class. -/
structure Inv (s : State Callback) : Prop where
  registry : s.functionRegistry =
    .ofList (s.functions.map fun f => (hashCode f.registration.callback, f.registration.descriptor))
  native : ∀ f ∈ s.functions, ∃ id, f.native = (f.registration.native hashCode).assign id

variable {hashCode}

theorem Native.exists_assign (n : Native) : ∃ id, n = n.assign id := by
  cases n with
  | functionData callbackId void_method => exact ⟨0, rfl⟩
  | constructor java_caller_id => exact ⟨java_caller_id, rfl⟩

theorem Native.assign_assign (n : Native) (id id' : Int32) : (n.assign id).assign id' = n.assign id' := by
  cases n <;> rfl

theorem getElem?_assign (fs : List (JSFunction Callback)) (i : Nat) (id : Int32) (j : Nat) :
    (fs.modify i fun f => { f with native := f.native.assign id })[j]? =
      fs[j]?.map fun f => if i = j then { f with native := f.native.assign id } else f := by
  rw [List.getElem?_modify]
  split_ifs <;> simp

/-- Assigning the property leaves what the functions were made for. -/
theorem map_assign {α : Type} (g : Registration Callback → α) (fs : List (JSFunction Callback))
    (i : Nat) (id : Int32) :
    (fs.modify i fun f => { f with native := f.native.assign id }).map (fun f => g f.registration) =
      fs.map fun f => g f.registration := by
  refine List.ext_getElem? fun j => ?_
  rw [List.getElem?_map, List.getElem?_map, getElem?_assign]
  cases fs[j]? with
  | none => rfl
  | some f => by_cases hij : i = j <;> simp [hij]

theorem inv_start : Inv hashCode ({} : State Callback) := ⟨rfl, nofun⟩

theorem Inv.register {s : State Callback} (hi : Inv hashCode s) (r : Registration Callback) :
    Inv hashCode (s.register hashCode r) where
  registry := by
    rw [State.register, List.map_append, List.map_singleton, LinkedMap.ofList_concat, ← hi.registry]
  native f hf := by
    rcases List.mem_append.1 hf with hf | hf
    · exact hi.native f hf
    · rw [List.mem_singleton.1 hf]
      exact (r.native hashCode).exists_assign

theorem Inv.assign {s : State Callback} (hi : Inv hashCode s) (i : Nat) (id : Int32) :
    Inv hashCode { s with functions := s.functions.modify i fun f =>
      { f with native := f.native.assign id } } where
  registry := by
    rw [hi.registry, map_assign fun r => (hashCode r.callback, r.descriptor)]
  native f hf := by
    obtain ⟨j, hj⟩ := List.mem_iff_getElem?.1 hf
    rw [getElem?_assign, Option.map_eq_some_iff] at hj
    obtain ⟨f', hf', rfl⟩ := hj
    obtain ⟨id', hid'⟩ := hi.native f' (List.mem_of_getElem? hf')
    split_ifs
    · exact ⟨id, by rw [hid', Native.assign_assign]⟩
    · exact ⟨id', hid'⟩

theorem Inv.step {s s' : State Callback} {a : Action Callback} (hi : Inv hashCode s)
    (hstep : step hashCode s a = some s') : Inv hashCode s' := by
  cases a with
  | register r =>
    obtain rfl := Option.some.inj hstep
    exact hi.register r
  | assign i id =>
    obtain rfl := Option.some.inj hstep
    exact hi.assign i id

theorem inv_of_reaches {P : State Callback → Action Callback → Prop} {s : State Callback}
    (h : Reaches (Callbacks.step hashCode) P {} s) : Inv hashCode s :=
  h.invariant (Inv hashCode) inv_start fun _ _ _ hi _ hstep => hi.step hstep

/-! ## Which callback is called -/

theorem field_inj {void void' : Bool} (h : field void = field void') : void = void' := by
  cases void <;> cases void' <;> simp_all [field]

theorem descriptor_get_iff {r : Registration Callback} {fld : Field} {callback : Callback} :
    r.descriptor.get fld = some callback ↔ fld = field r.entry.void ∧ r.callback = callback := by
  cases hf : field r.entry.void <;> cases fld <;>
    simp [Registration.descriptor, hf, MethodDescriptor.get]

theorem callJavaCallback_eq_invoke_iff {s : State Callback} {id : Int32} {void : Bool}
    {callback : Callback} : s.callJavaCallback id void = .invoke (field void) callback ↔
      ∃ d, s.functionRegistry.get id = some d ∧ d.get (field void) = some callback := by
  unfold State.callJavaCallback
  cases s.functionRegistry.get id with
  | none => simp
  | some d => cases hd : d.get (field void) <;> simp [hd]

/-- The callback that is called is that of the last function whose callback has the hash code. -/
theorem Inv.invoke_iff {s : State Callback} (hi : Inv hashCode s) {id : Int32} {void : Bool}
    {callback : Callback} : s.callJavaCallback id void = .invoke (field void) callback ↔
      ∃ before g after, s.functions = before ++ g :: after ∧ g.registration.entry.void = void ∧
        g.registration.callback = callback ∧ hashCode callback = id ∧
        ∀ f ∈ after, hashCode f.registration.callback ≠ id := by
  rw [callJavaCallback_eq_invoke_iff, hi.registry]
  constructor
  · rintro ⟨d, hget, hd⟩
    obtain ⟨before, after, hlist, hafter⟩ := LinkedMap.get_ofList_eq_some_iff.1 hget
    obtain ⟨before', rest, hfs, rfl, hrest⟩ := List.map_eq_append_iff.1 hlist
    obtain ⟨g, after', rfl, hg, rfl⟩ := List.map_eq_cons_iff.1 hrest
    obtain ⟨rfl, rfl⟩ := Prod.mk.inj hg
    obtain ⟨hfield, rfl⟩ := descriptor_get_iff.1 hd
    refine ⟨before', g, after', hfs, (field_inj hfield).symm, rfl, rfl, fun f hf => ?_⟩
    exact hafter _ (List.mem_map.2 ⟨f, hf, rfl⟩)
  · rintro ⟨before, g, after, hfs, rfl, rfl, rfl, hafter⟩
    have hlist : s.functions.map (fun f => (hashCode f.registration.callback, f.registration.descriptor)) =
        before.map (fun f => (hashCode f.registration.callback, f.registration.descriptor)) ++
          (hashCode g.registration.callback, g.registration.descriptor) ::
            after.map fun f => (hashCode f.registration.callback, f.registration.descriptor) := by
      rw [hfs, List.map_append, List.map_cons]
    refine ⟨g.registration.descriptor, LinkedMap.get_ofList_eq_some_iff.2 ⟨_, _, hlist, ?_⟩,
      descriptor_get_iff.2 ⟨rfl, rfl⟩⟩
    · rintro e he
      obtain ⟨f, hf, rfl⟩ := List.mem_map.1 he
      exact hafter f hf

/-- The flag that is passed is that of the function, and so is the id but for a class. -/
theorem Inv.nativeCall {s : State Callback} (hi : Inv hashCode s) {c : Call} {f : JSFunction Callback}
    {id : Int32} {void : Bool} (hf : s.functions[c.function]? = some f)
    (hcall : s.nativeCall c = some (id, void)) :
    void = f.registration.entry.void ∧
      (f.registration.entry ≠ .registerClass → id = hashCode f.registration.callback) := by
  obtain ⟨id', hnative⟩ := hi.native f (List.mem_of_getElem? hf)
  have hn : s.native c.function = some f.native := by rw [State.native, hf, Option.map_some]
  rw [hnative] at hn
  cases c with
  | call i =>
    simp only [State.nativeCall, show s.native i = _ from hn] at hcall
    cases hentry : f.registration.entry <;>
      simp_all [Registration.native, Native.assign, Entry.void]
  | construct i newTarget =>
    simp only [State.nativeCall, show s.native i = _ from hn] at hcall
    cases hentry : f.registration.entry with
    | registerJavaMethod v => simp [Registration.native, hentry, Native.assign] at hcall
    | newJSFunction v => simp [Registration.native, hentry, Native.assign] at hcall
    | registerClass =>
      simp only [Registration.native, hentry, Native.assign] at hcall
      refine ⟨?_, fun h => absurd rfl h⟩
      cases newTarget with
      | other java_caller_id =>
        simp only [Option.some.injEq, Prod.mk.injEq] at hcall
        exact hcall.2.symm
      | function j =>
        simp only at hcall
        split at hcall
        · simp only [Option.some.injEq, Prod.mk.injEq] at hcall
          exact hcall.2.symm
        · contradiction

/-- Where the keys are distinct, an element is found in one place only. -/
theorem length_of_nodup {α β : Type} (key : α → β) {l before after : List α} {g f : α} {i : Nat}
    (hnodup : (l.map key).Nodup) (hl : l = before ++ g :: after) (hf : l[i]? = some f)
    (hkey : key g = key f) : before.length = i := by
  have hsame : (l.map key)[before.length]? = (l.map key)[i]? := by
    rw [List.getElem?_map, List.getElem?_map, hf, hl, List.getElem?_append_right (Nat.le_refl _),
      Nat.sub_self, List.getElem?_cons_zero, Option.map_some, Option.map_some, hkey]
  refine (List.getElem?_inj ?_ hnodup).1 hsame
  rw [List.length_map, hl, List.length_append, List.length_cons]
  omega

/-- **A call reaches the callback of its function** if and only if it passes the id of that callback,
and no function made later is for a callback with the same hash code. -/
theorem callJavaCallback_iff {s : State Callback}
    (hreach : Reaches (step hashCode) (fun _ _ => True) {} s)
    (hdistinct : (s.functions.map fun f => f.registration.callback).Nodup) {c : Call}
    {f : JSFunction Callback} (hf : s.functions[c.function]? = some f) {id : Int32} {void : Bool}
    (hcall : s.nativeCall c = some (id, void)) :
    s.callJavaCallback id void = .invoke (field f.registration.entry.void) f.registration.callback ↔
      id = hashCode f.registration.callback ∧
        ∀ g ∈ s.functions.drop (c.function + 1),
          hashCode g.registration.callback ≠ hashCode f.registration.callback := by
  have hi := inv_of_reaches hreach
  obtain ⟨hvoid, -⟩ := hi.nativeCall hf hcall
  obtain ⟨hlt, hget⟩ := List.getElem?_eq_some_iff.1 hf
  rw [← hvoid, hi.invoke_iff]
  constructor
  · rintro ⟨before, g, after, hfs, hg, hcallback, hid, hafter⟩
    have hplace : before.length = c.function :=
      length_of_nodup (fun f => f.registration.callback) hdistinct hfs hf hcallback
    have hdrop : s.functions.drop (c.function + 1) = after := by
      rw [← hplace, hfs, ← List.drop_drop, List.drop_left]
      rfl
    rw [hdrop]
    exact ⟨hid.symm, fun x hx => hid ▸ hafter x hx⟩
  · rintro ⟨hid, hlater⟩
    refine ⟨s.functions.take c.function, f, s.functions.drop (c.function + 1), ?_, hvoid.symm, rfl,
      hid.symm, fun g hg => hid ▸ hlater g hg⟩
    rw [← hget, List.getElem_cons_drop, List.take_append_drop]

/-- A function and a class, for the callbacks `0` and `1`. -/
def functionThenClass : List (Action Nat) :=
  [.register ⟨.newJSFunction true, 0⟩, .register ⟨.registerClass, 1⟩]

def sampleHash (callback : Nat) : Int32 := if callback = 0 then -7 else 7

def afterFunctionThenClass : State Nat :=
  (({} : State Nat).register sampleHash ⟨.newJSFunction true, 0⟩).register sampleHash
    ⟨.registerClass, 1⟩

theorem run_functionThenClass :
    run (step sampleHash) {} functionThenClass = some afterFunctionThenClass := rfl

/-- `new` of the class. -/
theorem callJavaCallback_iff_class :
    afterFunctionThenClass.callJavaCallback 7 false = .invoke (field false) 1 ↔
      (7 : Int32) = sampleHash 1 ∧ ∀ g ∈ afterFunctionThenClass.functions.drop 2,
        sampleHash g.registration.callback ≠ sampleHash 1 :=
  callJavaCallback_iff (c := .construct 1 (.function 1)) (f := ⟨.constructor 7, .registerClass, 1⟩)
    (reaches_of_run run_functionThenClass (meets_true _ _)) (by decide) (by decide) (by decide)

example : afterFunctionThenClass.callJavaCallback (-7) true = .invoke .voidCallback 0 ∧
    afterFunctionThenClass.callJavaCallback 7 false = .invoke .callback 1 := by decide

/-- **A collision**: the callback of another function is called. -/
theorem wrong_callback : ¬ ∀ (hashCode : Nat → Int32) (s : State Nat),
    Reaches (step hashCode) (fun _ _ => True) {} s →
    (s.functions.map fun f => f.registration.callback).Nodup →
    ∀ (c : Call) (f : JSFunction Nat), s.functions[c.function]? = some f →
    ∀ id void, s.nativeCall c = some (id, void) → s.callJavaCallback id void =
      .invoke (field f.registration.entry.void) f.registration.callback := by
  intro h
  let s : State Nat := (({} : State Nat).register (fun _ => 31) ⟨.newJSFunction false, 0⟩).register
    (fun _ => 31) ⟨.registerJavaMethod false, 1⟩
  have hrun : run (step fun _ => 31) {} [.register ⟨.newJSFunction false, 0⟩,
      .register ⟨.registerJavaMethod false, 1⟩] = some s := rfl
  have hcalled := h (fun _ => 31) s (reaches_of_run hrun (meets_true _ _)) (by decide) (.call 0)
    ⟨.functionData 31 false, .newJSFunction false, 0⟩ (by decide) 31 false (by decide)
  exact absurd hcalled (by decide)

end HybridStack.QuickJs.Callbacks
