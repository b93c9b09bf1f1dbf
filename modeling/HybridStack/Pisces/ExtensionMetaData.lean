import HybridStack.Lib.LinkedMap
import HybridStack.Pisces.MetaData

/-!
# `ExtensionMetaData`, the plugin's own class

ExtensionMetaData.java:30-210. The generated code uses `com.spacecraft.hybrid.ExtensionMetaData`,
which is not in the repository and has the `addMethod` of this class; `QuickAppMetaDataProcessor`
folds every surviving extension through this one to get its JSON object.

`methods` is a `HashMap`: the map itself is modelled, its iteration order is not, and the order of
insertion stands in for it. Objects of `toJSON` are records, a key that is not put is `none`.

Main results:
- `ofEntry_eq`: the methods of an entry put in their order, so the last declaration of a name
  is the one kept.
- **`decode_methodJSON`**: the object of a method determines the method, defaults included.
-/

namespace HybridStack.Pisces

/-! ## The class -/

def INSTANCE_METHOD_DEFAULT : Bool := false
def TYPE_DEFAULT : MethodType := .FUNCTION
def ACCESS_DEFAULT : Access := .NONE
def NORMALIZE_DEFAULT : Normalize := .JSON
def MULTIPLE_DEFAULT : Multiple := .SINGLE

/-- The private class `Method`, after the defaults of its constructor. -/
structure ExtensionMetaData.Method where
  name : String
  instanceMethod : Bool
  mode : String
  type : String
  access : String
  normalize : String
  multiple : String
  /-- `alias`, null or not. -/
  aliasName : Option String
  permissions : Option (List String)
  subAttrs : Option (List String)
  deriving DecidableEq, Repr

/-- `new ExtensionMetaData(name, module)` and what is added to it. -/
structure ExtensionMetaData where
  name : String
  module : String
  methods : LinkedMap String ExtensionMetaData.Method

namespace ExtensionMetaData

/-- The constructor. -/
def new (name module : String) : ExtensionMetaData := ⟨name, module, .empty⟩

/-- The constructor of `Method`; a null string takes the default. -/
def newMethod (name : String) (instanceMethod : Bool) (mode : String)
    (type access normalize multiple aliasName : Option String)
    (permissions subAttrs : Option (List String)) : Method where
  name
  instanceMethod
  mode
  type := type.getD TYPE_DEFAULT.name
  access := access.getD ACCESS_DEFAULT.name
  normalize := normalize.getD NORMALIZE_DEFAULT.name
  multiple := multiple.getD MULTIPLE_DEFAULT.name
  aliasName
  permissions
  subAttrs

def addMethod (e : ExtensionMetaData) (name : String) (instanceMethod : Bool) (mode : String)
    (type access normalize multiple aliasName : Option String)
    (permissions subAttrs : Option (List String)) : ExtensionMetaData :=
  { e with methods := e.methods.put name (newMethod name instanceMethod mode type access normalize
      multiple aliasName permissions subAttrs) }

/-! ## `toJSON` -/

/-- `methodJSON`. -/
structure MethodJSON where
  name : String
  mode : Nat
  instanceMethod : Option Bool
  type : Option Nat
  access : Option Nat
  normalize : Option Nat
  multiple : Option Nat
  /-- `alias`. -/
  aliasName : Option String
  subAttrs : Option (List String)
  deriving DecidableEq, Repr

structure JSON where
  name : String
  methods : List MethodJSON
  instantiable : Bool
  deriving DecidableEq, Repr

/-- `if (x != default) put(getOrdinalBy(x))`. -/
def ordinalUnless (default x : String) : Option Nat :=
  if x = default then none else some (getOrdinalBy x)

/-- The body of the loop over `methods.values()`. -/
def methodJSON (m : Method) : MethodJSON where
  name := m.name
  mode := getOrdinalBy m.mode
  instanceMethod := if m.instanceMethod ≠ INSTANCE_METHOD_DEFAULT then some m.instanceMethod else none
  type := ordinalUnless TYPE_DEFAULT.name m.type
  access := ordinalUnless ACCESS_DEFAULT.name m.access
  normalize := ordinalUnless NORMALIZE_DEFAULT.name m.normalize
  multiple := ordinalUnless MULTIPLE_DEFAULT.name m.multiple
  aliasName := m.aliasName.filter fun a => a ≠ ""
  subAttrs := m.subAttrs.filter fun l => l ≠ []

/-- `toJSON(null)`. -/
def toJSON (e : ExtensionMetaData) : JSON where
  name := e.name
  methods := e.methods.values.map methodJSON
  instantiable := e.methods.values.any fun m => m.name == ACTION_INIT

/-! ## `validate` -/

def getErrorMessage (e : ExtensionMetaData) : Option String :=
  let instantiable := e.methods.values.any fun m => m.name == ACTION_INIT
  let hasInstanceMethod := e.methods.values.any fun m => m.instanceMethod
  if !instantiable && hasInstanceMethod then
    some "feature is not instantiable but has instanceMethod"
  else none

end ExtensionMetaData

/-- What `process` throws, message and all. -/
inductive PiscesException
  /-- `RuntimeException(message)`. -/
  | runtime (message : String)
  /-- `IllegalArgumentException(errMsg + ": " + json)`. -/
  | illegalArgument (errMsg : String) (json : ExtensionMetaData.JSON)
  deriving DecidableEq, Repr

namespace ExtensionMetaData

def validate (e : ExtensionMetaData) : Except PiscesException Unit :=
  match e.getErrorMessage with
  | some errMsg => .error (.illegalArgument errMsg e.toJSON)
  | none => .ok ()

theorem validate_ok_iff (e : ExtensionMetaData) : e.validate = .ok () ↔
    ((∃ m ∈ e.methods.values, m.instanceMethod = true) →
      ∃ m ∈ e.methods.values, m.name = ACTION_INIT) := by
  unfold validate getErrorMessage
  by_cases hi : ∃ m ∈ e.methods.values, m.name = ACTION_INIT
  · have : (e.methods.values.any fun m => m.name == ACTION_INIT) = true := by simpa using hi
    simp [this, hi]
  · have : (e.methods.values.any fun m => m.name == ACTION_INIT) = false := by simpa using hi
    by_cases hm : ∃ m ∈ e.methods.values, m.instanceMethod = true
    · have h' : (e.methods.values.any fun m => m.instanceMethod) = true := by simpa using hm
      simp [this, h', hi, hm]
    · have h' : (e.methods.values.any fun m => m.instanceMethod) = false := by simpa using hm
      simp [this, h', hi, hm]

/-! ## The fold of a metadata entry -/

/-- `instance.addMethod(method.name, …)` of QuickAppMetaDataProcessor.kt:143-149. -/
def addJSONMethod (e : ExtensionMetaData) (m : Pisces.Method) : ExtensionMetaData :=
  e.addMethod m.name m.isInstanceMethod m.mode.name (some m.type.name) (some m.access.name)
    (some m.normalize.name) (some m.multiple.name) (some m.aliasName) (some m.permissions)
    (some m.subAttrs)

/-- `instance` after the loop. -/
def ofEntry (e : IExtensionMetaData) : ExtensionMetaData :=
  e.methods.foldl addJSONMethod (new e.name e.classname)

/-- The method `addJSONMethod` puts. -/
def ofMethod (m : Pisces.Method) : Method :=
  newMethod m.name m.isInstanceMethod m.mode.name (some m.type.name) (some m.access.name)
    (some m.normalize.name) (some m.multiple.name) (some m.aliasName) (some m.permissions)
    (some m.subAttrs)

theorem foldl_addJSONMethod : ∀ (ms : List Pisces.Method) (e : ExtensionMetaData),
    ms.foldl addJSONMethod e =
      { e with methods := e.methods.putAll (ms.map fun m => (m.name, ofMethod m)) }
  | [], e => rfl
  | m :: ms, e => by
    rw [List.foldl_cons, foldl_addJSONMethod ms]
    rfl

theorem ofEntry_eq (e : IExtensionMetaData) : ofEntry e =
    ⟨e.name, e.classname, .ofList (e.methods.map fun m => (m.name, ofMethod m))⟩ := by
  rw [ofEntry, foldl_addJSONMethod]
  rfl

/-- What both encodings say of a method. -/
structure MethodInfo where
  name : String
  mode : Nat
  instanceMethod : Bool
  type : Nat
  access : Nat
  normalize : Nat
  multiple : Nat
  aliasName : String
  subAttrs : List String
  deriving DecidableEq, Repr

/-- The method of an object, a key that is missing standing for its default. -/
def MethodJSON.decode (j : MethodJSON) : MethodInfo where
  name := j.name
  mode := j.mode
  instanceMethod := j.instanceMethod.getD INSTANCE_METHOD_DEFAULT
  type := j.type.getD TYPE_DEFAULT.ordinal
  access := j.access.getD ACCESS_DEFAULT.ordinal
  normalize := j.normalize.getD NORMALIZE_DEFAULT.ordinal
  multiple := j.multiple.getD MULTIPLE_DEFAULT.ordinal
  aliasName := j.aliasName.getD ""
  subAttrs := j.subAttrs.getD []

/-- The method of the class, a null standing for what it is taken for. -/
def Method.info (m : Method) : MethodInfo where
  name := m.name
  mode := getOrdinalBy m.mode
  instanceMethod := m.instanceMethod
  type := getOrdinalBy m.type
  access := getOrdinalBy m.access
  normalize := getOrdinalBy m.normalize
  multiple := getOrdinalBy m.multiple
  aliasName := m.aliasName.getD ""
  subAttrs := m.subAttrs.getD []

theorem getD_ordinalUnless (default x : String) :
    (ordinalUnless default x).getD (getOrdinalBy default) = getOrdinalBy x := by
  unfold ordinalUnless
  split_ifs with h
  · rw [h]; rfl
  · rfl

theorem getD_filter_ne {α : Type} [DecidableEq α] (d : α) (o : Option α) :
    (o.filter fun a => a ≠ d).getD d = o.getD d := by
  cases o with
  | none => rfl
  | some a => by_cases h : a = d <;> simp [Option.filter, h]

/-- **The object of a method determines the method**: what `toJSON` leaves out is the default. -/
theorem decode_methodJSON (m : Method) : (methodJSON m).decode = m.info := by
  obtain ⟨-, ht, ha, hn, hm⟩ := getOrdinalBy_name
  have hinst : ((methodJSON m).instanceMethod).getD INSTANCE_METHOD_DEFAULT = m.instanceMethod := by
    cases h : m.instanceMethod <;> simp [methodJSON, h, INSTANCE_METHOD_DEFAULT]
  simp only [MethodJSON.decode, Method.info, hinst]
  simp only [methodJSON, ← ht, ← ha, ← hn, ← hm, getD_ordinalUnless, getD_filter_ne]

end ExtensionMetaData

end HybridStack.Pisces
