import Mathlib.Data.List.Basic

/-!
# The metadata the processors work on

`packages/pisces-gradle-plugin/src/main/kotlin/com/electrolytej/pisces/`:

| here | there |
| --- | --- |
| `Mode` … `Multiple`, `getOrdinalBy` | the enums and the companion of `IExtensionMetaData` (MetaDataExt.kt:4-96) |
| `Method` | `data class Method` (MetaDataExt.kt:150-162) |
| `IsMetaData` | `interface MetaData` (MetaDataExt.kt:98-101), with the assignments of `replace` |
| `IExtensionMetaData`, `ExtensionKind` | the interface and its four implementers (QuickAppMetaDataProcessor.kt:332-352, GeminiMetaDataProcessor.kt:60-65) |
| `WidgetMetaData`, `InheritedMetaData` | QuickAppMetaDataProcessor.kt:298-330 |
| `MetaData` | an element of `sons : List<MetaData>` |
| `EventTargetMetaData`, `DependencyMetaData` | EventTargetProcessor.kt:53-57, DependencyProcessor.kt:31-35 |

The processors assign to the `classname` and `superClasses` of an entry; an entry is a value here
and the assignment returns the changed one. No entry is in a list twice: `addSon` makes one for
each class of the set `allAnnotatedName` (BaseProcessor.kt:19-35).
-/

namespace HybridStack.Pisces

/-! ## Enums -/

inductive Mode | SYNC | ASYNC | CALLBACK | SYNC_CALLBACK
  deriving DecidableEq, Repr

inductive MethodType | FUNCTION | ATTRIBUTE | EVENT
  deriving DecidableEq, Repr

inductive Access | NONE | READ | WRITE
  deriving DecidableEq, Repr

inductive Normalize | RAW | JSON
  deriving DecidableEq, Repr

inductive NativeType | INSTANCE
  deriving DecidableEq, Repr

inductive Multiple | SINGLE | MULTI
  deriving DecidableEq, Repr

/-- `FeatureExtension.ResidentType`. -/
inductive FeatureResidentType | FORBIDDEN | USEABLE | RESIDENT_NORMAL | RESIDENT_IMPORTANT
  deriving DecidableEq, Repr

/-- `Action.ResidentType`. -/
inductive ActionResidentType | NONE | USEABLE
  deriving DecidableEq, Repr

/-- `Enum.name`. -/
def Mode.name : Mode → String
  | SYNC => "SYNC" | ASYNC => "ASYNC" | CALLBACK => "CALLBACK" | SYNC_CALLBACK => "SYNC_CALLBACK"

def MethodType.name : MethodType → String
  | FUNCTION => "FUNCTION" | ATTRIBUTE => "ATTRIBUTE" | EVENT => "EVENT"

def Access.name : Access → String
  | NONE => "NONE" | READ => "READ" | WRITE => "WRITE"

def Normalize.name : Normalize → String
  | RAW => "RAW" | JSON => "JSON"

def NativeType.name : NativeType → String
  | INSTANCE => "INSTANCE"

def Multiple.name : Multiple → String
  | SINGLE => "SINGLE" | MULTI => "MULTI"

/-- `Enum.ordinal`. -/
def Mode.ordinal : Mode → Nat
  | SYNC => 0 | ASYNC => 1 | CALLBACK => 2 | SYNC_CALLBACK => 3

def MethodType.ordinal : MethodType → Nat
  | FUNCTION => 0 | ATTRIBUTE => 1 | EVENT => 2

def Access.ordinal : Access → Nat
  | NONE => 0 | READ => 1 | WRITE => 2

def Normalize.ordinal : Normalize → Nat
  | RAW => 0 | JSON => 1

def NativeType.ordinal : NativeType → Nat
  | INSTANCE => 0

def Multiple.ordinal : Multiple → Nat
  | SINGLE => 0 | MULTI => 1

/-- `IExtensionMetaData.ACTION_INIT`. -/
def ACTION_INIT : String := "__init__"

/-- `IExtensionMetaData.getOrdinalBy`: one chain over the names of all six enums. -/
def getOrdinalBy (obj : String) : Nat :=
  if Mode.SYNC.name = obj then Mode.SYNC.ordinal
  else if Mode.ASYNC.name = obj then Mode.ASYNC.ordinal
  else if Mode.CALLBACK.name = obj then Mode.CALLBACK.ordinal
  else if Mode.SYNC_CALLBACK.name = obj then Mode.SYNC_CALLBACK.ordinal
  else if MethodType.FUNCTION.name = obj then MethodType.FUNCTION.ordinal
  else if MethodType.ATTRIBUTE.name = obj then MethodType.ATTRIBUTE.ordinal
  else if MethodType.EVENT.name = obj then MethodType.EVENT.ordinal
  else if Access.NONE.name = obj then Access.NONE.ordinal
  else if Access.READ.name = obj then Access.READ.ordinal
  else if Access.WRITE.name = obj then Access.WRITE.ordinal
  else if Normalize.RAW.name = obj then Normalize.RAW.ordinal
  else if Normalize.JSON.name = obj then Normalize.JSON.ordinal
  else if NativeType.INSTANCE.name = obj then NativeType.INSTANCE.ordinal
  else if Multiple.SINGLE.name = obj then Multiple.SINGLE.ordinal
  else if Multiple.MULTI.name = obj then Multiple.MULTI.ordinal
  else 0

/-- No name of one enum is a name of another, so the shared chain gives every constant its own
ordinal. -/
theorem getOrdinalBy_name :
    (∀ m : Mode, getOrdinalBy m.name = m.ordinal) ∧
    (∀ t : MethodType, getOrdinalBy t.name = t.ordinal) ∧
    (∀ a : Access, getOrdinalBy a.name = a.ordinal) ∧
    (∀ n : Normalize, getOrdinalBy n.name = n.ordinal) ∧
    (∀ m : Multiple, getOrdinalBy m.name = m.ordinal) := by
  refine ⟨fun m => ?_, fun t => ?_, fun a => ?_, fun n => ?_, fun m => ?_⟩
  · cases m <;> decide
  · cases t <;> decide
  · cases a <;> decide
  · cases n <;> decide
  · cases m <;> decide

/-! ## Entries -/

structure Method where
  name : String
  isInstanceMethod : Bool := false
  mode : Mode
  type : MethodType
  access : Access
  normalize : Normalize
  multiple : Multiple
  /-- `alias`. -/
  aliasName : String := ""
  permissions : List String
  subAttrs : List String
  residentType : ActionResidentType
  deriving DecidableEq, Repr

structure InheritedMetaData where
  classname : String
  superClasses : List String
  deriving DecidableEq, Repr

/-- Which of the four classes an `IExtensionMetaData` is, with the data only that class has. -/
inductive ExtensionKind
  | feature (residentType : FeatureResidentType)
  | module
  | widgetExtension
  | webFeature
  deriving DecidableEq, Repr

/-- `it::class.java`, what `groupBy` groups by. -/
inductive ExtensionClass
  | FeatureExtensionMetaData
  | ModuleExtensionMetaData
  | WidgetExtensionMetaData
  | WebFeatureExtensionMetaData
  deriving DecidableEq, Repr

def ExtensionKind.javaClass : ExtensionKind → ExtensionClass
  | .feature _ => .FeatureExtensionMetaData
  | .module => .ModuleExtensionMetaData
  | .widgetExtension => .WidgetExtensionMetaData
  | .webFeature => .WebFeatureExtensionMetaData

structure IExtensionMetaData where
  kind : ExtensionKind
  name : String
  classname : String
  superClasses : List String
  methods : List Method
  deriving DecidableEq, Repr

/-- `WidgetMetaData.Type`. -/
structure WidgetType where
  name : String
  isDefault : Bool
  deriving DecidableEq, Repr

structure WidgetMetaData where
  name : String
  classname : String
  superClasses : List String
  needDeleteSuperClasses : Bool
  methods : List String
  types : List WidgetType
  deriving DecidableEq, Repr

structure EventTargetMetaData where
  eventNames : List String
  classname : String
  superClasses : List String
  deriving DecidableEq, Repr

structure DependencyMetaData where
  key : String
  classname : String
  superClasses : List String
  deriving DecidableEq, Repr

/-- An element of `sons : List<MetaData>` of the two metadata processors. -/
inductive MetaData
  | extension (e : IExtensionMetaData)
  | widget (w : WidgetMetaData)
  | inherited (i : InheritedMetaData)
  deriving DecidableEq, Repr

/-- `sons.filterIsInstance<IExtensionMetaData>()`. -/
def MetaData.extension? : MetaData → Option IExtensionMetaData
  | .extension e => some e
  | _ => none

/-- `sons.filterIsInstance<WidgetMetaData?>()`. -/
def MetaData.widget? : MetaData → Option WidgetMetaData
  | .widget w => some w
  | _ => none

/-- `sons.filterIsInstance<InheritedMetaData>()`. -/
def MetaData.inherited? : MetaData → Option InheritedMetaData
  | .inherited i => some i
  | _ => none

def extensionsOf (sons : List MetaData) : List IExtensionMetaData := sons.filterMap MetaData.extension?
def widgetsOf (sons : List MetaData) : List WidgetMetaData := sons.filterMap MetaData.widget?
def inheritedOf (sons : List MetaData) : List InheritedMetaData := sons.filterMap MetaData.inherited?

section
variable (e : IExtensionMetaData) (w : WidgetMetaData) (i : InheritedMetaData) (sons : List MetaData)

@[simp] theorem extensionsOf_extension :
    extensionsOf (.extension e :: sons) = e :: extensionsOf sons := rfl
@[simp] theorem extensionsOf_widget : extensionsOf (.widget w :: sons) = extensionsOf sons := rfl
@[simp] theorem extensionsOf_inherited :
    extensionsOf (.inherited i :: sons) = extensionsOf sons := rfl
@[simp] theorem widgetsOf_extension : widgetsOf (.extension e :: sons) = widgetsOf sons := rfl
@[simp] theorem widgetsOf_widget : widgetsOf (.widget w :: sons) = w :: widgetsOf sons := rfl
@[simp] theorem widgetsOf_inherited : widgetsOf (.inherited i :: sons) = widgetsOf sons := rfl

end

/-! ## The interface `MetaData` -/

/-- A class that implements `MetaData`; `takeOver e i` is `e` after the assignments of `replace`
(QuickAppMetaDataProcessor.kt:288-290). -/
class IsMetaData (T : Type) where
  classname : T → String
  superClasses : T → List String
  takeOver : T → InheritedMetaData → T
  classname_takeOver : ∀ e i, classname (takeOver e i) = i.classname
  superClasses_takeOver : ∀ e i, superClasses (takeOver e i) = i.superClasses
  takeOver_takeOver : ∀ e i j, takeOver (takeOver e i) j = takeOver e j

export IsMetaData (takeOver)
attribute [simp] IsMetaData.classname_takeOver IsMetaData.superClasses_takeOver
  IsMetaData.takeOver_takeOver

instance : IsMetaData IExtensionMetaData where
  classname e := e.classname
  superClasses e := e.superClasses
  takeOver e i := { e with classname := i.classname, superClasses := i.superClasses }
  classname_takeOver _ _ := rfl
  superClasses_takeOver _ _ := rfl
  takeOver_takeOver _ _ _ := rfl

/-- `if (e is WidgetMetaData) e.needDeleteSuperClasses = true`. -/
instance : IsMetaData WidgetMetaData where
  classname w := w.classname
  superClasses w := w.superClasses
  takeOver w i :=
    { w with classname := i.classname, superClasses := i.superClasses, needDeleteSuperClasses := true }
  classname_takeOver _ _ := rfl
  superClasses_takeOver _ _ := rfl
  takeOver_takeOver _ _ _ := rfl

instance : IsMetaData EventTargetMetaData where
  classname t := t.classname
  superClasses t := t.superClasses
  takeOver t i := { t with classname := i.classname, superClasses := i.superClasses }
  classname_takeOver _ _ := rfl
  superClasses_takeOver _ _ := rfl
  takeOver_takeOver _ _ _ := rfl

instance : IsMetaData DependencyMetaData where
  classname d := d.classname
  superClasses d := d.superClasses
  takeOver d i := { d with classname := i.classname, superClasses := i.superClasses }
  classname_takeOver _ _ := rfl
  superClasses_takeOver _ _ := rfl
  takeOver_takeOver _ _ _ := rfl

end HybridStack.Pisces
