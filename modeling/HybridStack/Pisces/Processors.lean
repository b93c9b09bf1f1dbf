import HybridStack.Pisces.ExtensionMetaData
import HybridStack.Pisces.Takeover
import HybridStack.Pisces.Templates

/-!
# The processors

`process` of the four processors. It looks at nothing but `sons`: what it does to the class is a
list of injections, and it ends normally or with an exception (`Outcome`). What becomes of the
injections is javassist's (see `PiscesPlugin`).

| here | there |
| --- | --- |
| `QuickAppMetaDataProcessor.process` | QuickAppMetaDataProcessor.kt:91-221 |
| `GeminiMetaDataProcessor.process` | GeminiMetaDataProcessor.kt:35-57 |
| `EventTargetProcessor.process` | EventTargetProcessor.kt:19-50 |
| `DependencyProcessor.process` | DependencyProcessor.kt:17-27 |
| `injectMetaData`, `injectResidentSet` | Utils.kt:139-191 |

Left out: the log lines, and the text of the JSON literals (`JsonOutput.toJson` and `escapeJava` are
library functions), of which the array is kept.
-/

namespace HybridStack.Pisces

open JavaSource

/-! ## Injections -/

/-- `WidgetMetaData.toJSON`, a key that is not put being `none`. -/
structure WidgetJSON where
  name : String
  types : Option (List String)
  methods : Option (List String)
  deriving DecidableEq, Repr

def WidgetMetaData.toJSON (w : WidgetMetaData) : WidgetJSON where
  name := w.name
  types := if w.types.isEmpty then none else some (w.types.map WidgetType.name)
  methods := if w.methods.isEmpty then none else some w.methods

inductive JSONArray
  | extensions (l : List ExtensionMetaData.JSON)
  | widgets (l : List WidgetJSON)

/-- One change of the modified class. -/
inductive Injection
  /-- `getDeclaredMethod(method).insertAfter(src)`. -/
  | insertAfter (method : String) (src : Template)
  /-- `injectMetaDataJSONString(method, json, json)`. -/
  | insertJSON (method : String) (json : JSONArray)

/-- What a call of `process` does. -/
structure Outcome where
  injected : List Injection
  result : Except PiscesException Unit

/-- `return` after these injections. -/
def Outcome.done (injected : List Injection) : Outcome := ⟨injected, .ok ()⟩

/-- `injectMetaData(a, methodName)`; `source` is its branch for the type of the list. -/
def injectMetaData {T : Type} (source : List T → Template) (a : List T) (methodName : String) :
    List Injection :=
  if a.isEmpty then [] else [.insertAfter methodName (source a)]

/-- `injectResidentSet` of the statements that add these names; no name, no text. -/
def injectResidentSet (names : List String) (methodName : String) : List Injection :=
  if names.isEmpty then [] else [.insertAfter methodName (residentSource names)]

/-- `{ item, other -> item.name != other.name }`. -/
def otherName (item other : IExtensionMetaData) : Bool := item.name != other.name

def otherWidgetName (item other : WidgetMetaData) : Bool := item.name != other.name

/-! ## QuickAppMetaDataProcessor -/

namespace QuickAppMetaDataProcessor

/-- Lines 96-118, after the two early exits: takeovers, then the removal passes. -/
def survivors (inherited : List InheritedMetaData) (extensions : List IExtensionMetaData)
    (widgets : List WidgetMetaData) :
    Except PiscesException (List IExtensionMetaData × List WidgetMetaData) :=
  match resolveInherited inherited (extensions.map some) (widgets.map some) with
  | .error message => .error (.runtime message)
  | .ok (extensions, widgetMutableList) =>
    .ok ((removeParent (some otherName) extensions).reduceOption,
      (remove (some otherWidgetName) widgetDeleteCondition widgetMutableList).reduceOption)

/-- `groupBy[k]`, empty where the key is missing. -/
def group (k : ExtensionClass) (extensions : List IExtensionMetaData) : List IExtensionMetaData :=
  extensions.filter fun e => e.kind.javaClass = k

/-- Step 1. -/
def metaDataInjections (extensions : List IExtensionMetaData) (widgetList : List WidgetMetaData) :
    List Injection :=
  injectMetaData extensionSource (group .FeatureExtensionMetaData extensions) "initFeatureMetaData" ++
  injectMetaData extensionSource (group .ModuleExtensionMetaData extensions) "initModuleMetaData" ++
  injectMetaData extensionSource (group .WidgetExtensionMetaData extensions) "initWidgetMetaData" ++
  injectMetaData widgetSource widgetList "initWidgetList"

/-- The fold of step 2, group by group in one pass: it throws at the first invalid extension. -/
def validateAll : List IExtensionMetaData → Except PiscesException Unit
  | [] => .ok ()
  | e :: es =>
    match (ExtensionMetaData.ofEntry e).validate with
    | .error exc => .error exc
    | .ok () => validateAll es

/-- `extensionGroup[k]?.let { … }`. -/
def groupJSON (k : ExtensionClass) (extensions : List IExtensionMetaData) (methodName : String) :
    List Injection :=
  if (group k extensions).isEmpty then []
  else
    [.insertJSON methodName (.extensions
      ((group k extensions).map fun e => (ExtensionMetaData.ofEntry e).toJSON))]

/-- Step 2, once the fold is through. -/
def jsonInjections (extensions : List IExtensionMetaData) (widgetList : List WidgetMetaData) :
    List Injection :=
  groupJSON .FeatureExtensionMetaData extensions "getFeatureMetaDataJSONString" ++
  groupJSON .ModuleExtensionMetaData extensions "getModuleMetaDataJSONString" ++
  groupJSON .WidgetExtensionMetaData extensions "getWidgetMetaDataJSONString" ++
  [.insertJSON "getWidgetListJSONString" (.widgets (widgetList.map WidgetMetaData.toJSON))]

/-- The names of the features of one resident type. -/
def residentNames (t : FeatureResidentType) (extensions : List IExtensionMetaData) : List String :=
  (extensions.filter fun e => e.kind = .feature t).map IExtensionMetaData.name

/-- `"${extension.name}_${method.name}"` of the resident methods. -/
def residentMethods (extensions : List IExtensionMetaData) : List String :=
  (group .FeatureExtensionMetaData extensions).flatMap fun extension =>
    (extension.methods.filter fun m => m.residentType ≠ .NONE).map fun method =>
      extension.name ++ "_" ++ method.name

/-- Step 3. -/
def residentInjections (extensions : List IExtensionMetaData) : List Injection :=
  injectResidentSet (residentNames .USEABLE extensions) "initResidentWhiteSet" ++
  injectResidentSet (residentNames .RESIDENT_NORMAL extensions) "initResidentNormalSet" ++
  injectResidentSet (residentNames .RESIDENT_IMPORTANT extensions) "initResidentImportantSet" ++
  injectResidentSet (residentMethods extensions) "initMethodResidentWhiteSet"

/-- Lines 119-220. -/
def inject (extensions : List IExtensionMetaData) (widgetList : List WidgetMetaData) : Outcome :=
  match validateAll extensions with
  | .error exc => ⟨metaDataInjections extensions widgetList, .error exc⟩
  | .ok () => .done (metaDataInjections extensions widgetList ++ jsonInjections extensions widgetList ++
      residentInjections extensions)

def process (sons : List MetaData) : Outcome :=
  if (extensionsOf sons).isEmpty then .done []
  else if (widgetsOf sons).isEmpty then .done []
  else
    match survivors (inheritedOf sons) (extensionsOf sons) (widgetsOf sons) with
    | .error exc => ⟨[], .error exc⟩
    | .ok (extensions, widgetList) => inject extensions widgetList

theorem validateAll_ok_iff : ∀ es : List IExtensionMetaData,
    validateAll es = .ok () ↔ ∀ e ∈ es, (ExtensionMetaData.ofEntry e).validate = .ok ()
  | [] => by simp [validateAll]
  | e :: es => by
    rw [validateAll]
    cases h : (ExtensionMetaData.ofEntry e).validate with
    | error exc => simp [h]
    | ok u => simp [h, validateAll_ok_iff es]

theorem inject_ok_iff (es : List IExtensionMetaData) (ws : List WidgetMetaData) :
    (inject es ws).result = .ok () ↔ ∀ e ∈ es, (ExtensionMetaData.ofEntry e).validate = .ok () := by
  rw [inject, ← validateAll_ok_iff]
  cases validateAll es with
  | error exc => simp
  | ok u => simp [Outcome.done]

end QuickAppMetaDataProcessor

/-! ## GeminiMetaDataProcessor -/

namespace GeminiMetaDataProcessor

/-- Lines 38-52: the list `injectMetaData` is given. -/
def survivors (inherited : List InheritedMetaData) (extensions : List IExtensionMetaData) :
    Except PiscesException (List IExtensionMetaData) :=
  match resolveWebInherited inherited (removeParent (some otherName) (extensions.map some)) with
  | .error message => .error (.runtime message)
  | .ok extensions => .ok (removeParent (some otherName) extensions).reduceOption

def process (sons : List MetaData) : Outcome :=
  match survivors (inheritedOf sons) (extensionsOf sons) with
  | .error exc => ⟨[], .error exc⟩
  | .ok extensions => .done (injectMetaData extensionSource extensions "initFeatureMetaData")

end GeminiMetaDataProcessor

/-! ## EventTargetProcessor -/

namespace EventTargetProcessor

/-- `targets.add(eventTarget)`, the list made on the first event of that name. -/
def addTarget (allEventTargetMap : LinkedMap String (List EventTargetMetaData))
    (eventTarget : EventTargetMetaData) (event : String) :
    LinkedMap String (List EventTargetMetaData) :=
  allEventTargetMap.put event ((allEventTargetMap.get event).getD [] ++ [eventTarget])

def allEventTargetMap (eventTargets : List EventTargetMetaData) :
    LinkedMap String (List EventTargetMetaData) :=
  eventTargets.foldl (fun map eventTarget =>
    eventTarget.eventNames.foldl (fun map event => addTarget map eventTarget event) map) .empty

/-- Lines 36-49. -/
def sources (eventTargets : List EventTargetMetaData) : List Template :=
  (allEventTargetMap eventTargets).entries.flatMap fun (event, targets) =>
    targets.map fun et => eventTargetSource event et

def process (sons : List EventTargetMetaData) : Outcome :=
  let eventTargets := (removeParent none (sons.map some)).reduceOption
  if eventTargets.isEmpty then .done []
  else .done ((sources eventTargets).map (.insertAfter "initEventTargetMetaData"))

end EventTargetProcessor

/-! ## DependencyProcessor -/

namespace DependencyProcessor

def process (sons : List DependencyMetaData) : Outcome :=
  let deps := (removeParent none (sons.map some)).reduceOption
  if deps.isEmpty then .done []
  else .done [.insertAfter "initDependencyMetaData" (dependencySource deps)]

end DependencyProcessor

end HybridStack.Pisces
