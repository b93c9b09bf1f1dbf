import HybridStack.Pisces.Processors

/-!
# One kind and the others

What `QuickAppMetaDataProcessor.process` injects for one kind of entry, and what the entries of the
other kinds have to do with it. There are two gates in front (no extension, no widget: nothing is
injected), one removal pass for all extensions, and one `validate` for all of them before the JSON.

- **`kinds_apart`**: with the gates passed alike and no entry of the kind extended by a same-named
  extension of another kind, the injected statements depend on the entries of the kind only, and
  so does the JSON where both calls return.
- `kinds_interfere`: without a widget the registry of the features is lost.
-/

namespace HybridStack.Pisces

open JavaSource (Template)
open Sweep

inductive Kind | feature | module | widgetExtension | widget
  deriving DecidableEq

/-- `it::class.java` of an extension of this kind. -/
def Kind.javaClass : Kind → Option ExtensionClass
  | feature => some .FeatureExtensionMetaData
  | module => some .ModuleExtensionMetaData
  | widgetExtension => some .WidgetExtensionMetaData
  | widget => none

/-- `initXxxMetaData` or `initWidgetList`. -/
def Kind.initMethod : Kind → String
  | feature => "initFeatureMetaData"
  | module => "initModuleMetaData"
  | widgetExtension => "initWidgetMetaData"
  | widget => "initWidgetList"

/-- The method of the matching JSON string. -/
def Kind.jsonMethod : Kind → String
  | feature => "getFeatureMetaDataJSONString"
  | module => "getModuleMetaDataJSONString"
  | widgetExtension => "getWidgetMetaDataJSONString"
  | widget => "getWidgetListJSONString"

def Kind.ofEntry : MetaData → Option Kind
  | .extension e =>
    match e.kind.javaClass with
    | .FeatureExtensionMetaData => some .feature
    | .ModuleExtensionMetaData => some .module
    | .WidgetExtensionMetaData => some .widgetExtension
    | .WebFeatureExtensionMetaData => none
  | .widget _ => some .widget
  | .inherited _ => none

@[simp] theorem Kind.ofEntry_widget (w : WidgetMetaData) : ofEntry (.widget w) = some .widget := rfl
@[simp] theorem Kind.ofEntry_inherited (i : InheritedMetaData) : ofEntry (.inherited i) = none := rfl

/-- The extensions of a kind are those of its class. -/
theorem Kind.ofEntry_extension {K : Kind} {k : ExtensionClass} (hk : K.javaClass = some k)
    (e : IExtensionMetaData) : ofEntry (.extension e) = some K ↔ e.kind.javaClass = k := by
  cases K <;> cases hk <;> simp only [ofEntry] <;> cases e.kind.javaClass <;> decide

theorem Kind.ofEntry_extension_ne (e : IExtensionMetaData) :
    ofEntry (.extension e) ≠ some .widget := by
  simp only [ofEntry]
  cases e.kind.javaClass <;> decide

def entriesOf (K : Kind) (sons : List MetaData) : List MetaData :=
  sons.filter fun s => Kind.ofEntry s = some K

def Injection.method : Injection → String
  | insertAfter method _ => method
  | insertJSON method _ => method

@[simp] theorem Injection.method_insertAfter (method : String) (src : Template) :
    (insertAfter method src).method = method := rfl
@[simp] theorem Injection.method_insertJSON (method : String) (json : JSONArray) :
    (insertJSON method json).method = method := rfl

/-- What an outcome injects into one method. -/
def Outcome.into (o : Outcome) (method : String) : List Injection :=
  o.injected.filter fun i => i.method = method

/-! ## Injections by method -/

theorem injectMetaData_into {T : Type} (source : List T → Template) (a : List T)
    (method method' : String) :
    (injectMetaData source a method).filter (fun i => i.method = method') =
      if method = method' then injectMetaData source a method else [] := by
  unfold injectMetaData
  split_ifs with h1 h2 <;> simp [*]

theorem injectResidentSet_into {names : List String} {method method' : String}
    (h : method ≠ method') :
    (injectResidentSet names method).filter (fun i => i.method = method') = [] := by
  unfold injectResidentSet
  split_ifs <;> simp [h]

open QuickAppMetaDataProcessor

/-- The statements injected for a kind, from the surviving entries. -/
def statementsOf (K : Kind) (es : List IExtensionMetaData) (ws : List WidgetMetaData) :
    List Injection :=
  match K.javaClass with
  | some k => injectMetaData extensionSource (group k es) K.initMethod
  | none => injectMetaData widgetSource ws K.initMethod

/-- The JSON injected for a kind. -/
def jsonOf (K : Kind) (es : List IExtensionMetaData) (ws : List WidgetMetaData) : List Injection :=
  match K.javaClass with
  | some k => groupJSON k es K.jsonMethod
  | none => [.insertJSON K.jsonMethod (.widgets (ws.map WidgetMetaData.toJSON))]

theorem groupJSON_into (k : ExtensionClass) (es : List IExtensionMetaData) (method method' : String) :
    (groupJSON k es method).filter (fun i => i.method = method') =
      if method = method' then groupJSON k es method else [] := by
  unfold groupJSON
  split_ifs with h1 h2 <;> simp [*]

theorem metaDataInjections_into (K : Kind) (es : List IExtensionMetaData)
    (ws : List WidgetMetaData) :
    (metaDataInjections es ws).filter (fun i => i.method = K.initMethod) = statementsOf K es ws := by
  simp only [metaDataInjections, List.filter_append, injectMetaData_into]
  cases K <;> simp [statementsOf, Kind.javaClass, Kind.initMethod]

theorem jsonInjections_into (K : Kind) (es : List IExtensionMetaData) (ws : List WidgetMetaData) :
    (jsonInjections es ws).filter (fun i => i.method = K.jsonMethod) = jsonOf K es ws := by
  simp only [jsonInjections, List.filter_append, groupJSON_into]
  cases K <;> simp [jsonOf, Kind.javaClass, Kind.jsonMethod]

theorem metaDataInjections_into_json (K : Kind) (es : List IExtensionMetaData)
    (ws : List WidgetMetaData) :
    (metaDataInjections es ws).filter (fun i => i.method = K.jsonMethod) = [] := by
  simp only [metaDataInjections, List.filter_append, injectMetaData_into]
  cases K <;> simp [Kind.jsonMethod]

theorem jsonInjections_into_init (K : Kind) (es : List IExtensionMetaData)
    (ws : List WidgetMetaData) :
    (jsonInjections es ws).filter (fun i => i.method = K.initMethod) = [] := by
  simp only [jsonInjections, List.filter_append, groupJSON_into]
  cases K <;> simp [Kind.initMethod]

theorem residentInjections_into {method : String} (es : List IExtensionMetaData)
    (h : method ∉ ["initResidentWhiteSet", "initResidentNormalSet", "initResidentImportantSet",
      "initMethodResidentWhiteSet"]) :
    (residentInjections es).filter (fun i => i.method = method) = [] := by
  simp only [List.mem_cons, List.not_mem_nil, or_false, not_or] at h
  obtain ⟨h1, h2, h3, h4⟩ := h
  simp only [residentInjections, List.filter_append, injectResidentSet_into (Ne.symm h1),
    injectResidentSet_into (Ne.symm h2), injectResidentSet_into (Ne.symm h3),
    injectResidentSet_into (Ne.symm h4), List.append_nil]

theorem inject_into_init (K : Kind) (es : List IExtensionMetaData) (ws : List WidgetMetaData) :
    (inject es ws).into K.initMethod = statementsOf K es ws := by
  have hres : (residentInjections es).filter (fun i => i.method = K.initMethod) = [] :=
    residentInjections_into es (by cases K <;> decide)
  unfold inject Outcome.into
  cases validateAll es with
  | error exc => exact metaDataInjections_into K es ws
  | ok u =>
    simp only [Outcome.done, List.filter_append, metaDataInjections_into, jsonInjections_into_init,
      hres, List.append_nil]

theorem inject_into_json (K : Kind) {es : List IExtensionMetaData} (ws : List WidgetMetaData)
    (h : (inject es ws).result = .ok ()) : (inject es ws).into K.jsonMethod = jsonOf K es ws := by
  have hres : (residentInjections es).filter (fun i => i.method = K.jsonMethod) = [] :=
    residentInjections_into es (by cases K <;> decide)
  unfold inject Outcome.into at *
  cases hv : validateAll es with
  | error exc => simp [hv] at h
  | ok u =>
    simp only [Outcome.done, List.filter_append, metaDataInjections_into_json, jsonInjections_into,
      hres, List.nil_append, List.append_nil]

/-! ## Survivors of a kind -/

/-- No entry of the kind is extended by a same-named extension of another kind. -/
def Separate (K : Kind) (sons : List MetaData) : Prop :=
  ∀ a ∈ extensionsOf sons, ∀ b ∈ extensionsOf sons, some a.kind.javaClass ≠ K.javaClass →
    some b.kind.javaClass = K.javaClass → a.name = b.name → b.classname ∉ a.superClasses

instance (K : Kind) (sons : List MetaData) : Decidable (Separate K sons) :=
  inferInstanceAs (Decidable (∀ a ∈ extensionsOf sons, ∀ b ∈ extensionsOf sons,
    some a.kind.javaClass ≠ K.javaClass → some b.kind.javaClass = K.javaClass → a.name = b.name →
      b.classname ∉ a.superClasses))

/-- The gate in front of the kind: widgets for the extensions, extensions for the widgets. -/
def gate (K : Kind) (sons : List MetaData) : Bool :=
  match K.javaClass with
  | some _ => !(widgetsOf sons).isEmpty
  | none => !(extensionsOf sons).isEmpty

/-- Without takeovers both lists are swept as they came. -/
theorem survivors_nil (es : List IExtensionMetaData) (ws : List WidgetMetaData) :
    survivors [] es ws =
      .ok (sweep (guarded (some otherName) extendsB) es,
        sweep (guarded (some otherWidgetName) deletesWidget) ws) := by
  have hs : SkipOk (some otherName) := skipOk_ne IExtensionMetaData.name
  have hw : SkipOk (some otherWidgetName) := skipOk_ne WidgetMetaData.name
  have hred : ∀ {β : Type} (l : List β), (l.map some).reduceOption = l := fun l => by
    simp [List.reduceOption]
  simp only [survivors, resolveInherited, removeParent, remove_eq_sweep decides_d hs.symm,
    remove_eq_sweep decides_widget hw.symm, hred]

/-- The extensions of one class, swept apart from the others. -/
theorem group_sweep {K : Kind} {k : ExtensionClass} (hk : K.javaClass = some k)
    {sons : List MetaData} (hsep : Separate K sons) :
    group k (sweep (guarded (some otherName) extendsB) (extensionsOf sons)) =
      sweep (guarded (some otherName) extendsB) (group k (extensionsOf sons)) := by
  refine sweep_filter (fun e : IExtensionMetaData => decide (e.kind.javaClass = k)) fun a ha b hb hpa hpb => ?_
  by_contra hdom
  rw [Bool.not_eq_false, guarded_iff] at hdom
  obtain ⟨hskip, hext⟩ := hdom
  have hname : a.name = b.name := by simpa [skips, otherName] using hskip
  refine hsep a ha b hb ?_ ?_ hname (by simpa [extendsB, IsMetaData.superClasses, IsMetaData.classname] using hext)
  · simpa [hk] using hpa
  · simpa [hk] using hpb

/-- The entries of a kind are all that is left of `sons` for it. -/
theorem group_entriesOf {K : Kind} {k : ExtensionClass} (hk : K.javaClass = some k)
    (sons : List MetaData) : group k (extensionsOf sons) = extensionsOf (entriesOf K sons) := by
  induction sons with
  | nil => rfl
  | cons s sons ih =>
    cases s with
    | extension e =>
      have hiff := Kind.ofEntry_extension hk e
      by_cases he : e.kind.javaClass = k
      · rw [entriesOf, List.filter_cons_of_pos (by simpa using hiff.2 he), extensionsOf_extension,
          extensionsOf_extension, group, List.filter_cons_of_pos (by simpa using he)]
        exact congrArg (e :: ·) ih
      · rw [entriesOf, List.filter_cons_of_neg (by simpa [hiff] using he), extensionsOf_extension,
          group, List.filter_cons_of_neg (by simpa using he)]
        exact ih
    | widget w =>
      have hne : Kind.widget ≠ K := by
        rintro rfl
        cases hk
      rw [entriesOf, List.filter_cons_of_neg (by simpa using hne), extensionsOf_widget]
      exact ih
    | inherited i =>
      rw [entriesOf, List.filter_cons_of_neg (by simp), extensionsOf_inherited]
      exact ih

theorem widgetsOf_entriesOf (sons : List MetaData) :
    widgetsOf sons = widgetsOf (entriesOf .widget sons) := by
  induction sons with
  | nil => rfl
  | cons s sons ih =>
    cases s with
    | extension e =>
      rw [entriesOf, List.filter_cons_of_neg (by simpa using Kind.ofEntry_extension_ne e),
        widgetsOf_extension]
      exact ih
    | widget w =>
      rw [entriesOf, List.filter_cons_of_pos (by simp), widgetsOf_widget, widgetsOf_widget]
      exact congrArg (w :: ·) ih
    | inherited i =>
      rw [entriesOf, List.filter_cons_of_neg (by simp), widgetsOf_inherited]
      exact ih

/-! ## Two lists -/

/-- The lists that are left of `sons` without takeovers. -/
def sweptExtensions (sons : List MetaData) : List IExtensionMetaData :=
  sweep (guarded (some otherName) extendsB) (extensionsOf sons)

def sweptWidgets (sons : List MetaData) : List WidgetMetaData :=
  sweep (guarded (some otherWidgetName) deletesWidget) (widgetsOf sons)

theorem process_eq {sons : List MetaData} (hi : inheritedOf sons = []) : process sons =
    if extensionsOf sons = [] ∨ widgetsOf sons = [] then .done []
    else inject (sweptExtensions sons) (sweptWidgets sons) := by
  unfold process
  rw [hi, survivors_nil]
  by_cases he : extensionsOf sons = []
  · simp [he]
  · by_cases hw : widgetsOf sons = []
    · simp [hw]
    · simp [he, hw, sweptExtensions, sweptWidgets]

/-- Nothing is injected for an empty group, whether or not the gate lets through. -/
theorem statementsOf_eq_nil {K : Kind} {sons : List MetaData}
    (h : extensionsOf sons = [] ∨ widgetsOf sons = []) (hg : gate K sons = true) :
    statementsOf K (sweptExtensions sons) (sweptWidgets sons) = [] := by
  unfold gate at hg
  unfold statementsOf
  cases hk : K.javaClass with
  | some k =>
    have hw : widgetsOf sons ≠ [] := by simpa [hk] using hg
    simp [sweptExtensions, h.resolve_right hw, sweep, group, injectMetaData]
  | none =>
    have he : extensionsOf sons ≠ [] := by simpa [hk] using hg
    simp [sweptWidgets, h.resolve_left he, sweep, injectMetaData]

theorem process_into_init {K : Kind} {sons : List MetaData} (hi : inheritedOf sons = []) :
    (process sons).into K.initMethod =
      if gate K sons then statementsOf K (sweptExtensions sons) (sweptWidgets sons) else [] := by
  rw [process_eq hi]
  by_cases h : extensionsOf sons = [] ∨ widgetsOf sons = []
  · rw [if_pos h]
    split_ifs with hg
    · exact (statementsOf_eq_nil h hg).symm
    · rfl
  · have hg : gate K sons = true := by
      simp only [not_or] at h
      unfold gate
      cases K.javaClass <;> simp [h.1, h.2]
    rw [if_neg h, if_pos hg, inject_into_init]

theorem process_into_json {K : Kind} {sons : List MetaData} (hi : inheritedOf sons = [])
    (hok : (process sons).result = .ok ()) : (process sons).into K.jsonMethod =
      if gate K sons ∧ (K = .widget → widgetsOf sons ≠ []) then
        jsonOf K (sweptExtensions sons) (sweptWidgets sons)
      else [] := by
  rw [process_eq hi] at hok ⊢
  by_cases h : extensionsOf sons = [] ∨ widgetsOf sons = []
  · rw [if_pos h]
    split_ifs with hg
    · obtain ⟨hg, hne⟩ := hg
      have hnil : jsonOf K (sweptExtensions sons) (sweptWidgets sons) = [] := by
        unfold gate at hg
        unfold jsonOf
        cases hk : K.javaClass with
        | some k =>
          have hw : widgetsOf sons ≠ [] := by simpa [hk] using hg
          simp [sweptExtensions, h.resolve_right hw, sweep, group, groupJSON]
        | none =>
          have he : extensionsOf sons ≠ [] := by simpa [hk] using hg
          have hK : K = .widget := by cases K <;> simp [Kind.javaClass] at hk ⊢
          exact absurd (h.resolve_left he) (hne hK)
      exact hnil.symm
    · rfl
  · rw [if_neg h] at hok ⊢
    simp only [not_or] at h
    have hg : gate K sons = true := by
      unfold gate
      cases K.javaClass <;> simp [h.1, h.2]
    rw [if_pos ⟨hg, fun _ => h.2⟩, inject_into_json K _ hok]

section
variable {K : Kind} {sons sons' : List MetaData}

theorem sweptWidgets_congr (h : entriesOf .widget sons = entriesOf .widget sons') :
    sweptWidgets sons = sweptWidgets sons' := by
  rw [sweptWidgets, sweptWidgets, widgetsOf_entriesOf, h, ← widgetsOf_entriesOf]

theorem group_congr {k : ExtensionClass} (hk : K.javaClass = some k)
    (h : entriesOf K sons = entriesOf K sons') (hsep : Separate K sons)
    (hsep' : Separate K sons') : group k (sweptExtensions sons) = group k (sweptExtensions sons') := by
  rw [sweptExtensions, sweptExtensions, group_sweep hk hsep, group_sweep hk hsep',
    group_entriesOf hk, group_entriesOf hk, h]

theorem eq_widget (hk : K.javaClass = none) : K = .widget := by
  cases K <;> simp [Kind.javaClass] at hk ⊢

/-- **What is injected for a kind depends on the entries of the kind**, given the same gate and no
interference inside the removal pass. -/
theorem kinds_apart (K : Kind) (sons sons' : List MetaData) (hi : inheritedOf sons = [])
    (hi' : inheritedOf sons' = []) (hent : entriesOf K sons = entriesOf K sons')
    (hgate : gate K sons = gate K sons') (hsep : Separate K sons) (hsep' : Separate K sons') :
    (process sons).into K.initMethod = (process sons').into K.initMethod ∧
    ((process sons).result = .ok () → (process sons').result = .ok () →
      (process sons).into K.jsonMethod = (process sons').into K.jsonMethod) := by
  constructor
  · have hst : statementsOf K (sweptExtensions sons) (sweptWidgets sons) =
        statementsOf K (sweptExtensions sons') (sweptWidgets sons') := by
      unfold statementsOf
      cases hk : K.javaClass with
      | some k => simp only [group_congr hk hent hsep hsep']
      | none =>
        obtain rfl := eq_widget hk
        simp only [sweptWidgets_congr hent]
    rw [process_into_init hi, process_into_init hi', hst, hgate]
  · intro hok hok'
    have hjson : jsonOf K (sweptExtensions sons) (sweptWidgets sons) =
        jsonOf K (sweptExtensions sons') (sweptWidgets sons') := by
      unfold jsonOf
      cases hk : K.javaClass with
      | some k => simp only [groupJSON, group_congr hk hent hsep hsep']
      | none =>
        obtain rfl := eq_widget hk
        simp only [sweptWidgets_congr hent]
    have hw : (K = .widget → widgetsOf sons ≠ []) ↔ (K = .widget → widgetsOf sons' ≠ []) := by
      refine forall_congr' fun hK => ?_
      subst hK
      rw [widgetsOf_entriesOf sons, hent, ← widgetsOf_entriesOf sons']
    rw [process_into_json hi hok, process_into_json hi' hok', hjson, hgate]
    simp only [hw]

end

/-! ## Where the kinds meet -/

def cameraFeature : MetaData := .extension ⟨.feature .USEABLE, "system.camera", "Camera", [], []⟩

/-- A module of the same name, by a subclass. -/
def cameraModule : MetaData := .extension ⟨.module, "system.camera", "CameraModule", ["Camera"], []⟩

def audioModule : MetaData := .extension ⟨.module, "system.audio", "Audio", [], []⟩
def listWidget : MetaData := .widget ⟨"list", "ListWidget", [], false, [], []⟩

theorem kinds_apart_camera :
    inheritedOf [cameraFeature, listWidget] = [] ∧
    inheritedOf [audioModule, listWidget, cameraFeature] = [] ∧
    entriesOf .feature [cameraFeature, listWidget] =
      entriesOf .feature [audioModule, listWidget, cameraFeature] ∧
    (process [cameraFeature, listWidget]).into "initFeatureMetaData" =
      (process [audioModule, listWidget, cameraFeature]).into "initFeatureMetaData" :=
  ⟨rfl, rfl, rfl, (kinds_apart .feature [cameraFeature, listWidget]
    [audioModule, listWidget, cameraFeature] rfl rfl rfl rfl (by decide) (by decide)).1⟩

/-- **The kinds do interfere**: the feature is registered only where a widget is listed, too. -/
theorem kinds_interfere : ¬ ∀ (K : Kind) (sons sons' : List MetaData), inheritedOf sons = [] →
    inheritedOf sons' = [] → entriesOf K sons = entriesOf K sons' →
      (process sons).into K.initMethod = (process sons').into K.initMethod := by
  intro h
  have heq := h .feature [cameraFeature] [cameraFeature, listWidget] rfl rfl rfl
  have hnone : ((process [cameraFeature]).into "initFeatureMetaData").length = 0 := by rfl
  have hone : ((process [cameraFeature, listWidget]).into "initFeatureMetaData").length = 1 := by
    rfl
  rw [show Kind.feature.initMethod = "initFeatureMetaData" from rfl] at heq
  rw [heq, hone] at hnone
  exact Nat.one_ne_zero hnone

/-- The removal pass, too: a subclass of another kind and the same name takes the feature away. -/
example : ((process [cameraFeature, cameraModule, listWidget]).into "initFeatureMetaData").length = 0 := by
  rfl

end HybridStack.Pisces
