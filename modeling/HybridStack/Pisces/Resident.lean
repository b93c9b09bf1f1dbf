import HybridStack.Lib.LastOfKey
import HybridStack.Pisces.Registry

/-!
# Resident white lists

Step 3 of `QuickAppMetaDataProcessor.process` fills three sets with the names of the features of one
resident type, and a fourth with `name_method` of every resident method. The sets collect all
surviving features; the registry keeps the last one of a name, and of its methods the last one of a
name. A key of the fourth set does not tell where the name ends.

- `mem_residentNames`, `mem_residentMethods`: what the sets hold.
- `split_key`: in how many ways a key can be read.
- **`grants_iff`**: the sets grant exactly what is registered if and only if a feature or method
  that is declared again stays what it was, and the names of resident methods can take over the
  part behind an underscore from the name of their feature, and the other way round.
- `grants_too_much`: the key of `__init__`.
-/

namespace HybridStack.Pisces

open JavaSource
open LastOfKey (IsLast exists_isLast find?_reverse_eq_some_iff)

variable (U : UnicodeIdent)

/-! ## Running the statements -/

/-- `$1.add("…");` on a set. -/
def setStep (set : List String) : Stmt → Option (List String)
  | .call ⟨"$1", ["add"]⟩ [.str s] => some (if s ∈ set then set else set ++ [s])
  | _ => none

def runSetInjection (set : List String) : Injection → Option (List String)
  | .insertAfter _ src => do
    let ss ← src.stmts U
    ss.foldlM setStep set
  | .insertJSON _ _ => some set

/-- The set after everything injected into a method has run on an empty one. -/
def setAfter (injected : List Injection) : Option (List String) :=
  injected.foldlM (runSetInjection U) []

theorem run_residentStmts : ∀ (names set : List String), ∃ set',
    (residentStmts names).foldlM setStep set = some set' ∧ ∀ s, s ∈ set' ↔ s ∈ set ∨ s ∈ names
  | [], set => ⟨set, rfl, by simp⟩
  | name :: names, set => by
    obtain ⟨set', hrun, hmem⟩ := run_residentStmts names (if name ∈ set then set else set ++ [name])
    refine ⟨set', hrun, fun s => ?_⟩
    rw [hmem]
    by_cases h : name ∈ set
    · rw [if_pos h, List.mem_cons]
      constructor
      · exact fun hs => hs.imp_right Or.inr
      · rintro (hs | rfl | hs)
        · exact Or.inl hs
        · exact Or.inl h
        · exact Or.inr hs
    · rw [if_neg h, List.mem_append, List.mem_singleton, List.mem_cons, or_assoc]

theorem setAfter_injectResidentSet (names : List String) (method : String) : ∃ set,
    setAfter U (injectResidentSet names method) = some set ∧ ∀ s, s ∈ set ↔ s ∈ names := by
  unfold injectResidentSet
  split_ifs with h
  · exact ⟨[], rfl, by simp [List.isEmpty_iff.1 h]⟩
  · obtain ⟨set, hrun, hmem⟩ := run_residentStmts names []
    refine ⟨set, ?_, by simpa using hmem⟩
    simp [setAfter, runSetInjection, residentSource_stmts, hrun]

/-! ## The four methods -/

/-- The method whose set holds the features of a resident type. -/
def residentSetMethod : FeatureResidentType → Option String
  | .FORBIDDEN => none
  | .USEABLE => some "initResidentWhiteSet"
  | .RESIDENT_NORMAL => some "initResidentNormalSet"
  | .RESIDENT_IMPORTANT => some "initResidentImportantSet"

open QuickAppMetaDataProcessor

theorem injectResidentSet_into_self (names : List String) (method : String) :
    (injectResidentSet names method).filter (fun i => i.method = method) =
      injectResidentSet names method := by
  unfold injectResidentSet
  split_ifs <;> simp

theorem metaDataInjections_into_other {method : String} (h : ∀ K : Kind, K.initMethod ≠ method)
    (es : List IExtensionMetaData) (ws : List WidgetMetaData) :
    (metaDataInjections es ws).filter (fun i => i.method = method) = [] := by
  have hf : "initFeatureMetaData" ≠ method := h .feature
  have hm : "initModuleMetaData" ≠ method := h .module
  have he : "initWidgetMetaData" ≠ method := h .widgetExtension
  have hw : "initWidgetList" ≠ method := h .widget
  simp [metaDataInjections, injectMetaData_into, hf, hm, he, hw]

theorem jsonInjections_into_other {method : String} (h : ∀ K : Kind, K.jsonMethod ≠ method)
    (es : List IExtensionMetaData) (ws : List WidgetMetaData) :
    (jsonInjections es ws).filter (fun i => i.method = method) = [] := by
  have hf : "getFeatureMetaDataJSONString" ≠ method := h .feature
  have hm : "getModuleMetaDataJSONString" ≠ method := h .module
  have he : "getWidgetMetaDataJSONString" ≠ method := h .widgetExtension
  have hw : "getWidgetListJSONString" ≠ method := h .widget
  simp [jsonInjections, groupJSON_into, hf, hm, he, hw]

/-- A resident method gets what step 3 injects. -/
theorem inject_into_resident {method : String} (hi : ∀ K : Kind, K.initMethod ≠ method)
    (hj : ∀ K : Kind, K.jsonMethod ≠ method) {es : List IExtensionMetaData}
    {ws : List WidgetMetaData} (hok : (inject es ws).result = .ok ()) :
    (inject es ws).into method = (residentInjections es).filter fun i => i.method = method := by
  unfold inject Outcome.into at *
  cases hv : validateAll es with
  | error exc => simp [hv] at hok
  | ok u =>
    simp only [Outcome.done, List.filter_append, metaDataInjections_into_other hi,
      jsonInjections_into_other hj, List.nil_append]

theorem inject_into_type {t : FeatureResidentType} {method : String}
    (ht : residentSetMethod t = some method) {es : List IExtensionMetaData}
    {ws : List WidgetMetaData} (hok : (inject es ws).result = .ok ()) :
    (inject es ws).into method = injectResidentSet (residentNames t es) method := by
  cases t <;> cases ht
  all_goals
    rw [inject_into_resident (by intro K; cases K <;> decide) (by intro K; cases K <;> decide) hok]
    simp [residentInjections, injectResidentSet_into, injectResidentSet_into_self]

theorem inject_into_methods {es : List IExtensionMetaData} {ws : List WidgetMetaData}
    (hok : (inject es ws).result = .ok ()) : (inject es ws).into "initMethodResidentWhiteSet" =
      injectResidentSet (residentMethods es) "initMethodResidentWhiteSet" := by
  rw [inject_into_resident (by intro K; cases K <;> decide) (by intro K; cases K <;> decide) hok]
  simp [residentInjections, injectResidentSet_into, injectResidentSet_into_self]

/-! ## What is granted, and what is registered -/

/-- The feature registered under a name: the last one. -/
def registeredUnder (es : List IExtensionMetaData) (name : String) : Option IExtensionMetaData :=
  (group .FeatureExtensionMetaData es).reverse.find? fun e => e.name = name

/-- The method a feature has under a name: the last one declared. -/
def declaredMethod (e : IExtensionMetaData) (name : String) : Option Method :=
  e.methods.reverse.find? fun m => m.name = name

/-- The method `m` of the feature registered under `N` is resident. -/
def Resident (es : List IExtensionMetaData) (N m : String) : Prop :=
  ∃ f, registeredUnder es N = some f ∧ ∃ method, declaredMethod f m = some method ∧
    method.residentType ≠ .NONE

theorem mem_residentNames {t : FeatureResidentType} {es : List IExtensionMetaData} {N : String} :
    N ∈ residentNames t es ↔ ∃ f ∈ es, f.kind = .feature t ∧ f.name = N := by
  simp [residentNames, and_assoc]

theorem mem_residentMethods {es : List IExtensionMetaData} {key : String} :
    key ∈ residentMethods es ↔ ∃ f ∈ group .FeatureExtensionMetaData es, ∃ m ∈ f.methods,
      m.residentType ≠ .NONE ∧ f.name ++ "_" ++ m.name = key := by
  simp [residentMethods, and_assoc]

/-- The registered feature of a name is one of the features. -/
theorem mem_of_registeredUnder {es : List IExtensionMetaData} {N : String} {f : IExtensionMetaData}
    (h : registeredUnder es N = some f) : f ∈ group .FeatureExtensionMetaData es ∧ f.name = N :=
  ⟨List.mem_reverse.1 (List.mem_of_find?_eq_some h), by simpa using List.find?_some h⟩

theorem mem_of_declaredMethod {e : IExtensionMetaData} {name : String} {m : Method}
    (h : declaredMethod e name = some m) : m ∈ e.methods ∧ m.name = name :=
  ⟨List.mem_reverse.1 (List.mem_of_find?_eq_some h), by simpa using List.find?_some h⟩

theorem find?_map_key {α β : Type} (key : α → String) (val : α → β) (l : List α) (k : String) :
    ((l.map fun a => (key a, val a)).find? fun p => p.1 = k) =
      (l.find? fun a => key a = k).map fun a => (key a, val a) := by
  rw [List.find?_map]
  rfl

/-- `registeredUnder` and `declaredMethod` are what the registry holds. -/
theorem registry_registeredUnder (es : List IExtensionMetaData) (N : String) :
    (LinkedMap.ofList ((group .FeatureExtensionMetaData es).map fun e =>
      (e.name, runtimeOf e))).get N = (registeredUnder es N).map runtimeOf := by
  rw [LinkedMap.get_ofList, ← List.map_reverse, find?_map_key, Option.map_map]
  rfl

theorem methods_declaredMethod (e : IExtensionMetaData) (m : String) :
    (runtimeOf e).methods.get m = (declaredMethod e m).map runtimeMethod := by
  rw [runtimeOf, LinkedMap.get_ofList, ← List.map_reverse, find?_map_key, Option.map_map]
  rfl

/-- The sets grant exactly what is registered. -/
structure GrantsExact (o : Outcome) (es : List IExtensionMetaData) : Prop where
  types : ∀ t method, residentSetMethod t = some method → ∃ set,
    setAfter U (o.into method) = some set ∧
      ∀ N, N ∈ set ↔ ∃ f, registeredUnder es N = some f ∧ f.kind = .feature t
  methods : ∃ set, setAfter U (o.into "initMethodResidentWhiteSet") = some set ∧
    ∀ N m, N ++ "_" ++ m ∈ set ↔ Resident es N m

/-- Some feature of that name declares a resident method of that name. -/
def DeclaredResident (es : List IExtensionMetaData) (N m : String) : Prop :=
  ∃ f ∈ group .FeatureExtensionMetaData es, f.name = N ∧ ∃ x ∈ f.methods, x.name = m ∧
    x.residentType ≠ .NONE

/-- What the names of features and methods may not do: a feature that takes a name over from another
has its type, if that is not `FORBIDDEN`, and its resident methods; a method that is declared again
as `NONE` was `NONE`; and what the underscores of a name can be read as is declared as well. -/
structure Unambiguously (es : List IExtensionMetaData) : Prop where
  types : ∀ before f, IsLast IExtensionMetaData.name (group .FeatureExtensionMetaData es) before f →
    ∀ g ∈ before, g.name = f.name → g.kind = .feature .FORBIDDEN ∨ g.kind = f.kind
  methods : ∀ before f, IsLast IExtensionMetaData.name (group .FeatureExtensionMetaData es) before f →
    ∀ g ∈ before, g.name = f.name → ∀ x ∈ g.methods, x.residentType ≠ .NONE →
      ∃ y ∈ f.methods, y.name = x.name ∧ y.residentType ≠ .NONE
  declarations : ∀ before f,
    IsLast IExtensionMetaData.name (group .FeatureExtensionMetaData es) before f →
    ∀ ms x, IsLast Method.name f.methods ms x → x.residentType = .NONE →
      ∀ y ∈ ms, y.name = x.name → y.residentType = .NONE
  inFeatureName : ∀ a b m, DeclaredResident es (a ++ "_" ++ b) m → DeclaredResident es a (b ++ "_" ++ m)
  inMethodName : ∀ N a b, DeclaredResident es N (a ++ "_" ++ b) → DeclaredResident es (N ++ "_" ++ a) b

/-! ## When they are the same -/

theorem registeredUnder_iff {es : List IExtensionMetaData} {N : String} {f : IExtensionMetaData} :
    registeredUnder es N = some f ↔ f.name = N ∧
      ∃ before, IsLast IExtensionMetaData.name (group .FeatureExtensionMetaData es) before f :=
  find?_reverse_eq_some_iff

theorem declaredMethod_iff {e : IExtensionMetaData} {m : String} {x : Method} :
    declaredMethod e m = some x ↔ x.name = m ∧ ∃ ms, IsLast Method.name e.methods ms x :=
  find?_reverse_eq_some_iff

theorem Resident.declared {es : List IExtensionMetaData} {N m : String} (h : Resident es N m) :
    DeclaredResident es N m := by
  obtain ⟨f, hf, x, hx, hres⟩ := h
  obtain ⟨hmem, hname⟩ := mem_of_registeredUnder hf
  obtain ⟨hxmem, hxname⟩ := mem_of_declaredMethod hx
  exact ⟨f, hmem, hname, x, hxmem, hxname, hres⟩

theorem mem_residentMethods_iff {es : List IExtensionMetaData} {key : String} :
    key ∈ residentMethods es ↔ ∃ N m, DeclaredResident es N m ∧ N ++ "_" ++ m = key := by
  rw [mem_residentMethods]
  constructor
  · rintro ⟨f, hf, x, hx, hres, hkey⟩
    exact ⟨f.name, x.name, ⟨f, hf, rfl, x, hx, rfl, hres⟩, hkey⟩
  · rintro ⟨-, -, ⟨f, hf, rfl, x, hx, rfl, hres⟩, hkey⟩
    exact ⟨f, hf, x, hx, hres, hkey⟩

/-- The readings of a key differ in the underscore that they split it at. -/
theorem split_key {N m N' m' : String} (h : N ++ "_" ++ m = N' ++ "_" ++ m') :
    N = N' ∧ m = m' ∨ (∃ b, N' = N ++ "_" ++ b ∧ m = b ++ "_" ++ m') ∨
      ∃ a, m' = a ++ "_" ++ m ∧ N = N' ++ "_" ++ a := by
  have hl : N.toList ++ '_' :: m.toList = N'.toList ++ '_' :: m'.toList := by
    have htoList := congrArg String.toList h
    simpa using htoList
  rcases List.append_eq_append_iff.1 hl with ⟨as, hN', hm⟩ | ⟨bs, hN, hm'⟩
  · rcases List.cons_eq_append_iff.1 hm with ⟨rfl, hcons⟩ | ⟨b, rfl, hcons⟩
    · refine Or.inl ⟨?_, ?_⟩
      · rw [List.append_nil] at hN'
        exact (String.toList_inj.1 hN').symm
      · exact (String.toList_inj.1 (List.cons.inj hcons).2).symm
    · refine Or.inr (Or.inl ⟨String.ofList b, ?_, ?_⟩)
      · apply String.toList_inj.1
        simp [hN']
      · apply String.toList_inj.1
        simp [hcons]
  · rcases List.cons_eq_append_iff.1 hm' with ⟨rfl, hcons⟩ | ⟨a, rfl, hcons⟩
    · refine Or.inl ⟨?_, ?_⟩
      · rw [List.append_nil] at hN
        exact String.toList_inj.1 hN
      · exact String.toList_inj.1 (List.cons.inj hcons).2
    · refine Or.inr (Or.inr ⟨String.ofList a, ?_, ?_⟩)
      · apply String.toList_inj.1
        simp [hcons]
      · apply String.toList_inj.1
        simp [hN]

theorem grantsExact_iff_sets {es : List IExtensionMetaData} {ws : List WidgetMetaData}
    (hok : (inject es ws).result = .ok ()) : GrantsExact U (inject es ws) es ↔
      (∀ t, t ≠ .FORBIDDEN → ∀ N, N ∈ residentNames t es ↔
        ∃ f, registeredUnder es N = some f ∧ f.kind = .feature t) ∧
      ∀ N m, N ++ "_" ++ m ∈ residentMethods es ↔ Resident es N m := by
  obtain ⟨keys, hkeys, hmemKeys⟩ :=
    setAfter_injectResidentSet U (residentMethods es) "initMethodResidentWhiteSet"
  rw [← inject_into_methods hok] at hkeys
  constructor
  · intro h
    constructor
    · intro t ht N
      obtain ⟨method, hmethod⟩ : ∃ method, residentSetMethod t = some method := by
        cases t <;> first | exact absurd rfl ht | exact ⟨_, rfl⟩
      obtain ⟨set, hset, hmem⟩ := h.types t method hmethod
      obtain ⟨names, hnames, hmemNames⟩ :=
        setAfter_injectResidentSet U (residentNames t es) method
      rw [← inject_into_type hmethod hok, hset] at hnames
      obtain rfl := Option.some.inj hnames
      rw [← hmemNames, hmem]
    · intro N m
      obtain ⟨set, hset, hmem⟩ := h.methods
      rw [hkeys] at hset
      obtain rfl := Option.some.inj hset
      rw [← hmemKeys, hmem]
  · rintro ⟨htypes, hmethods⟩
    constructor
    · intro t method hmethod
      have ht : t ≠ .FORBIDDEN := by
        rintro rfl
        cases hmethod
      obtain ⟨names, hnames, hmemNames⟩ :=
        setAfter_injectResidentSet U (residentNames t es) method
      rw [← inject_into_type hmethod hok] at hnames
      exact ⟨names, hnames, fun N => (hmemNames N).trans (htypes t ht N)⟩
    · exact ⟨keys, hkeys, fun N m => (hmemKeys _).trans (hmethods N m)⟩

theorem mem_group_of_feature {es : List IExtensionMetaData} {f : IExtensionMetaData}
    {t : FeatureResidentType} (hf : f ∈ es) (hkind : f.kind = .feature t) :
    f ∈ group .FeatureExtensionMetaData es := by
  unfold group
  rw [List.mem_filter, hkind]
  exact ⟨hf, rfl⟩

theorem feature_of_mem_group {es : List IExtensionMetaData} {f : IExtensionMetaData}
    (hf : f ∈ group .FeatureExtensionMetaData es) : f ∈ es ∧ ∃ t, f.kind = .feature t := by
  obtain ⟨hmem, hclass⟩ := List.mem_filter.1 hf
  refine ⟨hmem, ?_⟩
  cases hkind : f.kind with
  | feature t => exact ⟨t, rfl⟩
  | module => simp [hkind] at hclass; cases hclass
  | widgetExtension => simp [hkind] at hclass; cases hclass
  | webFeature => simp [hkind] at hclass; cases hclass

/-- The three sets of names are right when a name is taken over with its type. -/
theorem types_iff {es : List IExtensionMetaData} :
    (∀ t, t ≠ .FORBIDDEN → ∀ N, N ∈ residentNames t es ↔
      ∃ f, registeredUnder es N = some f ∧ f.kind = .feature t) ↔
    ∀ before f, IsLast IExtensionMetaData.name (group .FeatureExtensionMetaData es) before f →
      ∀ g ∈ before, g.name = f.name → g.kind = .feature .FORBIDDEN ∨ g.kind = f.kind := by
  constructor
  · intro h before f hlast g hg hname
    have hgroup : g ∈ group .FeatureExtensionMetaData es := by
      obtain ⟨after, heq, -⟩ := hlast
      rw [heq]
      exact List.mem_append_left _ hg
    obtain ⟨hmem, t, hkind⟩ := feature_of_mem_group hgroup
    by_cases ht : t = .FORBIDDEN
    · exact Or.inl (ht ▸ hkind)
    · obtain ⟨f', hf', hkind'⟩ := (h t ht f.name).1 (mem_residentNames.2 ⟨g, hmem, hkind, hname⟩)
      rw [registeredUnder_iff.2 ⟨rfl, before, hlast⟩] at hf'
      obtain rfl := Option.some.inj hf'
      exact Or.inr (hkind.trans hkind'.symm)
  · intro h t ht N
    rw [mem_residentNames]
    constructor
    · rintro ⟨g, hg, hkind, rfl⟩
      have hgroup := mem_group_of_feature hg hkind
      obtain ⟨before, f, hlast, hname⟩ : ∃ before f, IsLast IExtensionMetaData.name _ before f ∧ _ :=
        exists_isLast hgroup
      refine ⟨f, registeredUnder_iff.2 ⟨hname, before, hlast⟩, ?_⟩
      rcases hlast.mem_cases hgroup hname.symm with hbefore | rfl
      · rcases h before f hlast g hbefore hname.symm with hforbidden | hsame
        · rw [hkind] at hforbidden
          cases hforbidden
          exact absurd rfl ht
        · rw [← hsame, hkind]
      · exact hkind
    · rintro ⟨f, hf, hkind⟩
      obtain ⟨hmem, hname⟩ := mem_of_registeredUnder hf
      exact ⟨f, List.mem_of_mem_filter hmem, hkind, hname⟩

/-- No resident method is overridden by one that is not. -/
theorem Unambiguously.resident {es : List IExtensionMetaData} (h : Unambiguously es) {N m : String}
    (hdecl : DeclaredResident es N m) : Resident es N m := by
  obtain ⟨g, hg, rfl, x, hx, rfl, hres⟩ := hdecl
  obtain ⟨before, f, hlast, hname⟩ : ∃ before f, IsLast IExtensionMetaData.name _ before f ∧ _ :=
    exists_isLast hg
  refine ⟨f, registeredUnder_iff.2 ⟨hname, before, hlast⟩, ?_⟩
  obtain ⟨y, hy, hyname, hyres⟩ : ∃ y ∈ f.methods, y.name = x.name ∧ y.residentType ≠ .NONE := by
    rcases hlast.mem_cases hg hname.symm with hbefore | rfl
    · exact h.methods before f hlast g hbefore hname.symm x hx hres
    · exact ⟨x, hx, rfl, hres⟩
  obtain ⟨ms, z, hz, hzname⟩ : ∃ ms z, IsLast Method.name _ ms z ∧ _ := exists_isLast hy
  refine ⟨z, declaredMethod_iff.2 ⟨hzname.trans hyname, ms, hz⟩, ?_⟩
  intro hnone
  rcases hz.mem_cases hy hzname.symm with hms | rfl
  · exact hyres (h.declarations before f hlast ms z hz hnone y hms hzname.symm)
  · exact hyres hnone

theorem grantsExact_iff {es : List IExtensionMetaData} {ws : List WidgetMetaData}
    (hok : (inject es ws).result = .ok ()) :
    GrantsExact U (inject es ws) es ↔ Unambiguously es := by
  rw [grantsExact_iff_sets U hok, types_iff]
  simp only [mem_residentMethods_iff]
  constructor
  · rintro ⟨htypes, hkeys⟩
    -- every reading of the key of a declared method is declared
    have hdecl : ∀ N m N' m', DeclaredResident es N m → N ++ "_" ++ m = N' ++ "_" ++ m' →
        Resident es N' m' := by
      intro N m N' m' h hkey
      exact (hkeys N' m').1 ⟨N, m, h, hkey⟩
    have hown : ∀ before f, IsLast IExtensionMetaData.name (group .FeatureExtensionMetaData es) before f →
        ∀ m, DeclaredResident es f.name m → ∃ y, declaredMethod f m = some y ∧ y.residentType ≠ .NONE := by
      intro before f hlast m h
      obtain ⟨f', hf', hy⟩ := hdecl f.name m f.name m h rfl
      rw [registeredUnder_iff.2 ⟨rfl, before, hlast⟩] at hf'
      obtain rfl := Option.some.inj hf'
      exact hy
    refine ⟨htypes, ?_, ?_, ?_, ?_⟩
    · intro before f hlast g hg hname x hx hres
      have hgroup : g ∈ group .FeatureExtensionMetaData es := by
        obtain ⟨after, heq, -⟩ := hlast
        rw [heq]
        exact List.mem_append_left _ hg
      obtain ⟨y, hy, hyres⟩ := hown before f hlast x.name ⟨g, hgroup, hname, x, hx, rfl, hres⟩
      obtain ⟨hymem, hyname⟩ := mem_of_declaredMethod hy
      exact ⟨y, hymem, hyname, hyres⟩
    · intro before f hlast ms x hx hnone y hy hname
      by_contra hres
      have hymem : y ∈ f.methods := by
        obtain ⟨after, heq, -⟩ := hx
        rw [heq]
        exact List.mem_append_left _ hy
      obtain ⟨z, hz, hzres⟩ := hown before f hlast x.name ⟨f, hlast.mem, rfl, y, hymem, hname, hres⟩
      rw [declaredMethod_iff.2 ⟨rfl, ms, hx⟩] at hz
      obtain rfl := Option.some.inj hz
      exact hzres hnone
    · intro a b m h
      apply Resident.declared
      apply hdecl _ _ _ _ h
      simp only [String.append_assoc]
    · intro N a b h
      apply Resident.declared
      apply hdecl _ _ _ _ h
      simp only [String.append_assoc]
  · intro h
    refine ⟨h.types, fun N m => ⟨?_, ?_⟩⟩
    · rintro ⟨N', m', hdecl, hkey⟩
      apply h.resident
      rcases split_key hkey with ⟨rfl, rfl⟩ | ⟨b, rfl, rfl⟩ | ⟨a, rfl, rfl⟩
      · exact hdecl
      · exact h.inMethodName N' b m hdecl
      · exact h.inFeatureName N a m' hdecl
    · exact fun hres => ⟨N, m, hres.declared, rfl⟩

/-- **The white lists grant exactly what is registered** if and only if the features speak of it
unambiguously. -/
theorem grants_iff (es : List IExtensionMetaData) (ws : List WidgetMetaData)
    (hok : (inject es ws).result = .ok ()) :
    (∃ map, registryAfter U ((inject es ws).into "initFeatureMetaData") = some map ∧
      ∀ N, map.get N = (registeredUnder es N).map runtimeOf) ∧
    (GrantsExact U (inject es ws) es ↔ Unambiguously es) :=
  ⟨⟨_, registryAfter_inject U (K := .feature) rfl hok, registry_registeredUnder es⟩,
    grantsExact_iff U hok⟩

theorem ne_of_no_underscore {s a b : String} (hs : '_' ∉ s.toList) : a ++ "_" ++ b ≠ s := by
  rintro rfl
  apply hs
  simp

/-- A key with one underscore is read in one way. -/
theorem split_once {N m a b : String} (hN : '_' ∉ N.toList) (hm : '_' ∉ m.toList)
    (h : a ++ "_" ++ b = N ++ "_" ++ m) : a = N ∧ b = m := by
  rcases split_key h with heq | ⟨c, hc, -⟩ | ⟨c, hc, -⟩
  · exact heq
  · exact absurd hc.symm (ne_of_no_underscore hN)
  · exact absurd hc.symm (ne_of_no_underscore hm)

/-- Where no name comes twice only the underscores matter. -/
theorem Unambiguously.of_nodup {es : List IExtensionMetaData}
    (hfeatures : ((group .FeatureExtensionMetaData es).map IExtensionMetaData.name).Nodup)
    (hmethods : ∀ f ∈ group .FeatureExtensionMetaData es, (f.methods.map Method.name).Nodup)
    (hfeature : ∀ a b m, DeclaredResident es (a ++ "_" ++ b) m → DeclaredResident es a (b ++ "_" ++ m))
    (hmethod : ∀ N a b, DeclaredResident es N (a ++ "_" ++ b) → DeclaredResident es (N ++ "_" ++ a) b) :
    Unambiguously es where
  types _ _ hlast _ hg hname := absurd hname (hlast.ne_of_nodup hfeatures hg)
  methods _ _ hlast _ hg hname := absurd hname (hlast.ne_of_nodup hfeatures hg)
  declarations _ f hlast _ _ hx _ _ hy hname :=
    absurd hname (hx.ne_of_nodup (hmethods f hlast.mem) hy)
  inFeatureName := hfeature
  inMethodName := hmethod

def residentMethod (name : String) : Method :=
  ⟨name, false, .SYNC, .FUNCTION, .NONE, .JSON, .SINGLE, "", [], [], .USEABLE⟩

/-- Two features that make one key. -/
def clockFeatures : List IExtensionMetaData :=
  [⟨.feature .USEABLE, "system.clock", "Clock", [], [residentMethod "get_time"]⟩,
    ⟨.feature .FORBIDDEN, "system.clock_get", "ClockGet", [], [residentMethod "time"]⟩]

theorem declaredResident_clock {N m : String} : DeclaredResident clockFeatures N m ↔
    N = "system.clock" ∧ m = "get_time" ∨ N = "system.clock_get" ∧ m = "time" := by
  constructor
  · rintro ⟨f, hf, rfl, x, hx, rfl, -⟩
    rcases List.mem_pair.1 (List.mem_of_mem_filter hf) with rfl | rfl
    · obtain rfl := List.mem_singleton.1 hx
      exact Or.inl ⟨rfl, rfl⟩
    · obtain rfl := List.mem_singleton.1 hx
      exact Or.inr ⟨rfl, rfl⟩
  · rintro (⟨rfl, rfl⟩ | ⟨rfl, rfl⟩)
    · exact ⟨_, List.mem_cons_self, rfl, _, List.mem_singleton_self _, rfl, by decide⟩
    · exact ⟨_, List.mem_cons_of_mem _ List.mem_cons_self, rfl, _, List.mem_singleton_self _, rfl,
        by decide⟩

theorem grants_clock : (inject clockFeatures []).result = .ok () ∧
    GrantsExact ⟨fun _ => false, fun _ => false⟩ (inject clockFeatures []) clockFeatures := by
  have hok : (inject clockFeatures []).result = .ok () := by rfl
  refine ⟨hok, (grants_iff ⟨fun _ => false, fun _ => false⟩ clockFeatures [] hok).2.2 ?_⟩
  have hkey : ("system.clock_get" : String) = "system.clock" ++ "_" ++ "get" := by decide
  have hkey' : ("get_time" : String) = "get" ++ "_" ++ "time" := by decide
  apply Unambiguously.of_nodup (by decide) (by decide)
  · intro a b m h
    rcases declaredResident_clock.1 h with ⟨hN, -⟩ | ⟨hN, rfl⟩
    · exact absurd hN (ne_of_no_underscore (by decide))
    · rw [hkey] at hN
      obtain ⟨rfl, rfl⟩ := split_once (by decide) (by decide) hN
      exact declaredResident_clock.2 (Or.inl ⟨rfl, hkey'.symm⟩)
  · intro N a b h
    rcases declaredResident_clock.1 h with ⟨rfl, hm⟩ | ⟨-, hm⟩
    · rw [hkey'] at hm
      obtain ⟨rfl, rfl⟩ := split_once (by decide) (by decide) hm
      exact declaredResident_clock.2 (Or.inr ⟨hkey.symm, rfl⟩)
    · exact absurd hm (ne_of_no_underscore (by decide))

/-- A resident `__init__`, the method that makes a feature instantiable. -/
def initFeature : IExtensionMetaData :=
  ⟨.feature .USEABLE, "system.a", "A", [],
    [⟨ACTION_INIT, false, .SYNC, .FUNCTION, .NONE, .JSON, .SINGLE, "", [], [], .USEABLE⟩]⟩

/-- **Too much is granted**: `system.a___init__` is the key of `_init__` of `system.a_` as well. -/
theorem grants_too_much : ¬ ∀ (U : UnicodeIdent) (es : List IExtensionMetaData)
    (ws : List WidgetMetaData), (inject es ws).result = .ok () → GrantsExact U (inject es ws) es := by
  intro h
  have hok : (inject [initFeature] []).result = .ok () := by rfl
  have hgrants := h ⟨fun _ => false, fun _ => false⟩ [initFeature] [] hok
  have hdecl : DeclaredResident [initFeature] "system.a" ("" ++ "_" ++ "_init__") :=
    ⟨initFeature, by decide, rfl, _, List.mem_singleton_self _, by decide, by decide⟩
  obtain ⟨f, hf, hname, -⟩ :=
    ((grantsExact_iff _ hok).1 hgrants).inMethodName "system.a" "" "_init__" hdecl
  obtain rfl := List.mem_singleton.1 (List.mem_of_mem_filter hf)
  exact absurd hname (by decide)

end HybridStack.Pisces
