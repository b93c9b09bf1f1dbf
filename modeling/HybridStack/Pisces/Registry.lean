import HybridStack.Pisces.Kinds
import HybridStack.Pisces.WebTakeover

/-!
# The two encodings of the extension registry

`QuickAppMetaDataProcessor` renders the surviving extensions twice: as statements that fill a map
when the app starts, and as a JSON array. `Registry.step` runs the statements; the runtime class
`com.spacecraft.hybrid.ExtensionMetaData` has the `addMethod` and the `validate` of the plugin's own
class, and `$1` is a map. The local variable holds a value here, not a reference: the statements put
an object into the map only after its last `addMethod`.

- `run_extensionStmts`: the map after the generated code.
- **`registry_agrees_iff`**: the two encodings agree if and only if no two surviving extensions of
  the kind share a name.
- `registry_disagrees`: two unrelated features of one name.
-/

namespace HybridStack.Pisces

open Ancestry (Hierarchy)
open JavaSource
open Sweep

/-! ## Running the statements -/

/-- The constant of a nested enum of `com.spacecraft.hybrid.annotation.Extension`. -/
def constantOf (enum : String) : Arg → Option String
  | .name ⟨"com", ["spacecraft", "hybrid", "annotation", "Extension", e, c]⟩ =>
    if e = enum then some c else none
  | _ => none

/-- A `String[]`, null or not. -/
def nullableStrings : Arg → Option (Option (List String))
  | .null => some none
  | .strings l => some (some l)
  | _ => none

/-- `$1`, and the local variable `extension`. -/
structure Registry where
  map : LinkedMap String ExtensionMetaData
  extension : Option ExtensionMetaData

namespace Registry

def start : Registry := ⟨.empty, none⟩

/-- `none` when the statement throws, or is none of the generated ones. -/
def step (r : Registry) : Stmt → Option Registry
  | .declare type "extension" =>
    if type = hybrid ["ExtensionMetaData"] then some { r with extension := none } else none
  | .assign "extension" type [.str name, .str module] =>
    if type = hybrid ["ExtensionMetaData"] then
      some { r with extension := some (.new name module) }
    else none
  | .call ⟨"extension", ["addMethod"]⟩ [.str name, .bool instanceMethod, mode, type, access,
      normalize, multiple, .str aliasName, permissions, subAttrs] => do
    let extension ← r.extension
    let mode ← constantOf "Mode" mode
    let type ← constantOf "Type" type
    let access ← constantOf "Access" access
    let normalize ← constantOf "Normalize" normalize
    let multiple ← constantOf "Multiple" multiple
    let permissions ← nullableStrings permissions
    let subAttrs ← nullableStrings subAttrs
    some { r with extension := some (extension.addMethod name instanceMethod mode (some type)
      (some access) (some normalize) (some multiple) (some aliasName) permissions subAttrs) }
  | .call ⟨"extension", ["validate"]⟩ [] => do
    let extension ← r.extension
    match extension.validate with
    | .ok () => some r
    | .error _ => none
  | .call ⟨"$1", ["put"]⟩ [.str key, .name ⟨"extension", []⟩] => do
    let extension ← r.extension
    some { r with map := r.map.put key extension }
  | _ => none

def run (r : Registry) (ss : List Stmt) : Option Registry := ss.foldlM step r

theorem run_append (r : Registry) (ss ts : List Stmt) :
    r.run (ss ++ ts) = (r.run ss).bind fun r => r.run ts := List.foldlM_append

theorem run_cons (r : Registry) (s : Stmt) (ss : List Stmt) :
    r.run (s :: ss) = (r.step s).bind fun r => r.run ss := List.foldlM_cons

end Registry

/-! ## What the generated code leaves -/

/-- The method `addMethodStmt` puts. -/
def runtimeMethod (m : Method) : ExtensionMetaData.Method :=
  ExtensionMetaData.newMethod m.name m.isInstanceMethod m.mode.name (some m.type.name) (some m.access.name)
    (some m.normalize.name) (some m.multiple.name) (some m.aliasName)
    (if m.permissions.isEmpty then none else some m.permissions)
    (if m.subAttrs.isEmpty then none else some m.subAttrs)

/-- The object the generated code makes of an entry. -/
def runtimeOf (e : IExtensionMetaData) : ExtensionMetaData :=
  ⟨e.name, e.classname, .ofList (e.methods.map fun m => (m.name, runtimeMethod m))⟩

theorem nullableStrings_stringsOrNull (l : List String) :
    nullableStrings (stringsOrNull l) = some (if l.isEmpty then none else some l) := by
  unfold stringsOrNull
  split_ifs <;> rfl

theorem step_addMethodStmt (map : LinkedMap String ExtensionMetaData) (e : ExtensionMetaData)
    (m : Method) : Registry.step ⟨map, some e⟩ (addMethodStmt m) =
      some ⟨map, some { e with methods := e.methods.put m.name (runtimeMethod m) }⟩ := by
  simp [addMethodStmt, Registry.step, extensionConstant, hybrid, constantOf,
    nullableStrings_stringsOrNull, ExtensionMetaData.addMethod, runtimeMethod]

theorem run_methods (map : LinkedMap String ExtensionMetaData) :
    ∀ (ms : List Method) (e : ExtensionMetaData), Registry.run ⟨map, some e⟩ (ms.map addMethodStmt) =
      some ⟨map, some { e with methods := e.methods.putAll (ms.map fun m => (m.name, runtimeMethod m)) }⟩
  | [], e => rfl
  | m :: ms, e => by
    rw [List.map_cons, Registry.run_cons, step_addMethodStmt, Option.bind_some, run_methods map ms]
    rfl

/-- Both encodings say the same of a method: an empty array is a null, `SINGLE` is left out. -/
theorem info_runtimeMethod (m : Method) :
    (runtimeMethod m).info = (ExtensionMetaData.ofMethod m).info := by
  have hnull : ∀ l : List String, (if l.isEmpty then none else some l).getD [] = l := by
    intro l
    cases l <;> rfl
  simp only [runtimeMethod, ExtensionMetaData.ofMethod, ExtensionMetaData.newMethod,
    ExtensionMetaData.Method.info, hnull, Option.getD_some]

theorem values_map_congr {α : Type} (f : ExtensionMetaData.Method → α) {a b : Method → ExtensionMetaData.Method}
    (h : ∀ m, f (a m) = f (b m)) (ms : List Method) :
    (LinkedMap.ofList (ms.map fun m => (m.name, a m))).values.map f =
      (LinkedMap.ofList (ms.map fun m => (m.name, b m))).values.map f := by
  rw [LinkedMap.map_values_ofList, LinkedMap.map_values_ofList, List.map_map, List.map_map]
  have hfun : (Prod.map id f ∘ fun m : Method => (m.name, a m)) =
      Prod.map id f ∘ fun m : Method => (m.name, b m) := by
    funext m
    simp [h m]
  rw [hfun]

theorem info_values (e : IExtensionMetaData) :
    (runtimeOf e).methods.values.map ExtensionMetaData.Method.info =
      (ExtensionMetaData.ofEntry e).methods.values.map ExtensionMetaData.Method.info := by
  rw [ExtensionMetaData.ofEntry_eq]
  exact values_map_congr _ info_runtimeMethod e.methods

/-- `validate` passes at run time where it passed in the plugin. -/
theorem validate_runtimeOf (e : IExtensionMetaData) :
    (runtimeOf e).validate = .ok () ↔ (ExtensionMetaData.ofEntry e).validate = .ok () := by
  have hex : ∀ p : ExtensionMetaData.MethodInfo → Prop,
      (∃ m ∈ (runtimeOf e).methods.values, p m.info) ↔
        ∃ m ∈ (ExtensionMetaData.ofEntry e).methods.values, p m.info := fun p => by
    have h := info_values e
    constructor
    · rintro ⟨m, hm, hp⟩
      have hmem : m.info ∈ (ExtensionMetaData.ofEntry e).methods.values.map
          ExtensionMetaData.Method.info := h ▸ List.mem_map_of_mem hm
      obtain ⟨m', hm', heq⟩ := List.mem_map.1 hmem
      exact ⟨m', hm', heq ▸ hp⟩
    · rintro ⟨m, hm, hp⟩
      have hmem : m.info ∈ (runtimeOf e).methods.values.map ExtensionMetaData.Method.info :=
        h ▸ List.mem_map_of_mem hm
      obtain ⟨m', hm', heq⟩ := List.mem_map.1 hmem
      exact ⟨m', hm', heq ▸ hp⟩
  rw [ExtensionMetaData.validate_ok_iff, ExtensionMetaData.validate_ok_iff]
  exact imp_congr (hex fun i => i.instanceMethod = true) (hex fun i => i.name = ACTION_INIT)

theorem run_extensionEntryStmts (r : Registry) {e : IExtensionMetaData}
    (hv : (ExtensionMetaData.ofEntry e).validate = .ok ()) :
    r.run (extensionEntryStmts e) =
      some ⟨r.map.put e.name (runtimeOf e), some (runtimeOf e)⟩ := by
  have hassign : r.step (.assign "extension" (hybrid ["ExtensionMetaData"])
      [.str e.name, .str e.classname]) = some ⟨r.map, some (.new e.name e.classname)⟩ := by
    simp [Registry.step]
  have hnew : { ExtensionMetaData.new e.name e.classname with
      methods := (ExtensionMetaData.new e.name e.classname).methods.putAll
        (e.methods.map fun m => (m.name, runtimeMethod m)) } = runtimeOf e := rfl
  rw [extensionEntryStmts, List.cons_append, Registry.run_cons, hassign, Option.bind_some,
    Registry.run_append, run_methods, Option.bind_some, hnew, Registry.run_cons]
  simp only [Registry.step, Option.bind_eq_bind, Option.bind_some, (validate_runtimeOf e).2 hv]
  rfl

theorem run_entries : ∀ (es : List IExtensionMetaData) (r : Registry),
    (∀ e ∈ es, (ExtensionMetaData.ofEntry e).validate = .ok ()) →
      ∃ r', r.run (es.flatMap extensionEntryStmts) = some r' ∧
        r'.map = r.map.putAll (es.map fun e => (e.name, runtimeOf e))
  | [], r, _ => ⟨r, rfl, rfl⟩
  | e :: es, r, h => by
    obtain ⟨he, hes⟩ := List.forall_mem_cons.1 h
    obtain ⟨r', hr', hmap⟩ := run_entries es ⟨r.map.put e.name (runtimeOf e), some (runtimeOf e)⟩ hes
    refine ⟨r', ?_, hmap⟩
    rw [List.flatMap_cons, Registry.run_append, run_extensionEntryStmts r he, Option.bind_some, hr']

/-- **The map after the generated code**: the entries put under their names, in their order. -/
theorem run_extensionStmts {es : List IExtensionMetaData}
    (h : ∀ e ∈ es, (ExtensionMetaData.ofEntry e).validate = .ok ()) :
    (Registry.start.run (extensionStmts es)).map Registry.map =
      some (.ofList (es.map fun e => (e.name, runtimeOf e))) := by
  have hdecl : Registry.start.step (.declare (hybrid ["ExtensionMetaData"]) "extension") =
      some Registry.start := by
    simp [Registry.step, Registry.start]
  obtain ⟨r', hr', hmap⟩ := run_entries es Registry.start h
  rw [extensionStmts, Registry.run_cons, hdecl, Option.bind_some, hr', Option.map_some, hmap]
  rfl

/-! ## Agreement -/

variable (U : UnicodeIdent)

/-- One injected block on the map; its local variable is its own. -/
def runInjection (map : LinkedMap String ExtensionMetaData) :
    Injection → Option (LinkedMap String ExtensionMetaData)
  | .insertAfter _ src => do
    let ss ← src.stmts U
    let r ← Registry.run ⟨map, none⟩ ss
    some r.map
  | .insertJSON _ _ => some map

/-- The map after everything injected into a method has run on an empty one. -/
def registryAfter (injected : List Injection) : Option (LinkedMap String ExtensionMetaData) :=
  injected.foldlM (runInjection U) .empty

/-- The objects of the JSON arrays injected into a method. -/
def jsonObjects (injected : List Injection) : List ExtensionMetaData.JSON :=
  injected.flatMap fun
    | .insertJSON _ (.extensions l) => l
    | _ => []

/-- One key for each object, and under the name of an object an extension with its methods. -/
def Agree (o : Outcome) (K : Kind) : Prop :=
  ∃ map, registryAfter U (o.into K.initMethod) = some map ∧
    map.keys.Perm ((jsonObjects (o.into K.jsonMethod)).map ExtensionMetaData.JSON.name) ∧
    ∀ j ∈ jsonObjects (o.into K.jsonMethod), ∃ e, map.get j.name = some e ∧
      (j.methods.map ExtensionMetaData.MethodJSON.decode).Perm
        (e.methods.values.map ExtensionMetaData.Method.info)

namespace QuickAppMetaDataProcessor

/-- The extensions that reach the injections; none after one of the early exits. -/
def registered (sons : List MetaData) : List IExtensionMetaData :=
  if (extensionsOf sons).isEmpty || (widgetsOf sons).isEmpty then []
  else
    match survivors (inheritedOf sons) (extensionsOf sons) (widgetsOf sons) with
    | .error _ => []
    | .ok (extensions, _) => extensions

theorem jsonObjects_ofEntry (e : IExtensionMetaData) :
    ((ExtensionMetaData.ofEntry e).toJSON.methods.map ExtensionMetaData.MethodJSON.decode) =
      (runtimeOf e).methods.values.map ExtensionMetaData.Method.info := by
  rw [info_values, ExtensionMetaData.toJSON, List.map_map]
  exact List.map_congr_left fun m _ => ExtensionMetaData.decode_methodJSON m

theorem name_ofEntry (e : IExtensionMetaData) : (ExtensionMetaData.ofEntry e).toJSON.name = e.name := by
  rw [ExtensionMetaData.ofEntry_eq]
  rfl

section
variable {k : ExtensionClass} {K : Kind} {es : List IExtensionMetaData} {ws : List WidgetMetaData}

theorem registryAfter_inject (hk : K.javaClass = some k) (hok : (inject es ws).result = .ok ()) :
    registryAfter U ((inject es ws).into K.initMethod) =
      some (.ofList ((group k es).map fun e => (e.name, runtimeOf e))) := by
  have hvalid : ∀ e ∈ group k es, (ExtensionMetaData.ofEntry e).validate = .ok () := fun e he =>
    (inject_ok_iff es ws).1 hok e (List.mem_of_mem_filter he)
  rw [inject_into_init, statementsOf, hk]
  simp only [injectMetaData]
  split_ifs with hnil
  · rw [List.isEmpty_iff.1 hnil]
    rfl
  · have hrun := run_extensionStmts hvalid
    obtain ⟨r, hr, hmap⟩ := Option.map_eq_some_iff.1 hrun
    have hstart : Registry.run ⟨.empty, none⟩ (extensionStmts (group k es)) = some r := hr
    simp [registryAfter, runInjection, extensionSource_stmts, hstart, hmap]

theorem jsonObjects_inject (hk : K.javaClass = some k) (hok : (inject es ws).result = .ok ()) :
    jsonObjects ((inject es ws).into K.jsonMethod) =
      (group k es).map fun e => (ExtensionMetaData.ofEntry e).toJSON := by
  rw [inject_into_json K ws hok, jsonOf, hk]
  simp only [groupJSON]
  split_ifs with hnil
  · rw [List.isEmpty_iff.1 hnil]
    rfl
  · simp [jsonObjects]

/-- The two encodings of a group agree if and only if its names differ. -/
theorem agree_inject_iff (hk : K.javaClass = some k) (hok : (inject es ws).result = .ok ()) :
    Agree U (inject es ws) K ↔ ((group k es).map IExtensionMetaData.name).Nodup := by
  have hfst : (((group k es).map fun e => (e.name, runtimeOf e)).map Prod.fst) =
      (group k es).map IExtensionMetaData.name := by
    rw [List.map_map]
    rfl
  have hnames : (((group k es).map fun e => (ExtensionMetaData.ofEntry e).toJSON).map
      ExtensionMetaData.JSON.name) = (group k es).map IExtensionMetaData.name := by
    rw [List.map_map]
    exact List.map_congr_left fun e _ => name_ofEntry e
  have hperm := LinkedMap.keys_ofList_perm_iff ((group k es).map fun e => (e.name, runtimeOf e))
  rw [hfst] at hperm
  simp only [Agree, registryAfter_inject U hk hok, jsonObjects_inject hk hok, hnames,
    Option.some.injEq, exists_eq_left']
  refine ⟨fun h => hperm.1 h.1, fun h => ⟨hperm.2 h, fun j hj => ?_⟩⟩
  obtain ⟨e, he, rfl⟩ := List.mem_map.1 hj
  refine ⟨runtimeOf e, ?_, by rw [jsonObjects_ofEntry]⟩
  rw [name_ofEntry]
  exact LinkedMap.get_ofList_of_mem (hfst ▸ h) (List.mem_map.2 ⟨e, he, rfl⟩)

end

theorem process_eq_inject {sons : List MetaData} (h : (process sons).result = .ok ()) :
    (process sons = .done [] ∧ registered sons = []) ∨
      ∃ ws, process sons = inject (registered sons) ws := by
  unfold process registered at *
  by_cases he : (extensionsOf sons).isEmpty
  · simp [he]
  · by_cases hw : (widgetsOf sons).isEmpty
    · simp [he, hw]
    · refine Or.inr ?_
      simp only [he, hw, Bool.false_eq_true, if_false, Bool.or_self] at h ⊢
      cases hs : survivors (inheritedOf sons) (extensionsOf sons) (widgetsOf sons) with
      | error exc => simp [hs] at h
      | ok lists => exact ⟨lists.2, rfl⟩

theorem dominated_otherName_iff {l : List IExtensionMetaData} {a : IExtensionMetaData} :
    Dominated (guarded (some otherName) extendsB) l a ↔
      ∃ c ∈ l, c.name = a.name ∧ a.classname ∈ c.superClasses := by
  simp [Dominated, guarded, skips, otherName, extendsB, IsMetaData.classname,
    IsMetaData.superClasses]

theorem registered_nil {H : Hierarchy String} {sons : List MetaData} (h : OfHierarchy H sons)
    (hi : inheritedOf sons = []) (hw : widgetsOf sons ≠ []) :
    registered sons = undominated (guarded (some otherName) extendsB) (extensionsOf sons) := by
  unfold registered
  rw [hi, survivors_nil, sweep_eq_undominated (strictOn_extends skipOk_otherName h.extensions)]
  by_cases he : extensionsOf sons = []
  · simp [he, undominated]
  · simp [he, hw]

/-- Without takeovers the names differ if and only if of two entries of one kind and one name one is
extended by an extension of that name. -/
theorem registered_names_nodup_iff {H : Hierarchy String} {sons : List MetaData}
    (h : OfHierarchy H sons) (hi : inheritedOf sons = []) (hw : widgetsOf sons ≠ [])
    (k : ExtensionClass) : ((group k (registered sons)).map IExtensionMetaData.name).Nodup ↔
      (group k (extensionsOf sons)).Pairwise fun a b => a.name = b.name →
        ∃ c ∈ extensionsOf sons, c.name = a.name ∧
          (a.classname ∈ c.superClasses ∨ b.classname ∈ c.superClasses) := by
  have hswap : group k (registered sons) = (group k (extensionsOf sons)).filter fun e =>
      ¬ Dominated (guarded (some otherName) extendsB) (extensionsOf sons) e := by
    rw [registered_nil h hi hw, group, undominated, group, List.filter_comm]
  rw [hswap, List.nodup_iff_pairwise_ne, List.pairwise_map, List.pairwise_filter]
  refine List.Pairwise.iff fun a b => ?_
  simp only [decide_eq_true_eq, dominated_otherName_iff]
  constructor
  · intro hab hname
    by_contra hno
    refine hab ?_ ?_ hname
    · rintro ⟨c, hc, hn, hx⟩
      exact hno ⟨c, hc, hn, Or.inl hx⟩
    · rintro ⟨c, hc, hn, hx⟩
      exact hno ⟨c, hc, hn.trans hname.symm, Or.inr hx⟩
  · intro hab ha hb hname
    rcases hab hname with ⟨c, hc, hn, hx | hx⟩
    · exact ha ⟨c, hc, hn, hx⟩
    · exact hb ⟨c, hc, hn.trans hname, hx⟩

/-- **The encodings agree if and only if no two registered extensions of the kind share a name**; in
terms of `sons`, where nothing is taken over, if and only if of two that do one is extended by an
extension of that name. -/
theorem registry_agrees_iff (sons : List MetaData) (hend : (process sons).result = .ok ()) (K : Kind)
    (k : ExtensionClass) (hk : K.javaClass = some k) :
    (Agree U (process sons) K ↔
      ((group k (registered sons)).map IExtensionMetaData.name).Nodup) ∧
    ∀ H : Hierarchy String, OfHierarchy H sons → inheritedOf sons = [] → widgetsOf sons ≠ [] →
      (Agree U (process sons) K ↔ (group k (extensionsOf sons)).Pairwise fun a b =>
        a.name = b.name → ∃ c ∈ extensionsOf sons, c.name = a.name ∧
          (a.classname ∈ c.superClasses ∨ b.classname ∈ c.superClasses)) := by
  have hmain : Agree U (process sons) K ↔
      ((group k (registered sons)).map IExtensionMetaData.name).Nodup := by
    rcases process_eq_inject hend with ⟨hp, hr⟩ | ⟨ws, hp⟩
    · rw [hp, hr]
      simp only [group, List.filter_nil, List.map_nil, List.nodup_nil, iff_true]
      exact ⟨.empty, rfl, List.Perm.refl [], by simp [Outcome.into, Outcome.done, jsonObjects]⟩
    · rw [hp] at hend ⊢
      exact agree_inject_iff U hk hend
  exact ⟨hmain, fun H h hi hw => hmain.trans (registered_names_nodup_iff h hi hw k)⟩

/-- Two features with methods. -/
def cameraAndClock : List MetaData :=
  [.extension ⟨.feature .USEABLE, "system.camera", "Camera", [],
      [⟨"takePhoto", false, .ASYNC, .FUNCTION, .NONE, .JSON, .SINGLE, "", [], ["uri"], .NONE⟩,
        ⟨"__onshot", false, .CALLBACK, .EVENT, .NONE, .RAW, .MULTI, "onshot", [], [], .NONE⟩]⟩,
    .extension ⟨.feature .FORBIDDEN, "system.clock", "Clock", [],
      [⟨"now", false, .SYNC, .ATTRIBUTE, .READ, .JSON, .SINGLE, "", [], [], .USEABLE⟩]⟩,
    listWidget]

theorem registry_agrees_camera :
    (process cameraAndClock).result = .ok () ∧
      Agree ⟨fun _ => false, fun _ => false⟩ (process cameraAndClock) .feature := by
  have hend : (process cameraAndClock).result = .ok () := by rfl
  exact ⟨hend, (registry_agrees_iff ⟨fun _ => false, fun _ => false⟩ _ hend .feature
    .FeatureExtensionMetaData rfl).1.2 (by decide)⟩

/-- **Two unrelated features of one name**: two objects in the array, one key in the map. -/
theorem registry_disagrees : ¬ ∀ (U : UnicodeIdent) (sons : List MetaData) (K : Kind),
    K ≠ .widget → (process sons).result = .ok () → Agree U (process sons) K := by
  intro hall
  have hend : (process [cameraFeature, .extension ⟨.feature .FORBIDDEN, "system.camera", "Camera2", [], []⟩,
    listWidget]).result = .ok () := by rfl
  have hagree := hall ⟨fun _ => false, fun _ => false⟩ _ .feature (by decide) hend
  rcases process_eq_inject hend with ⟨-, hr⟩ | ⟨ws, hp⟩
  · exact absurd hr (by decide)
  · rw [hp] at hagree hend
    exact absurd ((agree_inject_iff _ rfl hend).1 hagree) (by decide)

end QuickAppMetaDataProcessor

end HybridStack.Pisces
