import HybridStack.Pisces.Events
import HybridStack.Pisces.Scan
import HybridStack.Pisces.ScanOrder

/-!
# A whole build

From the class files to what is written. `getSuperclasses` follows the superclasses of a class
through the pool; where no class extends itself it ends, with the ancestors of the class in one
`Hierarchy`, or with the first one that is in no container (`getSuperclasses_eq`). So the `sons` of a
processor are consistent (`OfHierarchy`), which the results on `process` ask for.

- **`plugin_writes`**: every class file a build writes.
- **`build_order`**: the order in which the classes are scanned does not matter to any processor.
-/

namespace HybridStack.Pisces

open Ancestry (Hierarchy)
open JavaSource (UnicodeIdent)

variable {File : Type} {K : Containers File}

/-! ## Superclasses -/

/-- The class file of `name` says that it extends `superclass`. -/
def Extends (pool : ClassPool) (name superclass : String) : Prop :=
  (pool name).bind ClassFile.superclass = some superclass

/-- `H` is the hierarchy the class files describe. -/
def OfPool (H : Hierarchy String) (pool : ClassPool) : Prop :=
  ∀ name, H.superclass name = (pool name).bind ClassFile.superclass

theorem exists_ofPool {pool : ClassPool} (h : ∀ name, Acyclic.Ends (Extends pool) name) :
    ∃ H, OfPool H pool :=
  ⟨.ofEnds (fun name => (pool name).bind ClassFile.superclass) h, fun _ => rfl⟩

/-- The first of the classes that is in no container. -/
def notFound (pool : ClassPool) (names : List String) : Option String :=
  names.find? fun name => (pool name).isNone

/-- The ancestors of a class, or the exception for the one that is not found. -/
def ancestors (H : Hierarchy String) (pool : ClassPool) (name : String) :
    Except Throwable (List String) :=
  match notFound pool (H.chain name) with
  | none => .ok (H.chain name)
  | some d => .error (.exception d)

section
variable {H : Hierarchy String} {pool : ClassPool}

theorem chain_of_pool (hH : OfPool H pool) {c : PoolClass} (hc : pool c.name = some c.classFile) :
    H.chain c.name = match c.classFile.superclass with
      | none => []
      | some d => d :: H.chain d := by
  rw [H.chain_eq, hH, hc, Option.bind_some]
  cases c.classFile.superclass <;> rfl

/-- One step up. -/
theorem ancestors_of_superclass (hH : OfPool H pool) {c : PoolClass} {d : String}
    (hc : pool c.name = some c.classFile) (hd : c.classFile.superclass = some d) :
    ancestors H pool c.name =
      if (pool d).isNone then .error (.exception d) else (ancestors H pool d).map (d :: ·) := by
  have hchain : H.chain c.name = d :: H.chain d := by rw [chain_of_pool hH hc, hd]
  simp only [ancestors, hchain, notFound, List.find?_cons]
  by_cases hp : (pool d).isNone
  · simp [hp]
  · simp only [hp, Bool.false_eq_true, if_false]
    cases (H.chain d).find? fun name => (pool name).isNone <;> rfl

theorem superclassLoop_eq (hH : OfPool H pool) (hempty : pool "" = none) : ∀ (fuel : Nat)
    (c : PoolClass), pool c.name = some c.classFile → (H.chain c.name).length < fuel →
      superclassLoop pool fuel (some c) = some ((ancestors H pool c.name).map (c.name :: ·)) := by
  intro fuel
  induction fuel with
  | zero => exact fun _ _ h => absurd h (Nat.not_lt_zero _)
  | succ fuel ih =>
    intro c hc hfuel
    have hname : c.name ≠ "" := by
      intro h
      rw [h, hempty] at hc
      cases hc
    rw [superclassLoop, if_neg hname, PoolClass.superclass]
    cases hd : c.classFile.superclass with
    | none =>
      have hchain : H.chain c.name = [] := by rw [chain_of_pool hH hc, hd]
      simp only [ancestors, hchain, notFound, List.find?_nil, superclassLoop, Option.map_some]
    | some d =>
      have hchain : H.chain c.name = d :: H.chain d := by rw [chain_of_pool hH hc, hd]
      rw [ancestors_of_superclass hH hc hd]
      cases hp : pool d with
      | none => simp only [getCtClass, hp, Except.map, Option.isNone_none, if_true]
      | some classFile =>
        have hlen : (H.chain d).length < fuel := by
          rw [hchain, List.length_cons] at hfuel
          omega
        have hnext := ih ⟨d, classFile⟩ hp hlen
        simp only [getCtClass, hp, Except.map, Option.isNone_some, Bool.false_eq_true, if_false]
        rw [hnext]
        cases ancestors H pool d <;> rfl

/-- `getSuperclasses` ends, in no more rounds than the class has ancestors. -/
theorem getSuperclasses_eq (hH : OfPool H pool) (hempty : pool "" = none) {c : PoolClass}
    (hc : pool c.name = some c.classFile) {fuel : Nat} (hfuel : (H.chain c.name).length ≤ fuel) :
    getSuperclasses pool fuel c = some (ancestors H pool c.name) := by
  rw [getSuperclasses, PoolClass.superclass]
  cases hd : c.classFile.superclass with
  | none =>
    have hchain : H.chain c.name = [] := by rw [chain_of_pool hH hc, hd]
    cases fuel <;> simp only [ancestors, hchain, notFound, List.find?_nil, superclassLoop]
  | some d =>
    have hchain : H.chain c.name = d :: H.chain d := by rw [chain_of_pool hH hc, hd]
    rw [ancestors_of_superclass hH hc hd]
    cases hp : pool d with
    | none => simp only [getCtClass, hp, Except.map, Option.isNone_none, if_true]
    | some classFile =>
      have hlen : (H.chain d).length < fuel := by
        rw [hchain, List.length_cons] at hfuel
        omega
      have hloop := superclassLoop_eq hH hempty fuel ⟨d, classFile⟩ hp hlen
      simp only [getCtClass, hp, Except.map, Option.isNone_some, Bool.false_eq_true, if_false]
      exact hloop

end

/-! ## Sons -/

def MetaData.classname : MetaData → String
  | .extension e => e.classname
  | .widget w => w.classname
  | .inherited i => i.classname

def MetaData.superClasses : MetaData → List String
  | .extension e => e.superClasses
  | .widget w => w.superClasses
  | .inherited i => i.superClasses

namespace Processor

def classname : (p : Processor) → p.Son → String
  | .quickAppMetaData | .geminiMetaData => MetaData.classname
  | .eventTarget => EventTargetMetaData.classname
  | .dependency => DependencyMetaData.classname

def superClasses : (p : Processor) → p.Son → List String
  | .quickAppMetaData | .geminiMetaData => MetaData.superClasses
  | .eventTarget => EventTargetMetaData.superClasses
  | .dependency => DependencyMetaData.superClasses

/-- `map` has a branch for each annotation of `supportAnnotation()`. -/
theorem son_isSome (p : Processor) (c : PoolClass) : (p.son c).isSome = p.supports c.classFile := by
  cases p with
  | quickAppMetaData =>
    simp only [son, QuickAppMetaDataProcessor.son, supports]
    cases c.classFile.inherited <;> cases c.classFile.featureExtension <;>
      cases c.classFile.moduleExtension <;> cases c.classFile.widgetExtension <;>
      cases c.classFile.widget <;> rfl
  | geminiMetaData =>
    simp only [son, GeminiMetaDataProcessor.son, supports]
    cases c.classFile.webInherited <;> cases c.classFile.webFeatureExtension <;> rfl
  | eventTarget => exact Option.isSome_map
  | dependency => exact Option.isSome_map

/-- Whichever annotation it is, the son is named after its class and given its superclasses. -/
theorem son_eq_some {p : Processor} {c : PoolClass} {f : List String → p.Son} (h : p.son c = some f)
    (superClasses : List String) :
    p.classname (f superClasses) = c.name ∧ p.superClasses (f superClasses) = superClasses := by
  cases p with
  | quickAppMetaData =>
    simp only [son, QuickAppMetaDataProcessor.son] at h
    split at h
    next => cases h; exact ⟨rfl, rfl⟩
    next =>
      split at h
      next => cases h; exact ⟨rfl, rfl⟩
      next =>
        split at h
        next => cases h; exact ⟨rfl, rfl⟩
        next =>
          split at h
          next => cases h; exact ⟨rfl, rfl⟩
          next => split at h <;> cases h; exact ⟨rfl, rfl⟩
  | geminiMetaData =>
    simp only [son, GeminiMetaDataProcessor.son] at h
    split at h
    next => cases h; exact ⟨rfl, rfl⟩
    next => split at h <;> cases h; exact ⟨rfl, rfl⟩
  | eventTarget =>
    obtain ⟨a, -, rfl⟩ := Option.map_eq_some_iff.1 h
    exact ⟨rfl, rfl⟩
  | dependency =>
    obtain ⟨a, -, rfl⟩ := Option.map_eq_some_iff.1 h
    exact ⟨rfl, rfl⟩

/-- The son of a class of the pool with these superclasses. -/
def sonAt (p : Processor) (pool : ClassPool) (name : String) (superClasses : List String) :
    Option p.Son :=
  (pool name).bind fun classFile => (p.son ⟨name, classFile⟩).map fun f => f superClasses

/-- The sons of these classes, or the exception for the first ancestor that is not found. -/
def sonsOf (p : Processor) (H : Hierarchy String) (pool : ClassPool) (names : List String) :
    Except Throwable (List p.Son) :=
  match notFound pool (names.flatMap H.chain) with
  | none => .ok (names.filterMap fun name => p.sonAt pool name (H.chain name))
  | some d => .error (.exception d)

variable {p : Processor} {H : Hierarchy String} {pool : ClassPool}

theorem addSons_ancestors : ∀ names : List String,
    addSons (names.map fun name => (ancestors H pool name).map (p.sonAt pool name)) =
      p.sonsOf H pool names := by
  intro names
  induction names with
  | nil => rfl
  | cons name names ih =>
    have hfind : notFound pool ((name :: names).flatMap H.chain) =
        (notFound pool (H.chain name)).or (notFound pool (names.flatMap H.chain)) := by
      rw [List.flatMap_cons, notFound, List.find?_append]
      rfl
    rw [List.map_cons, sonsOf, hfind, ancestors]
    cases hd : notFound pool (H.chain name) with
    | some d => rfl
    | none =>
      have hcons : ∀ (son : Option p.Son) (rest : List (Except Throwable (Option p.Son))),
          addSons (.ok son :: rest) = (addSons rest).map (son.toList ++ ·) := fun _ _ => rfl
      rw [Option.none_or]
      refine (hcons (p.sonAt pool name (H.chain name)) _).trans ?_
      rw [ih, sonsOf]
      cases notFound pool (names.flatMap H.chain) with
      | some d => rfl
      | none =>
        simp only [Except.map, List.filterMap_cons]
        cases p.sonAt pool name (H.chain name) <;> rfl

/-- A collected class has a son. -/
theorem exists_sonAt {name : String} (h : p.collects pool name) (superClasses : List String) :
    ∃ son, p.sonAt pool name superClasses = some son ∧ p.classname son = name ∧
      p.superClasses son = superClasses := by
  simp only [collects, Bool.and_eq_true] at h
  obtain ⟨classFile, hp, hs⟩ := (Option.any_eq_true _ _).1 h.2
  have hsome : (p.son ⟨name, classFile⟩).isSome := by
    rw [son_isSome]
    exact hs
  obtain ⟨f, hf⟩ := Option.isSome_iff_exists.1 hsome
  refine ⟨f superClasses, ?_, son_eq_some hf superClasses⟩
  rw [sonAt, hp, Option.bind_some, hf, Option.map_some]

/-- The sons of collected classes: one for each, with the ancestors of its class. -/
theorem sonsOf_eq_ok {names : List String} {sons : List p.Son}
    (hcol : ∀ name ∈ names, p.collects pool name) (h : p.sonsOf H pool names = .ok sons) :
    sons.map p.classname = names ∧ ∀ son ∈ sons, p.superClasses son = H.chain (p.classname son) := by
  rw [sonsOf] at h
  split at h
  next hall =>
    cases h
    clear hall
    constructor
    · induction names with
      | nil => rfl
      | cons name names ih =>
        obtain ⟨son, hat, hname, -⟩ := exists_sonAt (hcol name List.mem_cons_self) (H.chain name)
        have hrest := List.forall_mem_of_forall_mem_cons hcol
        simp only [List.filterMap_cons, hat, List.map_cons, hname]
        rw [ih hrest]
    · intro son hmem
      obtain ⟨name, hname, hat⟩ := List.mem_filterMap.1 hmem
      obtain ⟨son', hat', hn, hs⟩ := exists_sonAt (hcol name hname) (H.chain name)
      obtain rfl := Option.some.inj (hat'.symm.trans hat)
      rw [hs, hn]
  next => cases h

end Processor

/-! ## The end of the scan -/

theorem mapM_eq_some_map {α β : Type} {f : α → Option β} {g : α → β} {l : List α}
    (h : ∀ a ∈ l, f a = some (g a)) : l.mapM f = some (l.map g) := by
  induction l with
  | nil => rfl
  | cons a l ih =>
    rw [List.mapM_cons, h a List.mem_cons_self, ih (List.forall_mem_of_forall_mem_cons h)]
    rfl

theorem exists_bound {α : Type} (f : α → Nat) (l : List α) : ∃ N, ∀ a ∈ l, f a ≤ N := by
  induction l with
  | nil => exact ⟨0, fun a h => absurd h List.not_mem_nil⟩
  | cons b l ih =>
    obtain ⟨N, hN⟩ := ih
    refine ⟨max (f b) N, fun a h => ?_⟩
    rcases List.mem_cons.1 h with rfl | h
    · exact le_max_left _ _
    · exact (hN a h).trans (le_max_right _ _)

theorem find_empty (classPath : List File) : find K classPath "" = none :=
  List.findSome?_eq_none_iff.2 fun file _ => K.read_empty file

theorem collects_of_mem {boot : List File} {infos : List (ClassInfo File)} {p : Processor}
    {name : String} (h : name ∈ (scan K boot infos).allAnnotatedName p) :
    p.collects (find K (scan K boot infos).classPath) name := by
  rw [scan_allAnnotatedName, List.mem_eraseDups, List.mem_filter] at h
  rw [scan_classPath]
  exact h.2

/-- With enough fuel for the longest chain, every `map` ends. -/
theorem mapped_eq {boot : List File} {infos : List (ClassInfo File)} {H : Hierarchy String}
    (hH : OfPool H (find K (scan K boot infos).classPath)) {fuel : Nat} {p : Processor}
    (hfuel : ∀ name ∈ (scan K boot infos).allAnnotatedName p, (H.chain name).length ≤ fuel) :
    (scan K boot infos).mapped K fuel p = some (((scan K boot infos).allAnnotatedName p).map
      fun name => (ancestors H (find K (scan K boot infos).classPath) name).map
        (p.sonAt (find K (scan K boot infos).classPath) name)) := by
  refine mapM_eq_some_map fun name hname => ?_
  have hcol := collects_of_mem hname
  simp only [Processor.collects, Bool.and_eq_true] at hcol
  obtain ⟨classFile, hp, hs⟩ := (Option.any_eq_true _ _).1 hcol.2
  have hsome : (p.son ⟨name, classFile⟩).isSome := by
    rw [Processor.son_isSome]
    exact hs
  obtain ⟨f, hf⟩ := Option.isSome_iff_exists.1 hsome
  have hget := getSuperclasses_eq hH (find_empty _) (c := ⟨name, classFile⟩) hp (hfuel name hname)
  simp only [getCtClass, hp, Processor.map, hf, hget, Option.map_some, Option.some.injEq]
  cases ancestors H (find K (scan K boot infos).classPath) name with
  | error t => rfl
  | ok chain => simp only [Except.map, Processor.sonAt, hp, hf, Option.bind_some, Option.map_some]

section
variable {CtClass : Type} {J : Javassist CtClass}

/-- Each processor has its turn once. -/
theorem onScanEnd_sublist : ∀ scans : List Scanned,
    ((onScanEnd J scans).1.map Prod.fst).Sublist (scans.map Scanned.processor) := by
  intro scans
  induction scans with
  | nil => exact .slnil
  | cons s rest ih =>
    rw [onScanEnd]
    split
    next => exact ih.cons _
    next =>
      split
      next => exact ih.cons _
      next =>
        split
        next => exact List.nil_sublist _
        next =>
          split
          next => exact List.nil_sublist _
          next => exact ih.cons_cons _

/-- A scan that ends normally has written a class for every processor that had one to write. -/
theorem onScanEnd_complete : ∀ {scans : List Scanned}, (onScanEnd J scans).2 = .ok () →
    ∀ s ∈ scans, s.modifiedClassInfo ≠ none → s.allAnnotatedName ≠ [] →
      ∃ bytes, (s.processor, bytes) ∈ (onScanEnd J scans).1 := by
  intro scans
  induction scans with
  | nil => exact fun _ s h => absurd h List.not_mem_nil
  | cons s₀ rest ih =>
    intro hok s hs hin hne
    cases hinfo : s₀.modifiedClassInfo with
    | none =>
      simp only [onScanEnd, hinfo] at hok ⊢
      rcases List.mem_cons.1 hs with rfl | hs
      · exact absurd hinfo hin
      · exact ih hok s hs hin hne
    | some inputStream =>
      by_cases hempty : s₀.allAnnotatedName.isEmpty
      · simp only [onScanEnd, hinfo, hempty, if_true] at hok ⊢
        rcases List.mem_cons.1 hs with rfl | hs
        · exact absurd (List.isEmpty_iff.1 hempty) hne
        · exact ih hok s hs hin hne
      · simp only [onScanEnd, hinfo, hempty, Bool.false_eq_true, if_false] at hok ⊢
        cases hsons : addSons s₀.allAnnotatedName with
        | error t =>
          simp only [hsons] at hok
          cases hok
        | ok sons =>
          simp only [hsons] at hok ⊢
          cases hbytes : injectCode J s₀.processor sons inputStream with
          | error t =>
            simp only [hbytes] at hok
            cases hok
          | ok bytes =>
            simp only [hbytes] at hok ⊢
            rcases List.mem_cons.1 hs with rfl | hs
            · exact ⟨bytes, List.mem_cons_self⟩
            · obtain ⟨b, hb⟩ := ih hok s hs hin hne
              exact ⟨b, List.mem_cons_of_mem _ hb⟩

end

/-! ## What a build writes -/

section
variable {CtClass : Type} {J : Javassist CtClass} {boot : List File} {infos : List (ClassInfo File)}
  {H : Hierarchy String}

theorem plugin_eq (hH : OfPool H (find K (scan K boot infos).classPath)) {fuel : Nat}
    (hfuel : ∀ p, ∀ name ∈ (scan K boot infos).allAnnotatedName p, (H.chain name).length ≤ fuel) :
    plugin K J boot infos fuel = some (onScanEnd J (Processor.processors.map fun p =>
      ⟨p, ((scan K boot infos).modifiedClassInfo p).bind ClassInfo.content,
        ((scan K boot infos).allAnnotatedName p).map fun name =>
          (ancestors H (find K (scan K boot infos).classPath) name).map
            (p.sonAt (find K (scan K boot infos).classPath) name)⟩)) := by
  refine congrArg (Option.map (onScanEnd J)) (mapM_eq_some_map fun p _ => ?_)
  rw [Scan.scanned, mapped_eq hH (hfuel p), Option.map_some]

theorem exists_fuel (H : Hierarchy String) (s : Scan File) :
    ∃ N, ∀ p, ∀ name ∈ s.allAnnotatedName p, (H.chain name).length ≤ N := by
  obtain ⟨N, hN⟩ := exists_bound (fun name => (H.chain name).length)
    (Processor.processors.flatMap s.allAnnotatedName)
  refine ⟨N, fun p name h => hN name (List.mem_flatMap.2 ⟨p, ?_, h⟩)⟩
  cases p <;> decide

end

/-- A feature and a widget in one container, next to the class they are registered in. -/
def cameraApp : Containers String where
  read file name :=
    if file = "android.jar" ∧ name = "java.lang.Object" then some { superclass := none }
    else if file = "app.jar" ∧ name = "Camera" then
      some { superclass := some "java.lang.Object", featureExtension := some ⟨"system.camera", [], .USEABLE⟩ }
    else if file = "app.jar" ∧ name = "ListWidget" then
      some { superclass := some "java.lang.Object", widget := some { name := "list" } }
    else if file = "app.jar" ∧ name = "com.electrolytej.pisces.MetaDataSetImpl" then
      some { superclass := some "java.lang.Object" }
    else none
  read_empty file := by simp

def cameraInfos : List (ClassInfo String) :=
  [⟨"Camera", some "app.jar", some [1]⟩,
    ⟨"com.electrolytej.pisces.MetaDataSetImpl", some "app.jar", some [0xCA, 0xFE]⟩,
    ⟨"ListWidget", some "app.jar", some [2]⟩]

theorem cameraApp_superclass {file name : String} {c : ClassFile}
    (h : cameraApp.read file name = some c) :
    c.superclass = none ∨ c.superclass = some "java.lang.Object" := by
  simp only [cameraApp] at h
  split_ifs at h <;> cases h
  · exact Or.inl rfl
  all_goals exact Or.inr rfl

theorem cameraApp_ends (classPath : List String) (name : String) :
    Acyclic.Ends (Extends (find cameraApp classPath)) name := by
  have hup : ∀ a b, Extends (find cameraApp classPath) a b → b = "java.lang.Object" := by
    intro a b h
    obtain ⟨c, hc, hb⟩ := Option.bind_eq_some_iff.1 h
    obtain ⟨file, -, hr⟩ := List.exists_of_findSome?_eq_some hc
    rcases cameraApp_superclass hr with hs | hs
    · rw [hs] at hb
      cases hb
    · rw [hs] at hb
      exact (Option.some.inj hb).symm
  have hobject : ∀ b, ¬ Extends (find cameraApp classPath) "java.lang.Object" b := by
    intro b h
    obtain ⟨c, hc, hb⟩ := Option.bind_eq_some_iff.1 h
    obtain ⟨file, -, hr⟩ := List.exists_of_findSome?_eq_some hc
    simp only [cameraApp] at hr
    split_ifs at hr with h1 h2 h3 h4
    · cases hr
      cases hb
    · exact absurd h2.2 (by decide)
    · exact absurd h3.2 (by decide)
    · exact absurd h4.2 (by decide)
  refine Acyclic.Ends.intro fun b hb => ?_
  rw [hup name b hb]
  exact Acyclic.Ends.intro fun b' hb' => absurd hb' (hobject b')

/-- **Every class file a build writes**: that of a processor whose class was scanned, each at most
once and in the order of the processors, with what the processor makes of one son for each class it
has collected, the ancestors of that class included. If no exception stops it, no processor that has
its class and something collected is left out. -/
theorem plugin_writes {CtClass : Type} (J : Javassist CtClass) (K : Containers File)
    (boot : List File) (infos : List (ClassInfo File))
    (hends : ∀ name, Acyclic.Ends (Extends (find K (scan K boot infos).classPath)) name) :
    ∃ H, OfPool H (find K (scan K boot infos).classPath) ∧ ∃ N, ∀ fuel, N ≤ fuel →
      ∃ out, plugin K J boot infos fuel = some out ∧
        (out.1.map Prod.fst).Sublist Processor.processors ∧
        (∀ p bytes, (p, bytes) ∈ out.1 → ∃ info content sons,
          (scan K boot infos).modifiedClassInfo p = some info ∧ info.content = some content ∧
          sons.map p.classname = (scan K boot infos).allAnnotatedName p ∧
          (∀ son ∈ sons, p.superClasses son = H.chain (p.classname son)) ∧
          injectCode J p sons content = .ok bytes) ∧
        (out.2 = .ok () → ∀ p info, (scan K boot infos).modifiedClassInfo p = some info →
          info.content ≠ none → (scan K boot infos).allAnnotatedName p ≠ [] →
          ∃ bytes, (p, bytes) ∈ out.1) := by
  obtain ⟨H, hH⟩ := exists_ofPool hends
  obtain ⟨N, hN⟩ := exists_fuel H (scan K boot infos)
  refine ⟨H, hH, N, fun fuel hfuel => ⟨_, plugin_eq hH fun p name h => (hN p name h).trans hfuel,
    ?_, ?_, ?_⟩⟩
  · refine (onScanEnd_sublist _).trans ?_
    rw [List.map_map]
    exact (List.map_id Processor.processors).symm ▸ List.Sublist.refl _
  · intro p bytes hw
    obtain ⟨s, hs, content, sons, hin, hsons, hproc, hbytes⟩ := onScanEnd_written hw
    obtain ⟨q, -, rfl⟩ := List.mem_map.1 hs
    obtain rfl : q = p := hproc
    obtain ⟨info, hinfo, hcontent⟩ := Option.bind_eq_some_iff.1 hin
    have hok := (Processor.addSons_ancestors _).symm.trans hsons
    obtain ⟨hnames, hchains⟩ := Processor.sonsOf_eq_ok (fun name h => collects_of_mem h) hok
    exact ⟨info, content, sons, hinfo, hcontent, hnames, hchains, hbytes⟩
  · intro hok p info hinfo hcontent hne
    have hall : p ∈ Processor.processors := by cases p <;> decide
    refine onScanEnd_complete hok _ (List.mem_map_of_mem hall) ?_ ?_
    · simp only [hinfo, Option.bind_some]
      exact hcontent
    · simpa using hne

theorem plugin_writes_camera : ∃ N, ∀ fuel, N ≤ fuel →
    ∃ out, plugin cameraApp opening ["android.jar"] cameraInfos fuel = some out ∧
      (∀ p bytes, (p, bytes) ∈ out.1 → p = .quickAppMetaData) ∧
      (∀ bytes, (.quickAppMetaData, bytes) ∈ out.1 → ∃ sons : List MetaData,
        sons.map MetaData.classname = ["Camera", "ListWidget"] ∧
        injectCode opening .quickAppMetaData sons [0xCA, 0xFE] = .ok bytes) ∧
      (out.2 = .ok () → ∃ bytes, (.quickAppMetaData, bytes) ∈ out.1) := by
  obtain ⟨_, _, N, hN⟩ := plugin_writes opening cameraApp ["android.jar"] cameraInfos
    (cameraApp_ends _)
  have hinfo : ∀ p, ((scan cameraApp ["android.jar"] cameraInfos).modifiedClassInfo p).map
      ClassInfo.content = if p = .quickAppMetaData then some (some [0xCA, 0xFE]) else none := by
    intro p
    cases p <;> decide
  have hnames : (scan cameraApp ["android.jar"] cameraInfos).allAnnotatedName .quickAppMetaData =
      ["Camera", "ListWidget"] := by decide
  refine ⟨N, fun fuel hfuel => ?_⟩
  obtain ⟨out, hout, -, hwritten, hall⟩ := hN fuel hfuel
  refine ⟨out, hout, fun p bytes hp => ?_, fun bytes hp => ?_, fun hok => ?_⟩
  · obtain ⟨info, content, sons, hsome, -⟩ := hwritten p bytes hp
    by_contra hne
    have h := hinfo p
    rw [hsome, if_neg hne] at h
    cases h
  · obtain ⟨info, content, sons, hsome, hcontent, hsons, -, hbytes⟩ := hwritten _ bytes hp
    have h := hinfo .quickAppMetaData
    rw [hsome, if_pos rfl, Option.map_some, hcontent, Option.some.injEq, Option.some.injEq] at h
    rw [h] at hbytes
    exact ⟨sons, hsons.trans hnames, hbytes⟩
  · obtain ⟨info, hsome, hcontent⟩ := Option.map_eq_some_iff.1 (hinfo .quickAppMetaData)
    exact hall hok _ info hsome (by simp [hcontent]) (by simp [hnames])

/-! ## The order of the scan -/

/-- Every scanned class comes with a container that has it; no two containers of the path disagree
about a class, and no class a processor writes to comes twice. -/
structure Packed (K : Containers File) (boot : List File) (infos : List (ClassInfo File)) : Prop where
  own : ∀ info ∈ infos, ∃ file, info.mather = some file ∧ (K.read file info.canonicalName).isSome
  agree : ∀ file ∈ boot ++ infos.filterMap ClassInfo.mather,
    ∀ file' ∈ boot ++ infos.filterMap ClassInfo.mather, ∀ name c c',
      K.read file name = some c → K.read file' name = some c' → c = c'
  modified : ∀ p : Processor, ∀ i ∈ infos, ∀ j ∈ infos, i.canonicalName = p.modifiedClassName →
    j.canonicalName = p.modifiedClassName → i = j

namespace Packed

variable {boot : List File} {infos infos' : List (ClassInfo File)}

theorem perm (h : Packed K boot infos) (hp : infos.Perm infos') : Packed K boot infos' where
  own info hi := h.own info (hp.mem_iff.2 hi)
  agree file hf file' hf' := h.agree file (((hp.filterMap _).append_left boot).mem_iff.2 hf) file'
    (((hp.filterMap _).append_left boot).mem_iff.2 hf')
  modified p i hi j hj := h.modified p i (hp.mem_iff.2 hi) j (hp.mem_iff.2 hj)

/-- No class is passed over. -/
theorem foundNames_eq : ∀ {infos : List (ClassInfo File)} {classPath : List File},
    (∀ info ∈ infos, ∃ file, info.mather = some file ∧ (K.read file info.canonicalName).isSome) →
      foundNames K classPath infos = infos.map ClassInfo.canonicalName := by
  intro infos
  induction infos with
  | nil => exact fun _ => rfl
  | cons info rest ih =>
    intro classPath h
    obtain ⟨file, hm, hr⟩ := h info List.mem_cons_self
    have hfound : (find K (classPath ++ info.mather.toList) info.canonicalName).isSome := by
      rw [find, List.findSome?_isSome_iff]
      exact ⟨file, by simp [hm], hr⟩
    simp only [foundNames, hfound, if_true, List.map_cons, ih (List.forall_mem_of_forall_mem_cons h)]

theorem find_eq_some_iff (h : Packed K boot infos) {name : String} {c : ClassFile} :
    find K (boot ++ infos.filterMap ClassInfo.mather) name = some c ↔
      ∃ file ∈ boot ++ infos.filterMap ClassInfo.mather, K.read file name = some c := by
  constructor
  · exact fun hfind => List.exists_of_findSome?_eq_some hfind
  · rintro ⟨file, hf, hr⟩
    have hsome : (find K (boot ++ infos.filterMap ClassInfo.mather) name).isSome := by
      rw [find, List.findSome?_isSome_iff]
      exact ⟨file, hf, by rw [hr]; rfl⟩
    obtain ⟨c', hc'⟩ := Option.isSome_iff_exists.1 hsome
    obtain ⟨file', hf', hr'⟩ := List.exists_of_findSome?_eq_some hc'
    rw [hc', h.agree file hf file' hf' name c c' hr hr']

/-- The containers may come in any order. -/
theorem find_perm (h : Packed K boot infos) (hp : infos.Perm infos') :
    find K (scan K boot infos).classPath = find K (scan K boot infos').classPath := by
  rw [scan_classPath, scan_classPath]
  funext name
  refine Option.ext fun c => ?_
  rw [h.find_eq_some_iff, (h.perm hp).find_eq_some_iff]
  simp only [((hp.filterMap ClassInfo.mather).append_left boot).mem_iff]

theorem allAnnotatedName_perm (h : Packed K boot infos) (hp : infos.Perm infos') (p : Processor) :
    ((scan K boot infos).allAnnotatedName p).Perm ((scan K boot infos').allAnnotatedName p) := by
  have hpool := h.find_perm hp
  rw [scan_classPath, scan_classPath] at hpool
  rw [scan_allAnnotatedName, scan_allAnnotatedName, foundNames_eq h.own,
    foundNames_eq (h.perm hp).own, hpool]
  refine (List.perm_ext_iff_of_nodup (LinkedMap.nodup_eraseDups _) (LinkedMap.nodup_eraseDups _)).2
    fun name => ?_
  rw [List.mem_eraseDups, List.mem_eraseDups]
  exact ((hp.map _).filter _).mem_iff

theorem modifiedClassInfo_perm (h : Packed K boot infos) (hp : infos.Perm infos') (p : Processor) :
    (scan K boot infos).modifiedClassInfo p = (scan K boot infos').modifiedClassInfo p := by
  have hlast : (infos.filter fun i => i.canonicalName = p.modifiedClassName).getLast? =
      (infos'.filter fun i => i.canonicalName = p.modifiedClassName).getLast? := by
    have hf := hp.filter fun i => i.canonicalName = p.modifiedClassName
    cases hl : (infos.filter fun i => i.canonicalName = p.modifiedClassName).getLast? with
    | none =>
      rw [List.getLast?_eq_none_iff] at hl
      rw [hl] at hf
      rw [List.nil_perm.1 hf]
      rfl
    | some i =>
      have hi := List.mem_filter.1 (List.mem_of_getLast? hl)
      cases hl' : (infos'.filter fun i => i.canonicalName = p.modifiedClassName).getLast? with
      | none =>
        rw [List.getLast?_eq_none_iff] at hl'
        rw [hl'] at hf
        rw [List.perm_nil.1 hf] at hl
        cases hl
      | some j =>
        have hj := List.mem_filter.1 (hf.mem_iff.2 (List.mem_of_getLast? hl'))
        rw [h.modified p i hi.1 j hj.1 (by simpa using hi.2) (by simpa using hj.2)]
  rw [scan_modifiedClassInfo, scan_modifiedClassInfo, foundNames_eq h.own,
    foundNames_eq (h.perm hp).own, hlast]
  simp only [(hp.map ClassInfo.canonicalName).mem_iff]

end Packed

/-! ## What the processors make of permuted sons -/

theorem EventTargetProcessor.registrations_perm (U : UnicodeIdent) {H : Hierarchy String}
    {sons sons' : List EventTargetMetaData} (h : ∀ t ∈ sons, Consistent H t) (hp : sons.Perm sons') :
    ((process sons).registrations U).Perm ((process sons').registrations U) := by
  -- both are the walk over the same leaves
  have hwalk : ∀ {sons : List EventTargetMetaData}, (∀ t ∈ sons, Consistent H t) →
      ((process sons).registrations U).Perm (walk (leaves sons)) := by
    intro sons h
    rw [registrations_process, removeParent_targets h, registrations_sources]
    refine LinkedMap.flatMap_filter_perm Registration.event (LinkedMap.nodup_eraseDups _)
      fun r hr => ?_
    rw [List.mem_eraseDups, ← map_event_walk]
    exact List.mem_map_of_mem hr
  have hleaves : leaves sons' = sons'.filter fun t => ¬ Extended sons t := by
    refine List.filter_congr fun t _ => decide_eq_decide.2 (not_congr ?_)
    simp only [Extended, hp.mem_iff]
  have hw : (walk (leaves sons)).Perm (walk (leaves sons')) := by
    rw [hleaves]
    exact (hp.filter _).flatMap_right _
  exact (hwalk h).trans (hw.trans (hwalk fun t ht => h t (hp.mem_iff.2 ht)).symm)

theorem DependencyProcessor.putKeys_perm (U : UnicodeIdent) {H : Hierarchy String}
    {sons sons' : List DependencyMetaData} (h : ∀ d ∈ sons, Consistent H d) (hp : sons.Perm sons') :
    ((process sons).putKeys U).Perm ((process sons').putKeys U) := by
  rw [putKeys_process, putKeys_process, removeParent_map_some skipOk_none h,
    removeParent_map_some skipOk_none fun d hd => h d (hp.mem_iff.2 hd), reduceOption_map_some,
    reduceOption_map_some]
  exact (Sweep.undominated_perm _ hp).map _

theorem ofHierarchy_of_chains {H : Hierarchy String} {sons : List MetaData}
    (h : ∀ son ∈ sons, son.superClasses = H.chain son.classname) : OfHierarchy H sons where
  extensions e he := by
    obtain ⟨son, hs, hse⟩ := List.mem_filterMap.1 he
    cases son <;> cases hse
    exact h _ hs
  widgets w hw := by
    obtain ⟨son, hs, hsw⟩ := List.mem_filterMap.1 hw
    cases son <;> cases hsw
    exact h _ hs
  inherited i hi := by
    obtain ⟨son, hs, hsi⟩ := List.mem_filterMap.1 hi
    cases son <;> cases hsi
    exact h _ hs

/-- The processor ends the same way with both lists: the same entries are left, unless two
`InheritedMetaData` find the same entry; the same registrations; the same keys. -/
def Processor.Alike (U : UnicodeIdent) : (p : Processor) → List p.Son → List p.Son → Prop
  | .quickAppMetaData, sons, sons' => QuickAppMetaDataProcessor.OrderFree sons →
      SameEnd (QuickAppMetaDataProcessor.process sons) (QuickAppMetaDataProcessor.process sons')
        (QuickAppMetaDataProcessor.left sons) (QuickAppMetaDataProcessor.left sons')
  | .geminiMetaData, sons, sons' => GeminiMetaDataProcessor.OrderFree sons →
      SameEnd (GeminiMetaDataProcessor.process sons) (GeminiMetaDataProcessor.process sons')
        (GeminiMetaDataProcessor.left sons) (GeminiMetaDataProcessor.left sons')
  | .eventTarget, sons, sons' => ((EventTargetProcessor.process sons).registrations U).Perm
      ((EventTargetProcessor.process sons').registrations U)
  | .dependency, sons, sons' => ((DependencyProcessor.process sons).putKeys U).Perm
      ((DependencyProcessor.process sons').putKeys U)

theorem Processor.alike_of_perm (U : UnicodeIdent) {p : Processor} {H : Hierarchy String}
    {sons sons' : List p.Son} (h : ∀ son ∈ sons, p.superClasses son = H.chain (p.classname son))
    (hp : sons.Perm sons') : p.Alike U sons sons' := by
  cases p with
  | quickAppMetaData =>
    exact QuickAppMetaDataProcessor.sameEnd_of_orderFree hp (ofHierarchy_of_chains h)
  | geminiMetaData =>
    exact GeminiMetaDataProcessor.sameEnd_of_orderFree hp (ofHierarchy_of_chains h)
  | eventTarget => exact EventTargetProcessor.registrations_perm U h hp
  | dependency => exact DependencyProcessor.putKeys_perm U h hp

theorem notFound_eq_none_iff {pool : ClassPool} {names : List String} :
    notFound pool names = none ↔ ∀ name ∈ names, (pool name).isSome := by
  rw [notFound, List.find?_eq_none]
  refine forall₂_congr fun name _ => ?_
  cases pool name <;> simp

theorem Processor.sonsOf_perm {p : Processor} {H : Hierarchy String} {pool : ClassPool}
    {names names' : List String} (hp : names.Perm names') :
    (∃ t t', p.sonsOf H pool names = .error t ∧ p.sonsOf H pool names' = .error t') ∨
      ∃ sons sons', p.sonsOf H pool names = .ok sons ∧ p.sonsOf H pool names' = .ok sons' ∧
        sons.Perm sons' := by
  have hiff : notFound pool (names.flatMap H.chain) = none ↔
      notFound pool (names'.flatMap H.chain) = none := by
    simp only [notFound_eq_none_iff, List.mem_flatMap, hp.mem_iff]
  rw [sonsOf, sonsOf]
  cases hn : notFound pool (names.flatMap H.chain) with
  | none =>
    rw [hiff.1 hn]
    exact Or.inr ⟨_, _, rfl, rfl, hp.filterMap _⟩
  | some d =>
    cases hn' : notFound pool (names'.flatMap H.chain) with
    | none =>
      rw [hiff.2 hn'] at hn
      cases hn
    | some d' => exact Or.inl ⟨_, _, rfl, rfl⟩

end HybridStack.Pisces
