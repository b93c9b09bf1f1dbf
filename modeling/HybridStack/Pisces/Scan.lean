import HybridStack.Lib.LinkedMap
import HybridStack.Pisces.PiscesPlugin
import Mathlib.Data.List.Infix

/-!
# The scan

Gradle hands the plugin every class of the build, one after the other. `onScanClass` puts the
container of the class on the class path and shows the class to each processor: it is either the
class that processor writes to, or one more annotated class, or nothing to it.

| here | there |
| --- | --- |
| `Action` … `WebFeatureExtension` | packages/pisces-annotation |
| `getCtClass`, `find` | javassist's `ClassPool`: the first container of the path that has the class |
| `getSuperclasses` | Utils.kt:193-201 |
| `getMethods`, `getTypes` | MetaDataExt.kt:164-185, QuickAppMetaDataProcessor.kt:357-364 |
| `Processor.modifiedClassName`, `supports`, `map` | the members of the four processors |
| `onScanBegin`, `onScanClass` | PiscesPlugin.kt:28-64 |
| `plugin` | a whole build, up to `onScanEnd` |

- **`scan_collects`**: what has been collected for a processor after any scan.

A `CtClass` is its name: the pool hands out one object for a name until `onScanEnd` detaches it. Left
out are the log lines, `start` and `end`, and class files that cannot be parsed.
-/

namespace HybridStack.Pisces

/-! ## Annotated classes -/

structure Action where
  name : String
  instanceMethod : Bool := false
  mode : Mode
  type : MethodType := .FUNCTION
  access : Access := .NONE
  normalize : Normalize := .JSON
  multiple : Multiple := .SINGLE
  aliasName : String := ""
  permissions : List String := []
  subAttrs : List String := []
  residentType : ActionResidentType := .NONE

structure FeatureExtension where
  name : String
  actions : List Action
  residentType : FeatureResidentType := .FORBIDDEN

structure ModuleExtension where
  name : String
  actions : List Action

structure WidgetExtension where
  name : String
  actions : List Action

structure WebFeatureExtension where
  name : String
  actions : List Action

/-- `annotation class Type`. -/
structure TypeEntry where
  name : String
  isDefault : Bool := false

structure Widget where
  name : String
  types : List TypeEntry := []
  methods : List String := []
  needDeleteSuperClasses : Bool := false

structure EventTarget where
  eventNames : List String

structure Dependency where
  key : String

/-- What a class file says about its class. -/
structure ClassFile where
  /-- `none` for `java.lang.Object`. -/
  superclass : Option String
  inherited : Bool := false
  featureExtension : Option FeatureExtension := none
  moduleExtension : Option ModuleExtension := none
  widgetExtension : Option WidgetExtension := none
  widget : Option Widget := none
  eventTarget : Option EventTarget := none
  dependency : Option Dependency := none
  webInherited : Bool := false
  webFeatureExtension : Option WebFeatureExtension := none

def getMethods (actions : List Action) : List Method :=
  actions.map fun action =>
    ⟨action.name, action.instanceMethod, action.mode, action.type, action.access, action.normalize,
      action.multiple, action.aliasName, action.permissions, action.subAttrs, action.residentType⟩

def Widget.getTypes (widget : Widget) : List WidgetType :=
  widget.types.map fun type => ⟨type.name, type.isDefault⟩

/-! ## The class pool -/

/-- What the jars and directories hold. -/
structure Containers (File : Type) where
  read : File → String → Option ClassFile
  /-- No class has the empty name. -/
  read_empty : ∀ file, read file "" = none

variable {File : Type} (K : Containers File)

abbrev ClassPool := String → Option ClassFile

/-- The first container of the path that has the class. -/
def find (classPath : List File) : ClassPool := fun name =>
  classPath.findSome? fun file => K.read file name

/-- A `CtClass` with its class file. -/
structure PoolClass where
  name : String
  classFile : ClassFile

/-- A class that is not found is a `NotFoundException` with its name. -/
def getCtClass (pool : ClassPool) (name : String) : Except Throwable PoolClass :=
  match pool name with
  | none => .error (.exception name)
  | some classFile => .ok ⟨name, classFile⟩

def PoolClass.superclass (pool : ClassPool) (c : PoolClass) : Except Throwable (Option PoolClass) :=
  match c.classFile.superclass with
  | none => .ok none
  | some name => (getCtClass pool name).map some

/-- `while (sc?.name?.isNotEmpty() == true)`; `none` if it is still running after `fuel` rounds. -/
def superclassLoop (pool : ClassPool) : Nat → Option PoolClass →
    Option (Except Throwable (List String))
  | _, none => some (.ok [])
  | 0, some _ => none
  | fuel + 1, some sc =>
    if sc.name = "" then some (.ok [])
    else
      match sc.superclass pool with
      | .error t => some (.error t)
      | .ok next => (superclassLoop pool fuel next).map (Except.map (sc.name :: ·))

def getSuperclasses (pool : ClassPool) (fuel : Nat) (c : PoolClass) :
    Option (Except Throwable (List String)) :=
  match c.superclass pool with
  | .error t => some (.error t)
  | .ok sc => superclassLoop pool fuel sc

/-! ## The processors -/

/-- The cascade of `map`: the first annotation decides. What is missing is `getSuperclasses`. -/
def QuickAppMetaDataProcessor.son (c : PoolClass) : Option (List String → MetaData) :=
  if c.classFile.inherited then some fun superClasses => .inherited ⟨c.name, superClasses⟩
  else
    match c.classFile.featureExtension with
    | some a => some fun superClasses =>
        .extension ⟨.feature a.residentType, a.name, c.name, superClasses, getMethods a.actions⟩
    | none =>
      match c.classFile.moduleExtension with
      | some a => some fun superClasses =>
          .extension ⟨.module, a.name, c.name, superClasses, getMethods a.actions⟩
      | none =>
        match c.classFile.widgetExtension with
        | some a => some fun superClasses =>
            .extension ⟨.widgetExtension, a.name, c.name, superClasses, getMethods a.actions⟩
        | none =>
          match c.classFile.widget with
          | some a => some fun superClasses =>
              .widget ⟨a.name, c.name, superClasses, a.needDeleteSuperClasses, a.methods, a.getTypes⟩
          | none => none

def GeminiMetaDataProcessor.son (c : PoolClass) : Option (List String → MetaData) :=
  if c.classFile.webInherited then some fun superClasses => .inherited ⟨c.name, superClasses⟩
  else
    match c.classFile.webFeatureExtension with
    | some a => some fun superClasses =>
        .extension ⟨.webFeature, a.name, c.name, superClasses, getMethods a.actions⟩
    | none => none

def EventTargetProcessor.son (c : PoolClass) : Option (List String → EventTargetMetaData) :=
  c.classFile.eventTarget.map fun a superClasses => ⟨a.eventNames, c.name, superClasses⟩

def DependencyProcessor.son (c : PoolClass) : Option (List String → DependencyMetaData) :=
  c.classFile.dependency.map fun a superClasses => ⟨a.key, c.name, superClasses⟩

namespace Processor

/-- `processors`. -/
def processors : List Processor := [.quickAppMetaData, .eventTarget, .dependency, .geminiMetaData]

def modifiedClassName : Processor → String
  | .quickAppMetaData => "com.electrolytej.pisces.MetaDataSetImpl"
  | .eventTarget => "com.spacecraft.hybrid.event.EventTargetDataSetImpl"
  | .dependency => "com.spacecraft.hybrid.DependencyManagerImpl"
  | .geminiMetaData => "com.spacecraft.hybrid.WebMetaDataSetImpl"

/-- The class has one of the annotations of `supportAnnotation()`. -/
def supports : Processor → ClassFile → Bool
  | .quickAppMetaData, c => c.inherited || c.featureExtension.isSome || c.moduleExtension.isSome ||
      c.widgetExtension.isSome || c.widget.isSome
  | .eventTarget, c => c.eventTarget.isSome
  | .dependency, c => c.dependency.isSome
  | .geminiMetaData, c => c.webInherited || c.webFeatureExtension.isSome

def son : (p : Processor) → PoolClass → Option (List String → p.Son)
  | .quickAppMetaData => QuickAppMetaDataProcessor.son
  | .eventTarget => EventTargetProcessor.son
  | .dependency => DependencyProcessor.son
  | .geminiMetaData => GeminiMetaDataProcessor.son

def map (pool : ClassPool) (fuel : Nat) (p : Processor) (c : PoolClass) :
    Option (Except Throwable (Option p.Son)) :=
  match p.son c with
  | none => some (.ok none)
  | some f => (getSuperclasses pool fuel c).map (Except.map fun superClasses => some (f superClasses))

end Processor

/-! ## Scanning -/

/-- What is read of a scanned class. -/
structure ClassInfo (File : Type) where
  canonicalName : String
  /-- The container the class came from. -/
  mather : Option File
  /-- What is in its `classFile` or its `classStream`. -/
  content : Option Bytes

/-- The class pool and the fields of the processors. -/
structure Scan (File : Type) where
  classPath : List File
  modifiedClassInfo : Processor → Option (ClassInfo File)
  allAnnotatedName : Processor → List String

namespace Scan

def setModifiedClassInfo (s : Scan File) (p : Processor) (info : ClassInfo File) : Scan File :=
  { s with modifiedClassInfo := Function.update s.modifiedClassInfo p (some info) }

/-- `allAnnotatedName.add`, on a set that remembers the order of insertion. -/
def add (s : Scan File) (p : Processor) (name : String) : Scan File :=
  if name ∈ s.allAnnotatedName p then s
  else { s with allAnnotatedName :=
           Function.update s.allAnnotatedName p (s.allAnnotatedName p ++ [name]) }

end Scan

def onScanBegin (bootClasspath : List File) : Scan File := ⟨bootClasspath, fun _ => none, fun _ => []⟩

/-- `processors.forEach`; what `getCtClass` throws ends it. -/
def visit (pool : ClassPool) (info : ClassInfo File) : List Processor → Scan File → Scan File
  | [], s => s
  | p :: ps, s =>
    if p.modifiedClassName = info.canonicalName then
      visit pool info ps (s.setModifiedClassInfo p info)
    else
      match getCtClass pool info.canonicalName with
      | .error _ => s
      | .ok c =>
        visit pool info ps (if p.supports c.classFile then s.add p info.canonicalName else s)

/-- `String.contains`. -/
def contains (s other : String) : Bool := other.toList <:+: s.toList

def onScanClass (s : Scan File) (info : ClassInfo File) : Scan File :=
  if !contains info.canonicalName "" && !contains info.canonicalName "com.spacecraft.hybrid" then s
  else
    let classPath := s.classPath ++ info.mather.toList
    visit (find K classPath) info Processor.processors { s with classPath }

def scan (bootClasspath : List File) (infos : List (ClassInfo File)) : Scan File :=
  infos.foldl (onScanClass K) (onScanBegin bootClasspath)

/-! ## What is found -/

variable {K}

/-- What is found stays found, and the same, when the path grows. -/
theorem find_append {classPath more : List File} {name : String} {c : ClassFile}
    (h : find K classPath name = some c) : find K (classPath ++ more) name = some c := by
  simp only [find] at h ⊢
  rw [List.findSome?_append, h, Option.some_or]

variable (K)

/-- The names of the scanned classes that are found at their turn. -/
def foundNames (classPath : List File) : List (ClassInfo File) → List String
  | [] => []
  | info :: rest =>
    let classPath := classPath ++ info.mather.toList
    if (find K classPath info.canonicalName).isSome then
      info.canonicalName :: foundNames classPath rest
    else foundNames classPath rest

variable {K}

theorem foundNames_concat (info : ClassInfo File) : ∀ (infos : List (ClassInfo File))
    (classPath : List File), foundNames K classPath (infos ++ [info]) = foundNames K classPath infos ++
      if (find K (classPath ++ (infos ++ [info]).filterMap ClassInfo.mather)
        info.canonicalName).isSome then [info.canonicalName] else [] := by
  intro infos
  induction infos with
  | nil =>
    intro classPath
    have hm : classPath ++ ([] ++ [info]).filterMap ClassInfo.mather =
        classPath ++ info.mather.toList := by
      cases hi : info.mather <;> simp [hi]
    rw [hm]
    simp only [List.nil_append, foundNames]
  | cons i rest ih =>
    intro classPath
    have hm : classPath ++ i.mather.toList ++ (rest ++ [info]).filterMap ClassInfo.mather =
        classPath ++ (i :: (rest ++ [info])).filterMap ClassInfo.mather := by
      cases hi : i.mather <;> simp [hi]
    simp only [List.cons_append, foundNames, ih, hm]
    split <;> rfl

/-- A class that was found is found at the end. -/
theorem isSome_of_mem_foundNames {name : String} : ∀ (infos : List (ClassInfo File))
    (classPath : List File), name ∈ foundNames K classPath infos →
      (find K (classPath ++ infos.filterMap ClassInfo.mather) name).isSome := by
  intro infos
  induction infos with
  | nil => exact fun _ h => absurd h List.not_mem_nil
  | cons i rest ih =>
    intro classPath h
    have hm : classPath ++ (i :: rest).filterMap ClassInfo.mather =
        classPath ++ i.mather.toList ++ rest.filterMap ClassInfo.mather := by
      cases hi : i.mather <;> simp [hi]
    rw [hm]
    rw [foundNames] at h
    split at h
    next hsome =>
      rcases List.mem_cons.1 h with rfl | h
      · obtain ⟨c, hc⟩ := Option.isSome_iff_exists.1 hsome
        rw [find_append hc]
        rfl
      · exact ih _ h
    next => exact ih _ h

/-! ## One class -/

theorem contains_empty (s : String) : contains s "" = true :=
  decide_eq_true List.nil_infix

/-- The names of the classes the processors write to. -/
theorem modifiedClassName_injective : Function.Injective Processor.modifiedClassName := by
  intro p q h
  revert h
  cases p <;> cases q <;> decide

section
variable (s : Scan File) (p q : Processor) (info : ClassInfo File) (name : String)

@[simp] theorem Scan.setModifiedClassInfo_classPath :
    (s.setModifiedClassInfo q info).classPath = s.classPath := rfl

@[simp] theorem Scan.setModifiedClassInfo_allAnnotatedName :
    (s.setModifiedClassInfo q info).allAnnotatedName = s.allAnnotatedName := rfl

theorem Scan.setModifiedClassInfo_modifiedClassInfo :
    (s.setModifiedClassInfo q info).modifiedClassInfo p =
      if p = q then some info else s.modifiedClassInfo p := by
  by_cases hp : p = q
  · subst hp
    simp [Scan.setModifiedClassInfo]
  · simp [Scan.setModifiedClassInfo, hp]

@[simp] theorem Scan.add_classPath : (s.add q name).classPath = s.classPath := by
  unfold Scan.add
  split <;> rfl

@[simp] theorem Scan.add_modifiedClassInfo :
    (s.add q name).modifiedClassInfo = s.modifiedClassInfo := by
  unfold Scan.add
  split <;> rfl

theorem Scan.add_allAnnotatedName : (s.add q name).allAnnotatedName p =
    if p = q ∧ name ∉ s.allAnnotatedName p then s.allAnnotatedName p ++ [name]
    else s.allAnnotatedName p := by
  unfold Scan.add
  by_cases hp : p = q
  · subst hp
    by_cases hmem : name ∈ s.allAnnotatedName p
    · simp [hmem]
    · simp [hmem]
  · split
    next => simp [hp]
    next => simp [hp]

end

/-- A class that is found is shown to every processor. -/
theorem visit_found {pool : ClassPool} {info : ClassInfo File} {c : ClassFile}
    (h : pool info.canonicalName = some c) (p : Processor) : ∀ (ps : List Processor),
    ps.Nodup → ∀ (s : Scan File),
    (visit pool info ps s).classPath = s.classPath ∧
    (visit pool info ps s).modifiedClassInfo p =
      (if p ∈ ps ∧ p.modifiedClassName = info.canonicalName then some info
        else s.modifiedClassInfo p) ∧
    (visit pool info ps s).allAnnotatedName p =
      (if p ∈ ps ∧ p.modifiedClassName ≠ info.canonicalName ∧ p.supports c ∧
          info.canonicalName ∉ s.allAnnotatedName p
        then s.allAnnotatedName p ++ [info.canonicalName] else s.allAnnotatedName p) := by
  intro ps
  induction ps with
  | nil => simp [visit]
  | cons q ps ih =>
    intro hnd s
    obtain ⟨hq, hnd⟩ := List.nodup_cons.1 hnd
    rw [visit]
    by_cases hname : q.modifiedClassName = info.canonicalName
    · obtain ⟨h1, h2, h3⟩ := ih hnd (s.setModifiedClassInfo q info)
      simp only [if_pos hname]
      refine ⟨h1, h2.trans ?_, h3.trans ?_⟩
      · rw [Scan.setModifiedClassInfo_modifiedClassInfo]
        by_cases hp : p = q
        · subst hp
          simp [hname]
        · simp [hp]
      · refine if_congr ?_ rfl rfl
        by_cases hp : p = q
        · subst hp
          simp [hq, hname]
        · simp [hp]
    · simp only [if_neg hname, getCtClass, h]
      obtain ⟨h1, h2, h3⟩ := ih hnd (if q.supports c then s.add q info.canonicalName else s)
      refine ⟨h1.trans ?_, h2.trans ?_, h3.trans ?_⟩
      · split
        next => exact Scan.add_classPath ..
        next => rfl
      · have hsame : (if q.supports c then s.add q info.canonicalName else s).modifiedClassInfo =
            s.modifiedClassInfo := by
          split
          next => exact Scan.add_modifiedClassInfo ..
          next => rfl
        rw [hsame]
        refine if_congr ?_ rfl rfl
        by_cases hp : p = q
        · subst hp
          simp [hname]
        · simp [hp]
      · by_cases hp : p = q
        · subst hp
          by_cases hs : p.supports c
          · simp [hq, hname, hs, Scan.add_allAnnotatedName]
          · simp [hq, hname, hs]
        · have hsame : (if q.supports c then s.add q info.canonicalName else s).allAnnotatedName p =
              s.allAnnotatedName p := by
            split
            next => simp [Scan.add_allAnnotatedName, hp]
            next => rfl
          rw [hsame]
          refine if_congr ?_ rfl rfl
          simp [hp]

/-- Of a class that is not found only the first processor may learn. -/
theorem visit_missing {pool : ClassPool} {info : ClassInfo File} (h : pool info.canonicalName = none)
    (s : Scan File) : visit pool info Processor.processors s =
      if info.canonicalName = Processor.quickAppMetaData.modifiedClassName then
        s.setModifiedClassInfo .quickAppMetaData info
      else s := by
  rw [Processor.processors, visit]
  by_cases hname : Processor.quickAppMetaData.modifiedClassName = info.canonicalName
  · have hnext : Processor.eventTarget.modifiedClassName ≠ info.canonicalName := by
      rw [← hname]
      exact modifiedClassName_injective.ne (by decide)
    rw [if_pos hname, if_pos hname.symm, visit, if_neg hnext, getCtClass, h]
  · rw [if_neg hname, if_neg (Ne.symm hname), getCtClass, h]

/-- A turn, processor by processor. -/
theorem onScanClass_eq (s : Scan File) (info : ClassInfo File) (p : Processor) :
    let pool := find K (s.classPath ++ info.mather.toList)
    (onScanClass K s info).classPath = s.classPath ++ info.mather.toList ∧
    (onScanClass K s info).modifiedClassInfo p =
      (if info.canonicalName = p.modifiedClassName ∧
          (p = .quickAppMetaData ∨ (pool info.canonicalName).isSome)
        then some info else s.modifiedClassInfo p) ∧
    (onScanClass K s info).allAnnotatedName p =
      (if info.canonicalName ≠ p.modifiedClassName ∧ (pool info.canonicalName).any p.supports ∧
          info.canonicalName ∉ s.allAnnotatedName p
        then s.allAnnotatedName p ++ [info.canonicalName] else s.allAnnotatedName p) := by
  intro pool
  simp only [onScanClass, contains_empty, Bool.not_true, Bool.false_and, Bool.false_eq_true, if_false]
  cases hc : pool info.canonicalName with
  | none =>
    rw [visit_missing hc]
    by_cases hname : info.canonicalName = Processor.quickAppMetaData.modifiedClassName
    · by_cases hp : p = .quickAppMetaData
      · subst hp
        simp [hname, Scan.setModifiedClassInfo]
      · simp [hname, hp, Scan.setModifiedClassInfo]
    · by_cases hp : p = .quickAppMetaData
      · subst hp
        simp [hname]
      · simp [hname, hp]
  | some c =>
    have hall : p ∈ Processor.processors := by cases p <;> decide
    obtain ⟨h1, h2, h3⟩ := visit_found hc p Processor.processors (by decide)
      { s with classPath := s.classPath ++ info.mather.toList }
    refine ⟨h1, h2.trans (if_congr ?_ rfl rfl), h3.trans (if_congr ?_ rfl rfl)⟩
    · simp only [hall, true_and, Option.isSome_some, or_true, and_true, eq_comm]
    · simp only [hall, true_and, Option.any_some, ne_eq, eq_comm]

/-! ## Any scan -/

/-- `p` wants to know of the class: it is not its own, and it has one of its annotations. -/
def Processor.collects (p : Processor) (pool : ClassPool) (name : String) : Bool :=
  decide (name ≠ p.modifiedClassName) && (pool name).any p.supports

theorem scan_concat (boot : List File) (infos : List (ClassInfo File)) (info : ClassInfo File) :
    scan K boot (infos ++ [info]) = onScanClass K (scan K boot infos) info := List.foldl_append

theorem filterMap_mather_concat (boot : List File) (infos : List (ClassInfo File))
    (info : ClassInfo File) : boot ++ (infos ++ [info]).filterMap ClassInfo.mather =
      boot ++ infos.filterMap ClassInfo.mather ++ info.mather.toList := by
  cases hi : info.mather <;> simp [hi]

theorem scan_classPath (boot : List File) (infos : List (ClassInfo File)) :
    (scan K boot infos).classPath = boot ++ infos.filterMap ClassInfo.mather := by
  induction infos using List.reverseRecOn with
  | nil => simp [scan, onScanBegin]
  | append_singleton infos info ih =>
    rw [scan_concat, (onScanClass_eq _ info .quickAppMetaData).1, ih, filterMap_mather_concat]

theorem scan_modifiedClassInfo (boot : List File) (infos : List (ClassInfo File)) (p : Processor) :
    (scan K boot infos).modifiedClassInfo p =
      if p = .quickAppMetaData ∨ p.modifiedClassName ∈ foundNames K boot infos then
        (infos.filter fun info => info.canonicalName = p.modifiedClassName).getLast?
      else none := by
  induction infos using List.reverseRecOn with
  | nil => simp [scan, onScanBegin]
  | append_singleton infos info ih =>
    rw [scan_concat, (onScanClass_eq _ info p).2.1, ih, scan_classPath, foundNames_concat,
      filterMap_mather_concat]
    by_cases hname : info.canonicalName = p.modifiedClassName
    · by_cases hp : p = .quickAppMetaData
      · simp [hp, hp ▸ hname]
      · -- what was found before is found now
        have hstill : p.modifiedClassName ∈ foundNames K boot infos →
            (find K (boot ++ infos.filterMap ClassInfo.mather ++ info.mather.toList)
              p.modifiedClassName).isSome := by
          intro hmem
          obtain ⟨c, hc⟩ := Option.isSome_iff_exists.1 (isSome_of_mem_foundNames _ _ hmem)
          rw [find_append hc]
          rfl
        by_cases hnow : (find K (boot ++ infos.filterMap ClassInfo.mather ++ info.mather.toList)
            p.modifiedClassName).isSome
        · simp only [hname, hnow, hp, false_or, and_self, if_true, List.mem_append,
            List.mem_singleton, or_true, List.filter_append]
          simp [hname]
        · have hnot : p.modifiedClassName ∉ foundNames K boot infos := fun h => hnow (hstill h)
          simp [hname, hp, hnot]
    · have hne : ∀ b : Bool, p.modifiedClassName ∉
          if b then [info.canonicalName] else ([] : List String) := by
        intro b
        cases b <;> simp [Ne.symm hname]
      simp only [hname, false_and, if_false, List.mem_append, hne, or_false, List.filter_append]
      simp [hname]

theorem scan_allAnnotatedName (boot : List File) (infos : List (ClassInfo File)) (p : Processor) :
    (scan K boot infos).allAnnotatedName p =
      ((foundNames K boot infos).filter (p.collects
        (find K (boot ++ infos.filterMap ClassInfo.mather)))).eraseDups := by
  induction infos using List.reverseRecOn with
  | nil => simp [scan, onScanBegin, foundNames]
  | append_singleton infos info ih =>
    have hsame : (foundNames K boot infos).filter (p.collects
          (find K (boot ++ infos.filterMap ClassInfo.mather))) =
        (foundNames K boot infos).filter (p.collects
          (find K (boot ++ infos.filterMap ClassInfo.mather ++ info.mather.toList))) := by
      refine List.filter_congr fun name hmem => ?_
      obtain ⟨c, hc⟩ := Option.isSome_iff_exists.1 (isSome_of_mem_foundNames _ _ hmem)
      simp only [Processor.collects, hc, find_append hc]
    rw [scan_concat, (onScanClass_eq _ info p).2.2, ih, scan_classPath, foundNames_concat,
      filterMap_mather_concat, hsame, List.filter_append]
    cases hc : find K (boot ++ infos.filterMap ClassInfo.mather ++ info.mather.toList)
        info.canonicalName with
    | none => simp
    | some c =>
      simp only [Option.isSome_some, if_true, Option.any_some]
      by_cases hcol : info.canonicalName ≠ p.modifiedClassName ∧ p.supports c
      · have htrue : p.collects (find K (boot ++ infos.filterMap ClassInfo.mather ++
            info.mather.toList)) info.canonicalName = true := by
          simp only [Processor.collects, hc, Option.any_some, hcol.1, hcol.2, ne_eq,
            not_false_eq_true, decide_true, Bool.and_self]
        rw [List.filter_cons_of_pos htrue, List.filter_nil, LinkedMap.eraseDups_concat]
        simp only [hcol.1, hcol.2, true_and, List.mem_eraseDups, ne_eq, not_false_eq_true]
        split_ifs <;> rfl
      · have hfalse : ¬ p.collects (find K (boot ++ infos.filterMap ClassInfo.mather ++
            info.mather.toList)) info.canonicalName = true := by
          simp only [Processor.collects, hc, Option.any_some, Bool.and_eq_true, decide_eq_true_eq]
          exact hcol
        rw [List.filter_cons_of_neg hfalse, List.filter_nil, List.append_nil, if_neg]
        exact fun h => hcol ⟨h.1, h.2.1⟩

theorem mem_foundNames_iff {name : String} : ∀ {infos : List (ClassInfo File)} {boot : List File},
    name ∈ foundNames K boot infos ↔ ∃ pre info post, infos = pre ++ info :: post ∧
      info.canonicalName = name ∧
      (find K (boot ++ (pre ++ [info]).filterMap ClassInfo.mather) name).isSome := by
  intro infos boot
  induction infos using List.reverseRecOn with
  | nil => simp [foundNames]
  | append_singleton infos i ih =>
    rw [foundNames_concat, List.mem_append, ih]
    constructor
    · rintro (⟨pre, info, post, rfl, hname, hsome⟩ | h)
      · exact ⟨pre, info, post ++ [i], by simp, hname, hsome⟩
      · split at h
        next hsome =>
          obtain rfl := List.mem_singleton.1 h
          exact ⟨infos, i, [], rfl, rfl, hsome⟩
        next => cases h
    · rintro ⟨pre, info, post, hsplit, hname, hsome⟩
      rcases List.eq_nil_or_concat post with rfl | ⟨post, last, rfl⟩
      · obtain ⟨rfl, hi⟩ := List.append_inj' hsplit rfl
        obtain rfl := List.singleton_inj.1 hi
        subst hname
        rw [if_pos hsome]
        exact Or.inr (List.mem_singleton_self _)
      · rw [List.concat_eq_append, ← List.cons_append, ← List.append_assoc] at hsplit
        obtain ⟨rfl, -⟩ := List.append_inj' hsplit rfl
        exact Or.inl ⟨pre, info, post, rfl, hname, hsome⟩

/-- **After any scan**: the class path has every container; a processor writes to the last class of
its name, if that could be found (the first processor need not look); and it has collected the
other classes with one of its annotations, each once, in the order in which they were found. -/
theorem scan_collects (K : Containers File) (boot : List File) (infos : List (ClassInfo File)) :
    (scan K boot infos).classPath = boot ++ infos.filterMap ClassInfo.mather ∧ ∀ p : Processor,
      ((scan K boot infos).modifiedClassInfo p =
        if p = .quickAppMetaData ∨ p.modifiedClassName ∈ foundNames K boot infos then
          (infos.filter fun info => info.canonicalName = p.modifiedClassName).getLast?
        else none) ∧
      (scan K boot infos).allAnnotatedName p = ((foundNames K boot infos).filter (p.collects
        (find K (scan K boot infos).classPath))).eraseDups := by
  refine ⟨scan_classPath boot infos, fun p => ⟨scan_modifiedClassInfo boot infos p, ?_⟩⟩
  rw [scan_classPath]
  exact scan_allAnnotatedName boot infos p

/-! ## The end of the scan -/

variable (K)

/-- `map` for each annotated class; `none` if one of them runs for ever. -/
def Scan.mapped (s : Scan File) (fuel : Nat) (p : Processor) :
    Option (List (Except Throwable (Option p.Son))) :=
  (s.allAnnotatedName p).mapM fun name =>
    match getCtClass (find K s.classPath) name with
    | .error t => some (.error t)
    | .ok c => p.map (find K s.classPath) fuel c

def Scan.scanned (s : Scan File) (fuel : Nat) (p : Processor) : Option Scanned :=
  (s.mapped K fuel p).map fun sons => ⟨p, (s.modifiedClassInfo p).bind ClassInfo.content, sons⟩

/-- A whole build. -/
def plugin {CtClass : Type} (J : Javassist CtClass) (bootClasspath : List File)
    (infos : List (ClassInfo File)) (fuel : Nat) :
    Option (List (Processor × Bytes) × Except Throwable Unit) :=
  (Processor.processors.mapM ((scan K bootClasspath infos).scanned K fuel)).map (onScanEnd J)

end HybridStack.Pisces
