import HybridStack.Pisces.Processors

/-!
# The end of the scan

`PiscesPlugin.onScanEnd` hands the class file of each processor to `Injector.injectCode`, whose
lambda lets `process` edit the class and returns what is written in its place. javassist is a
parameter: any call of it may throw.

| here | there |
| --- | --- |
| `Outcome.runOn` | `processor.process(modifiedCtClass)` |
| `edit` | the body of the `try`, PiscesPlugin.kt:91-95 |
| `injectCode` | the lambda, PiscesPlugin.kt:89-104 |
| `onScanEnd` | PiscesPlugin.kt:66-106 |

- `injectCode_allOrNothing_iff`: the lambda returns a whole class exactly when no exception is what
  comes first in the `try`; the `catch` returns an empty one.
- `onScanEnd_written`: whatever a scan writes is what the lambda returned for one of its processors.

Left out: the log lines, and `detach`, which only frees the class.
-/

namespace HybridStack.Pisces

/-- What is thrown. The `catch` of `onScanEnd` is for `Exception`, so an `Error` passes it. -/
inductive Throwable
  /-- Thrown by `process` itself. -/
  | process (e : PiscesException)
  /-- Another `Exception`. -/
  | exception (message : String)
  | error (message : String)
  deriving DecidableEq, Repr

def Throwable.isException : Throwable → Bool
  | .error _ => false
  | _ => true

abbrev Bytes := List UInt8

/-- The javassist calls between a class file and its replacement. -/
structure Javassist (CtClass : Type) where
  makeClass : Bytes → Except Throwable CtClass
  defrost : CtClass → Except Throwable CtClass
  /-- `getDeclaredMethod` with `insertAfter` or `insertAt`. -/
  insert : CtClass → Injection → Except Throwable CtClass
  toBytecode : CtClass → Except Throwable Bytes
  /-- An empty file is no class file. -/
  makeClass_nil : ∀ c, makeClass [] ≠ .ok c

variable {CtClass : Type} (J : Javassist CtClass)

/-! ## Processors -/

inductive Processor
  | quickAppMetaData | eventTarget | dependency | geminiMetaData
  deriving DecidableEq, Repr

namespace Processor

/-- The `T` of `BaseProcessor<T>`. -/
def Son : Processor → Type
  | .quickAppMetaData | .geminiMetaData => MetaData
  | .eventTarget => EventTargetMetaData
  | .dependency => DependencyMetaData

def process : (p : Processor) → List p.Son → Outcome
  | .quickAppMetaData => QuickAppMetaDataProcessor.process
  | .eventTarget => EventTargetProcessor.process
  | .dependency => DependencyProcessor.process
  | .geminiMetaData => GeminiMetaDataProcessor.process

end Processor

/-! ## The lambda -/

/-- The injections in turn, then what `process` ends with. -/
def Outcome.runOn (o : Outcome) (modifiedCtClass : CtClass) : Except Throwable CtClass :=
  match o.injected.foldlM J.insert modifiedCtClass with
  | .error t => .error t
  | .ok c =>
    match o.result with
    | .error e => .error (.process e)
    | .ok () => .ok c

def edit (o : Outcome) (modifiedCtClass : CtClass) : Except Throwable Bytes :=
  match J.defrost modifiedCtClass with
  | .error t => .error t
  | .ok c =>
    match o.runOn J c with
    | .error t => .error t
    | .ok c => J.toBytecode c

def injectCode (p : Processor) (sons : List p.Son) (inputStream : Bytes) : Except Throwable Bytes :=
  match J.makeClass inputStream with
  | .error t => .error t
  | .ok modifiedCtClass =>
    match edit J (p.process sons) modifiedCtClass with
    | .ok bytes => .ok bytes
    | .error t => if t.isException then .ok [] else .error t

/-! ## The scan -/

/-- A processor when `onScanEnd` is called. -/
structure Scanned where
  processor : Processor
  /-- `modifiedClassInfo`, once its file or its stream is there. -/
  modifiedClassInfo : Option Bytes
  /-- What `map` makes of each annotated class. -/
  allAnnotatedName : List (Except Throwable (Option processor.Son))

/-- `addSon` for each annotated class; its `catch` throws on. -/
def addSons {T : Type} : List (Except Throwable (Option T)) → Except Throwable (List T)
  | [] => .ok []
  | .error t :: _ => .error t
  | .ok son :: rest => (addSons rest).map (son.toList ++ ·)

/-- The class files `Injector` writes, and how the scan ends. -/
def onScanEnd : List Scanned → List (Processor × Bytes) × Except Throwable Unit
  | [] => ([], .ok ())
  | s :: rest =>
    match s.modifiedClassInfo with
    | none => onScanEnd rest
    | some inputStream =>
      if s.allAnnotatedName.isEmpty then onScanEnd rest
      else
        match addSons s.allAnnotatedName with
        | .error t => ([], .error t)
        | .ok sons =>
          match injectCode J s.processor sons inputStream with
          | .error t => ([], .error t)
          | .ok bytes => ((s.processor, bytes) :: (onScanEnd rest).1, (onScanEnd rest).2)

/-! ## All or nothing -/

/-- `bytes` is the class of `inputStream` with every injection of the processor. -/
def Injected (p : Processor) (sons : List p.Son) (inputStream bytes : Bytes) : Prop :=
  (p.process sons).result = .ok () ∧ ∃ c c₀ c₁, J.makeClass inputStream = .ok c ∧
    J.defrost c = .ok c₀ ∧ (p.process sons).injected.foldlM J.insert c₀ = .ok c₁ ∧
    J.toBytecode c₁ = .ok bytes

/-- Every injection, or none, or the exception leaves `onScanEnd`. -/
def AllOrNothing (p : Processor) (sons : List p.Son) (inputStream : Bytes) :
    Except Throwable Bytes → Prop
  | .error _ => True
  | .ok bytes => bytes = inputStream ∨ Injected J p sons inputStream bytes

/-- Each inherited class in its turn finds an entry to replace; the lists afterwards. -/
inductive Resolves {T W : Type} [IsMetaData T] [IsMetaData W] : List InheritedMetaData →
    List (Option T) → List (Option W) → List (Option T) → List (Option W) → Prop
  | done {es : List (Option T)} {ws : List (Option W)} : Resolves [] es ws es ws
  | extension {i : InheritedMetaData} {is : List InheritedMetaData} {es es₁ es' : List (Option T)}
      {ws ws' : List (Option W)} : replace es i = some es₁ → Resolves is es₁ ws es' ws' →
      Resolves (i :: is) es ws es' ws'
  | widget {i : InheritedMetaData} {is : List InheritedMetaData} {es es' : List (Option T)}
      {ws ws₁ ws' : List (Option W)} : replace es i = none → replace ws i = some ws₁ →
      Resolves is es ws₁ es' ws' → Resolves (i :: is) es ws es' ws'

/-- The sons pass the checks of `process`: every inherited class is resolved, and what is left of
the extensions is valid. -/
def Processor.Checks : (p : Processor) → List p.Son → Prop
  | .quickAppMetaData, sons => extensionsOf sons = [] ∨ widgetsOf sons = [] ∨
      ∃ es ws, Resolves (inheritedOf sons) ((extensionsOf sons).map some)
        ((widgetsOf sons).map some) es ws ∧
        ∀ e ∈ (removeParent (some otherName) es).reduceOption,
          (ExtensionMetaData.ofEntry e).validate = .ok ()
  | .geminiMetaData, sons => ∃ es, Resolves (inheritedOf sons)
      (removeParent (some otherName) ((extensionsOf sons).map some))
      ([] : List (Option IExtensionMetaData)) es []
  | .eventTarget, _ | .dependency, _ => True

/-- An exception is the first thing thrown while the class `c` is edited: by javassist, at a
statement whose predecessors it took, or by a check that comes after the injections. -/
inductive Raises (p : Processor) (sons : List p.Son) (c : CtClass) : Prop
  | defrost {t : Throwable} : J.defrost c = .error t → t.isException → Raises p sons c
  | insert {t : Throwable} {c₀ c₁ : CtClass} {pre post : List Injection} {i : Injection} :
      J.defrost c = .ok c₀ → (p.process sons).injected = pre ++ i :: post →
      pre.foldlM J.insert c₀ = .ok c₁ → J.insert c₁ i = .error t → t.isException →
      Raises p sons c
  | check {c₀ c₁ : CtClass} : J.defrost c = .ok c₀ →
      (p.process sons).injected.foldlM J.insert c₀ = .ok c₁ → ¬ p.Checks sons → Raises p sons c
  | toBytecode {t : Throwable} {c₀ c₁ : CtClass} : J.defrost c = .ok c₀ →
      (p.process sons).injected.foldlM J.insert c₀ = .ok c₁ → p.Checks sons →
      J.toBytecode c₁ = .error t → t.isException → Raises p sons c

/-! ## The checks -/

section
variable {T W : Type} [IsMetaData T] [IsMetaData W] {is : List InheritedMetaData}
  {es es' : List (Option T)}

theorem resolveInherited_ok_iff {ws ws' : List (Option W)} :
    resolveInherited is es ws = .ok (es', ws') ↔ Resolves is es ws es' ws' := by
  constructor
  · intro h
    induction is generalizing es ws with
    | nil =>
      rw [resolveInherited, Except.ok.injEq, Prod.mk.injEq] at h
      rw [h.1, h.2]
      exact .done
    | cons i is ih =>
      rw [resolveInherited] at h
      split at h
      next es₁ he => exact .extension he (ih h)
      next he =>
        split at h
        next ws₁ hw => exact .widget he hw (ih h)
        next => cases h
  · intro h
    induction h with
    | done => rfl
    | extension he _ ih => rw [resolveInherited, he]; exact ih
    | widget he hw _ ih => rw [resolveInherited, he, hw]; exact ih

/-- There is nothing to replace in an empty list. -/
theorem Resolves.widgets_nil {ws ws' : List (Option W)} (h : Resolves is es ws es' ws')
    (hws : ws = []) : ws' = [] := by
  induction h with
  | done => exact hws
  | extension _ _ ih => exact ih hws
  | widget _ hw _ _ =>
    subst hws
    cases hw

theorem resolveWebInherited_ok_iff : resolveWebInherited is es = .ok es' ↔
    Resolves is es ([] : List (Option T)) es' [] := by
  rw [← resolveInherited_ok_iff, resolveWebInherited_eq]
  cases h : resolveInherited is es ([] : List (Option T)) with
  | error m => simp [Except.map]
  | ok r =>
    obtain ⟨es₁, ws₁⟩ := r
    have hws : ws₁ = [] := (resolveInherited_ok_iff.1 h).widgets_nil rfl
    simp [Except.map, hws]

end

theorem QuickAppMetaDataProcessor.result_ok_iff (sons : List MetaData) :
    (process sons).result = .ok () ↔ Processor.Checks .quickAppMetaData sons := by
  unfold process Processor.Checks
  by_cases he : extensionsOf sons = []
  · simp [he, Outcome.done]
  by_cases hw : widgetsOf sons = []
  · simp [he, hw, Outcome.done]
  simp only [List.isEmpty_iff, he, hw, if_false, false_or, survivors, ← resolveInherited_ok_iff]
  cases hr : resolveInherited (inheritedOf sons) ((extensionsOf sons).map some)
      ((widgetsOf sons).map some) with
  | error m => simp
  | ok r =>
    obtain ⟨es, ws⟩ := r
    simp only [inject_ok_iff, Except.ok.injEq, Prod.mk.injEq]
    constructor
    · intro h
      exact ⟨es, ws, ⟨rfl, rfl⟩, h⟩
    · rintro ⟨_, _, ⟨rfl, rfl⟩, h⟩
      exact h

theorem GeminiMetaDataProcessor.result_ok_iff (sons : List MetaData) :
    (process sons).result = .ok () ↔ Processor.Checks .geminiMetaData sons := by
  unfold process Processor.Checks survivors
  simp only [← resolveWebInherited_ok_iff]
  cases resolveWebInherited (inheritedOf sons)
      (removeParent (some otherName) ((extensionsOf sons).map some)) with
  | error m => simp
  | ok es => simp [Outcome.done]

/-- `process` throws nothing exactly when its checks pass. -/
theorem Processor.result_ok_iff {p : Processor} {sons : List p.Son} :
    (p.process sons).result = .ok () ↔ p.Checks sons := by
  cases p with
  | quickAppMetaData => exact QuickAppMetaDataProcessor.result_ok_iff sons
  | geminiMetaData => exact GeminiMetaDataProcessor.result_ok_iff sons
  | eventTarget =>
    have h : (EventTargetProcessor.process sons).result = .ok () := by
      unfold EventTargetProcessor.process
      simp only
      split <;> rfl
    exact iff_of_true h trivial
  | dependency =>
    have h : (DependencyProcessor.process sons).result = .ok () := by
      unfold DependencyProcessor.process
      simp only
      split <;> rfl
    exact iff_of_true h trivial

/-! ## The body of the `try` -/

/-- Where a run of fallible steps stops. -/
theorem foldlM_eq_error_iff {α β ε : Type} {f : β → α → Except ε β} {e : ε} :
    ∀ {l : List α} {b : β}, l.foldlM f b = .error e ↔
      ∃ pre a post b', l = pre ++ a :: post ∧ pre.foldlM f b = .ok b' ∧ f b' a = .error e := by
  intro l
  induction l with
  | nil => simp [pure, Except.pure]
  | cons x l ih =>
    intro b
    rw [List.foldlM_cons]
    constructor
    · intro h
      cases hx : f b x with
      | error e' =>
        rw [hx] at h
        exact ⟨[], x, l, b, rfl, rfl, hx.trans h⟩
      | ok b₁ =>
        rw [hx] at h
        obtain ⟨pre, a, post, b', rfl, hpre, ha⟩ := ih.1 h
        refine ⟨x :: pre, a, post, b', rfl, ?_, ha⟩
        rw [List.foldlM_cons, hx]
        exact hpre
    · rintro ⟨pre, a, post, b', hl, hpre, ha⟩
      cases pre with
      | nil =>
        obtain ⟨rfl, rfl⟩ := List.cons.inj hl
        cases hpre
        rw [ha]
        rfl
      | cons y pre =>
        obtain ⟨rfl, rfl⟩ := List.cons.inj hl
        rw [List.foldlM_cons] at hpre
        cases hx : f b x with
        | error e' => rw [hx] at hpre; cases hpre
        | ok b₁ =>
          rw [hx] at hpre
          exact ih.2 ⟨pre, a, post, b', rfl, hpre, ha⟩

variable {J} {p : Processor} {sons : List p.Son} {c : CtClass}

/-- An edit goes through when every call of javassist does and the checks pass. -/
theorem edit_eq_ok_iff {bytes : Bytes} : edit J (p.process sons) c = .ok bytes ↔
    p.Checks sons ∧ ∃ c₀ c₁, J.defrost c = .ok c₀ ∧
      (p.process sons).injected.foldlM J.insert c₀ = .ok c₁ ∧ J.toBytecode c₁ = .ok bytes := by
  rw [edit, ← Processor.result_ok_iff]
  cases hd : J.defrost c with
  | error t => simp
  | ok c₀ =>
    simp only [Outcome.runOn]
    cases hi : (p.process sons).injected.foldlM J.insert c₀ with
    | error t => simp [hi]
    | ok c₁ => cases (p.process sons).result <;> simp [hi]

/-- An edit that fails with an exception is one that raises it first. -/
theorem edit_exception_iff :
    (∃ t, edit J (p.process sons) c = .error t ∧ t.isException) ↔ Raises J p sons c := by
  constructor
  · rintro ⟨t, h, ht⟩
    rw [edit] at h
    cases hd : J.defrost c with
    | error t' =>
      rw [hd] at h
      obtain rfl := Except.error.inj h
      exact .defrost hd ht
    | ok c₀ =>
      simp only [hd, Outcome.runOn] at h
      cases hi : (p.process sons).injected.foldlM J.insert c₀ with
      | error t' =>
        rw [hi] at h
        obtain rfl := Except.error.inj h
        obtain ⟨pre, i, post, c₁, hl, hpre, herr⟩ := foldlM_eq_error_iff.1 hi
        exact .insert hd hl hpre herr ht
      | ok c₁ =>
        simp only [hi] at h
        by_cases hc : p.Checks sons
        · rw [Processor.result_ok_iff.2 hc] at h
          exact .toBytecode hd hi hc h ht
        · exact .check hd hi hc
  · intro h
    cases h with
    | defrost hd ht =>
      refine ⟨_, ?_, ht⟩
      rw [edit, hd]
    | insert hd hl hpre herr ht =>
      refine ⟨_, ?_, ht⟩
      have hi := foldlM_eq_error_iff.2 ⟨_, _, _, _, hl, hpre, herr⟩
      simp only [edit, hd, Outcome.runOn, hi]
    | check hd hi hc =>
      cases hr : (p.process sons).result with
      | ok u => exact absurd (Processor.result_ok_iff.1 hr) hc
      | error e =>
        refine ⟨.process e, ?_, rfl⟩
        simp only [edit, hd, Outcome.runOn, hi, hr]
    | toBytecode hd hi hc herr ht =>
      refine ⟨_, ?_, ht⟩
      simp only [edit, hd, Outcome.runOn, hi, Processor.result_ok_iff.2 hc, herr]

/-! ## What is handed back -/

/-- Nothing is caught: the bytes are those of the whole edit, or an `Error` is on its way. -/
theorem injectCode_whole {inputStream : Bytes}
    (h : ∀ c, J.makeClass inputStream = .ok c → ¬ Raises J p sons c) :
    AllOrNothing J p sons inputStream (injectCode J p sons inputStream) := by
  rw [injectCode]
  cases hm : J.makeClass inputStream with
  | error t => exact trivial
  | ok c =>
    have hno := h c hm
    rw [← edit_exception_iff] at hno
    cases hedit : edit J (p.process sons) c with
    | ok bytes =>
      obtain ⟨hc, c₀, c₁, hd, hi, hb⟩ := edit_eq_ok_iff.1 hedit
      simp only [hedit]
      exact Or.inr ⟨Processor.result_ok_iff.2 hc, c, c₀, c₁, hm, hd, hi, hb⟩
    | error t =>
      have ht : t.isException = false := by
        rw [← Bool.not_eq_true]
        intro ht
        exact hno ⟨t, hedit, ht⟩
      simp only [hedit, ht]
      exact trivial

/-- The `catch`. -/
theorem injectCode_of_raises {inputStream : Bytes} (hm : J.makeClass inputStream = .ok c)
    (h : Raises J p sons c) : injectCode J p sons inputStream = .ok [] := by
  obtain ⟨t, hedit, ht⟩ := edit_exception_iff.2 h
  simp only [injectCode, hm, hedit, ht, if_true]

/-- The class that raises is not one with every injection. -/
theorem Raises.not_injected {inputStream bytes : Bytes} (hm : J.makeClass inputStream = .ok c)
    (h : Raises J p sons c) : ¬ Injected J p sons inputStream bytes := by
  rintro ⟨hr, c', c₀, c₁, hm', hd, hi, hb⟩
  obtain rfl := Except.ok.inj (hm.symm.trans hm')
  obtain ⟨t, hedit, -⟩ := edit_exception_iff.2 h
  rw [edit_eq_ok_iff.2 ⟨Processor.result_ok_iff.1 hr, c₀, c₁, hd, hi, hb⟩] at hedit
  cases hedit

/-- **The lambda hands back a whole class exactly when no exception comes first.** An exception is
caught, unlike an `Error`, and an empty class is returned for it. -/
theorem injectCode_allOrNothing_iff (J : Javassist CtClass) (p : Processor) (sons : List p.Son)
    (inputStream : Bytes) : AllOrNothing J p sons inputStream (injectCode J p sons inputStream) ↔
      ∀ c, J.makeClass inputStream = .ok c → ¬ Raises J p sons c := by
  refine ⟨?_, injectCode_whole⟩
  intro h c hm hraises
  rw [injectCode_of_raises hm hraises] at h
  rcases h with hin | hall
  · exact J.makeClass_nil c (hin ▸ hm)
  · exact hraises.not_injected hm hall

/-- A javassist that is only asked to open the class. -/
def opening : Javassist Bytes where
  makeClass inputStream := if inputStream = [] then .error (.exception "EOFException") else .ok inputStream
  defrost c := .ok c
  insert c _ := .ok c
  toBytecode c := .ok c
  makeClass_nil c := by simp

/-- **An unresolved inherited class** empties the data set, although nothing was injected yet. -/
theorem empty_class_handed_back : ¬ ∀ (CtClass : Type) (J : Javassist CtClass) (p : Processor)
    (sons : List p.Son) (inputStream : Bytes),
    AllOrNothing J p sons inputStream (injectCode J p sons inputStream) := by
  intro h
  have hwhole := h Bytes opening .quickAppMetaData
    [.extension ⟨.module, "system.camera", "Camera", [], []⟩,
      .widget ⟨"list", "ListWidget", [], false, [], []⟩, .inherited ⟨"Orphan", []⟩]
    [0xCA, 0xFE, 0xBA, 0xBE]
  rcases hwhole with hin | ⟨hr, -⟩
  · cases hin
  · cases hr

/-! ## A whole scan -/

/-- Whatever a scan writes is what the lambda returned for one of its processors. -/
theorem onScanEnd_written : ∀ {scans : List Scanned} {w : Processor × Bytes},
    w ∈ (onScanEnd J scans).1 → ∃ s ∈ scans, ∃ inputStream sons,
      s.modifiedClassInfo = some inputStream ∧ addSons s.allAnnotatedName = .ok sons ∧
      s.processor = w.1 ∧ injectCode J s.processor sons inputStream = .ok w.2 := by
  intro scans w hw
  induction scans with
  | nil => cases hw
  | cons s rest ih =>
    rw [onScanEnd] at hw
    by_cases hrest : w ∈ (onScanEnd J rest).1
    · obtain ⟨s', hs', hw'⟩ := ih hrest
      exact ⟨s', List.mem_cons_of_mem s hs', hw'⟩
    · -- then it is what the turn of `s` wrote
      split at hw
      next => exact absurd hw hrest
      next inputStream hin =>
        split at hw
        next => exact absurd hw hrest
        next =>
          split at hw
          next => cases hw
          next sons hsons =>
            split at hw
            next => cases hw
            next bytes hbytes =>
              obtain rfl := (List.mem_cons.1 hw).resolve_right hrest
              exact ⟨s, List.mem_cons_self, inputStream, sons, hin, hsons, rfl, hbytes⟩

/-- A scan in which no exception comes first leaves no broken class behind, however it ends. -/
theorem onScanEnd_whole {scans : List Scanned}
    (h : ∀ s ∈ scans, ∀ inputStream sons, s.modifiedClassInfo = some inputStream →
      addSons s.allAnnotatedName = .ok sons →
      ∀ c, J.makeClass inputStream = .ok c → ¬ Raises J s.processor sons c) :
    ∀ w ∈ (onScanEnd J scans).1, ∃ sons inputStream,
      AllOrNothing J w.1 sons inputStream (.ok w.2) := by
  rintro ⟨p, bytes⟩ hw
  obtain ⟨s, hs, inputStream, sons, hin, hsons, rfl, hbytes⟩ := onScanEnd_written hw
  have hwhole := injectCode_whole (h s hs inputStream sons hin hsons)
  rw [hbytes] at hwhole
  exact ⟨sons, inputStream, hwhole⟩

end HybridStack.Pisces
