import HybridStack.Pisces.Keys

/-!
# Reading the generated source back

The templates splice values between quotes as they are (`"\"${it}\""`); only the JSON literals go
through `escapeJava`. So the text denotes what it was made from as long as no value has a quote, a
backslash or a line terminator; an event name stands in a local variable as well, and the class of
a widget in a class literal, where they have to be identifiers.

- `fixed_*`: the text of the templates themselves joins no token of a value.
- **`source_reads_back_iff`**: for each template, which values exactly are read back.
- `source_not_read_back`: a quote in a name.
-/

namespace HybridStack.Pisces

open JavaSource

variable {U : UnicodeIdent}

/-! ## The templates' own text -/

theorem fixed_code {s : String} {ts : List Tok} (h : Chunk U s ts) : (Piece.code s).Fixed U := ⟨ts, h⟩

theorem fixed_str (s : String) : (Piece.str s).Fixed U := trivial

theorem fixed_word (w : String) (d : Delim) : (Piece.word w d).Fixed U := trivial

theorem fixed_joined (l : List String) : Template.Fixed U (joined l) := by
  cases l with
  | nil => exact Template.fixed_nil
  | cons s l =>
    refine Template.Fixed.cons (fixed_str s) (Template.Fixed.flatMap fun x _ => ?_)
    exact .cons (fixed_code chunk_commaTight) (.cons (fixed_str x) Template.fixed_nil)

theorem fixed_arrayOrNull_comma (l : List String) : Template.Fixed U (arrayOrNull l ",") := by
  unfold arrayOrNull
  split_ifs
  · exact .cons (fixed_code chunk_nullComma) Template.fixed_nil
  · exact .cons (fixed_code chunk_array)
      ((fixed_joined l).append (.cons (fixed_code chunk_endComma) Template.fixed_nil))

theorem fixed_arrayOrNull_close (l : List String) : Template.Fixed U (arrayOrNull l ");\n") := by
  unfold arrayOrNull
  split_ifs
  · exact .cons (fixed_code chunk_nullClose) Template.fixed_nil
  · exact .cons (fixed_code chunk_array)
      ((fixed_joined l).append (.cons (fixed_code chunk_endClose) Template.fixed_nil))

theorem fixed_addMethodSource (m : Method) : Template.Fixed U (addMethodSource m) := by
  refine .append (.append ?_ (fixed_arrayOrNull_comma _)) (fixed_arrayOrNull_close _)
  simp only [Template.Fixed, List.forall_mem_cons]
  exact ⟨fixed_code chunk_addMethod, fixed_str _, fixed_code chunk_comma,
    fixed_code (chunk_bool _), fixed_code chunk_enum_Mode, fixed_code (chunk_mode _),
    fixed_code chunk_enum_Type, fixed_code (chunk_type _), fixed_code chunk_enum_Access,
    fixed_code (chunk_access _), fixed_code chunk_enum_Normalize, fixed_code (chunk_normalize _),
    fixed_code chunk_enum_Multiple, fixed_code (chunk_multiple _), fixed_str _,
    fixed_code chunk_comma, Template.fixed_nil⟩

theorem fixed_extensionSource (a : List IExtensionMetaData) :
    Template.Fixed U (extensionSource a) := by
  refine .cons (fixed_code chunk_declareExtension) (Template.Fixed.flatMap fun e _ => ?_)
  refine .append (.append ?_ (Template.Fixed.flatMap fun m _ => fixed_addMethodSource m)) ?_
  · simp only [Template.Fixed, List.forall_mem_cons]
    exact ⟨fixed_code chunk_newExtension, fixed_str _, fixed_code chunk_comma, fixed_str _,
      fixed_code chunk_closeLine, Template.fixed_nil⟩
  · simp only [Template.Fixed, List.forall_mem_cons]
    exact ⟨fixed_code chunk_validate, fixed_code chunk_put, fixed_str _,
      fixed_code chunk_extensionClose, Template.fixed_nil⟩

theorem fixed_classLiteral (classname : String) : Template.Fixed U (classLiteral classname) := by
  intro p hp
  obtain ⟨w, -, rfl⟩ := List.mem_map.1 hp
  exact fixed_word w dot

theorem fixed_widgetSource (a : List WidgetMetaData) : Template.Fixed U (widgetSource a) := by
  refine .cons (fixed_code chunk_declareWidget) (Template.Fixed.flatMap fun w _ => ?_)
  refine .append (.append (.append (.append (.append ?_ (fixed_classLiteral _)) ?_) ?_) ?_) ?_
  · simp only [Template.Fixed, List.forall_mem_cons]
    exact ⟨fixed_code chunk_newWidget, fixed_str _, fixed_code chunk_comma, Template.fixed_nil⟩
  · exact .cons (fixed_code chunk_classClose) Template.fixed_nil
  · refine Template.Fixed.flatMap fun type _ => ?_
    simp only [Template.Fixed, List.forall_mem_cons]
    exact ⟨fixed_code chunk_addType, fixed_str _, fixed_code chunk_comma, fixed_str _,
      fixed_code chunk_closeLine, Template.fixed_nil⟩
  · refine Template.Fixed.flatMap fun method _ => ?_
    simp only [Template.Fixed, List.forall_mem_cons]
    exact ⟨fixed_code chunk_widgetAddMethod, fixed_str _, fixed_code chunk_closeLine, Template.fixed_nil⟩
  · exact .cons (fixed_code chunk_addWidget) Template.fixed_nil

theorem fixed_eventTargetSource (event : String) (et : EventTargetMetaData) :
    Template.Fixed U (eventTargetSource event et) := by
  refine .append (.append ?_ (fixed_joined _)) ?_
  · simp only [Template.Fixed, List.forall_mem_cons]
    exact ⟨fixed_code chunk_eventClass, fixed_word _ _, fixed_code chunk_newEvent,
      fixed_code chunk_arrayTight, Template.fixed_nil⟩
  · simp only [Template.Fixed, List.forall_mem_cons]
    exact ⟨fixed_code chunk_endCommaTight, fixed_str _, fixed_code chunk_close,
      fixed_code chunk_eventPut, fixed_str _, fixed_code chunk_comma, fixed_word _ _,
      fixed_code chunk_semicolon, Template.fixed_nil⟩

theorem fixed_dependencySource (deps : List DependencyMetaData) :
    Template.Fixed U (dependencySource deps) := by
  refine .cons (fixed_code chunk_declareDependency) (Template.Fixed.flatMap fun d _ => ?_)
  simp only [Template.Fixed, dependencyEntrySource, List.forall_mem_cons]
  exact ⟨fixed_code chunk_newDependency, fixed_str _, fixed_code chunk_close, fixed_code chunk_put,
    fixed_str _, fixed_code chunk_dependencyClose, Template.fixed_nil⟩

/-! ## The values -/

/-- The strings of a method that stand between quotes. -/
def Method.strings (m : Method) : List String :=
  m.name :: m.aliasName :: (m.permissions ++ m.subAttrs)

def IExtensionMetaData.strings (e : IExtensionMetaData) : List String :=
  e.name :: e.classname :: e.methods.flatMap Method.strings

def WidgetMetaData.strings (w : WidgetMetaData) : List String :=
  w.name :: (w.types.map WidgetType.name ++ w.methods)

/-- Fit to stand between quotes. -/
def Quotable (s : String) : Prop := Plain s.toList

instance : DecidablePred Quotable := fun s => inferInstanceAs (Decidable (Plain s.toList))

section
variable {t₁ t₂ : Template} {p : Piece}

@[simp] theorem safe_nil : Template.Safe U [] ↔ True := by simp [Template.Safe]

@[simp] theorem safe_cons : Template.Safe U (p :: t₁) ↔ p.Safe U ∧ Template.Safe U t₁ :=
  List.forall_mem_cons

@[simp] theorem safe_append :
    Template.Safe U (t₁ ++ t₂) ↔ Template.Safe U t₁ ∧ Template.Safe U t₂ :=
  List.forall_mem_append

@[simp] theorem safe_flatMap {α : Type} {l : List α} {f : α → Template} :
    Template.Safe U (l.flatMap f) ↔ ∀ a ∈ l, Template.Safe U (f a) := by
  simp only [Template.Safe, List.mem_flatMap]
  constructor
  · intro h a ha p hp
    exact h p ⟨a, ha, hp⟩
  · rintro h p ⟨a, ha, hp⟩
    exact h a ha p hp

@[simp] theorem safe_code (s : String) : (Piece.code s).Safe U ↔ True := Iff.rfl

@[simp] theorem safe_str (s : String) : (Piece.str s).Safe U ↔ Quotable s := Iff.rfl

@[simp] theorem safe_word (w : String) (d : Delim) :
    (Piece.word w d).Safe U ↔ Identifier U w.toList := Iff.rfl

end

theorem safe_joined (l : List String) : Template.Safe U (joined l) ↔ ∀ s ∈ l, Quotable s := by
  cases l with
  | nil => simp [joined]
  | cons s l => simp [joined]

theorem safe_arrayOrNull (l : List String) (rest : String) :
    Template.Safe U (arrayOrNull l rest) ↔ ∀ s ∈ l, Quotable s := by
  unfold arrayOrNull
  split_ifs with h
  · simp [List.isEmpty_iff.1 h]
  · simp [safe_joined]

theorem safe_addMethodSource (m : Method) :
    Template.Safe U (addMethodSource m) ↔ ∀ s ∈ m.strings, Quotable s := by
  simp [addMethodSource, safe_arrayOrNull, Method.strings, or_imp, forall_and]

theorem safe_extensionSource (a : List IExtensionMetaData) :
    Template.Safe U (extensionSource a) ↔ ∀ e ∈ a, ∀ s ∈ e.strings, Quotable s := by
  simp only [extensionSource, safe_cons, safe_code, true_and, safe_flatMap]
  refine forall₂_congr fun e _ => ?_
  have hm : (∀ m ∈ e.methods, Template.Safe U (addMethodSource m)) ↔
      ∀ s ∈ e.methods.flatMap Method.strings, Quotable s := by
    simp only [safe_addMethodSource, List.mem_flatMap]
    constructor
    · rintro h s ⟨m, hm, hs⟩
      exact h m hm s hs
    · intro h m hm s hs
      exact h s ⟨m, hm, hs⟩
  simp only [extensionEntrySource, safe_append, safe_cons, safe_code, safe_str, safe_nil, true_and,
    and_true, safe_flatMap, hm, IExtensionMetaData.strings, List.forall_mem_cons]
  constructor
  · rintro ⟨⟨⟨hn, hc⟩, hs⟩, -⟩
    exact ⟨hn, hc, hs⟩
  · rintro ⟨hn, hc, hs⟩
    exact ⟨⟨⟨hn, hc⟩, hs⟩, hn⟩

theorem quotable_toString_bool (b : Bool) : Quotable (toString b) := by cases b <;> decide

theorem safe_widgetSource (a : List WidgetMetaData) : Template.Safe U (widgetSource a) ↔
    ∀ w ∈ a, (∀ s ∈ w.strings, Quotable s) ∧
      ∀ seg ∈ segments w.classname, Identifier U seg.toList := by
  simp only [widgetSource, safe_cons, safe_code, true_and, safe_flatMap]
  refine forall₂_congr fun w _ => ?_
  have hc : Template.Safe U (classLiteral w.classname) ↔
      ∀ seg ∈ segments w.classname, Identifier U seg.toList := by
    simp only [Template.Safe, classLiteral, List.mem_map, forall_exists_index, and_imp,
      forall_apply_eq_imp_iff₂, safe_word]
  simp only [widgetEntrySource, safe_append, safe_cons, safe_code, safe_str, safe_nil, true_and,
    and_true, safe_flatMap, hc, quotable_toString_bool, WidgetMetaData.strings,
    List.forall_mem_cons, List.forall_mem_append, List.forall_mem_map]
  constructor
  · rintro ⟨⟨⟨hn, hi⟩, ht⟩, hm⟩
    exact ⟨⟨hn, ht, hm⟩, hi⟩
  · rintro ⟨⟨hn, ht, hm⟩, hi⟩
    exact ⟨⟨⟨hn, hi⟩, ht⟩, hm⟩

/-- The prefix `eventTarget_` makes an identifier of whatever may stand inside one. -/
theorem identifier_eventTarget_iff (event : String) :
    Identifier U ("eventTarget_" ++ event).toList ↔ ∀ c ∈ event.toList, identPart U c = true := by
  have htoList : ("eventTarget_" ++ event).toList =
      'e' :: ("ventTarget_".toList ++ event.toList) := by
    simp
  have hprefix : ∀ c ∈ "ventTarget_".toList, identPart U c = true := by
    simp only [String.reduceToList, List.forall_mem_cons]
    exact ⟨rfl, rfl, rfl, rfl, rfl, rfl, rfl, rfl, rfl, rfl, rfl, List.forall_mem_nil _⟩
  have hkey : 'e' :: ("ventTarget_".toList ++ event.toList) ∉ keywords := by
    simp [keywords]
  rw [htoList, Identifier]
  simp only [List.head?_cons, Option.mem_def, Option.some.injEq, List.tail_cons, hkey,
    not_false_eq_true, and_true, List.forall_mem_append]
  exact ⟨fun h => h.2.2, fun h => ⟨⟨'e', rfl, rfl⟩, hprefix, h⟩⟩

/-- What may stand inside an identifier needs no escape. -/
theorem quotable_of_identPart {s : String} (h : ∀ c ∈ s.toList, identPart U c = true) :
    Quotable s := by
  intro c hc
  have hnon : ∀ x ∈ nonIdent, c ≠ x := fun x hx hcx => by
    have hpart := h c hc
    rw [hcx, (ident_nonIdent U x hx).2] at hpart
    exact Bool.false_ne_true hpart
  refine ⟨hnon '"' (by decide), hnon '\\' (by decide), ?_⟩
  simp [isNewline, hnon '\n' (by decide), hnon '\r' (by decide)]

theorem safe_eventTargetSource (event : String) (et : EventTargetMetaData) :
    Template.Safe U (eventTargetSource event et) ↔
      (∀ c ∈ event.toList, identPart U c = true) ∧ (∀ e ∈ et.eventNames, Quotable e) ∧
        Quotable et.classname := by
  simp only [eventTargetSource, safe_append, safe_cons, safe_code, safe_str, safe_word, safe_nil,
    true_and, and_true, safe_joined, identifier_eventTarget_iff]
  constructor
  · rintro ⟨⟨he, hn⟩, hc, -⟩
    exact ⟨he, hn, hc⟩
  · rintro ⟨he, hn, hc⟩
    exact ⟨⟨he, hn⟩, hc, quotable_of_identPart he, he⟩

/-- All sources of a list of targets: every name is the event of one of them. -/
theorem safe_sources (ets : List EventTargetMetaData) :
    (∀ et ∈ ets, ∀ event ∈ et.eventNames, Template.Safe U (eventTargetSource event et)) ↔
      ∀ et ∈ ets, ∀ event ∈ et.eventNames,
        (∀ c ∈ event.toList, identPart U c = true) ∧ Quotable et.classname := by
  refine forall₂_congr fun et _ => ?_
  simp only [safe_eventTargetSource]
  exact ⟨fun h event hev => ⟨(h event hev).1, (h event hev).2.2⟩,
    fun h event hev => ⟨(h event hev).1, fun e he => quotable_of_identPart (h e he).1,
      (h event hev).2⟩⟩

theorem safe_dependencySource (deps : List DependencyMetaData) :
    Template.Safe U (dependencySource deps) ↔
      ∀ d ∈ deps, Quotable d.classname ∧ Quotable d.key := by
  simp [dependencySource, dependencyEntrySource]

/-! ## Reading back -/

theorem read_extensionSource_iff (a : List IExtensionMetaData) :
    read U (extensionSource a).source = some (extensionStmts a) ↔
      ∀ e ∈ a, ∀ s ∈ e.strings, Quotable s := by
  rw [Template.read_source_iff U (fixed_extensionSource a) (extensionSource_stmts a),
    safe_extensionSource]

/-- **Which metadata the generated source denotes.** A value between quotes must need no escape,
the class of a widget must be a dotted name, and an event name must be able to go on an
identifier. -/
theorem source_reads_back_iff (U : UnicodeIdent) :
    (∀ a : List IExtensionMetaData, read U (extensionSource a).source = some (extensionStmts a) ↔
      ∀ e ∈ a, ∀ s ∈ e.strings, Quotable s) ∧
    (∀ a : List WidgetMetaData, read U (widgetSource a).source = some (widgetStmts a) ↔
      ∀ w ∈ a, (∀ s ∈ w.strings, Quotable s) ∧
        ∀ seg ∈ segments w.classname, Identifier U seg.toList) ∧
    (∀ ets : List EventTargetMetaData,
      (∀ event targets, (event, targets) ∈ (EventTargetProcessor.allEventTargetMap ets).entries →
        ∀ et ∈ targets,
          read U (eventTargetSource event et).source = some (eventTargetStmts event et)) ↔
      ∀ et ∈ ets, ∀ event ∈ et.eventNames,
        (∀ c ∈ event.toList, identPart U c = true) ∧ Quotable et.classname) ∧
    (∀ deps : List DependencyMetaData,
      read U (dependencySource deps).source = some (dependencyStmts deps) ↔
      ∀ d ∈ deps, Quotable d.classname ∧ Quotable d.key) := by
  refine ⟨read_extensionSource_iff, fun a => ?_, fun ets => ?_, fun deps => ?_⟩
  · rw [Template.read_source_iff U (fixed_widgetSource a) (widgetSource_stmts a),
      safe_widgetSource]
  · rw [← safe_sources]
    simp only [Template.read_source_iff U (fixed_eventTargetSource _ _)
      (eventTargetSource_stmts _ _)]
    constructor
    · intro h et het event hev
      obtain ⟨targets, hentry, hmem⟩ :=
        EventTargetProcessor.mem_allEventTargetMap.2 ⟨het, hev⟩
      exact h event targets hentry et hmem
    · intro h event targets hentry et hmem
      obtain ⟨het, hev⟩ := EventTargetProcessor.mem_allEventTargetMap.1 ⟨targets, hentry, hmem⟩
      exact h et het event hev
  · rw [Template.read_source_iff U (fixed_dependencySource deps) (dependencySource_stmts deps),
      safe_dependencySource]

/-- **A quote in a name** ends its literal early. -/
theorem source_not_read_back : ¬ ∀ (U : UnicodeIdent) (a : List IExtensionMetaData),
    read U (extensionSource a).source = some (extensionStmts a) := by
  intro h
  have hread := h ⟨fun _ => false, fun _ => false⟩ [⟨.module, "a\"b", "A", [], []⟩]
  rw [read_extensionSource_iff] at hread
  exact absurd hread (by decide)

end HybridStack.Pisces
