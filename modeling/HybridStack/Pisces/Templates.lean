import HybridStack.Lib.JavaTemplate
import HybridStack.Pisces.MetaData

/-!
# The generated statements

The source text the processors hand to `insertAfter`, as templates.

| here | there |
| --- | --- |
| `extensionSource`, `widgetSource` | the two branches of `injectMetaData` (Utils.kt:139-182) |
| `eventTargetSource` | EventTargetProcessor.kt:38-47 |
| `dependencySource` | DependencyProcessor.kt:20-26 |
| `residentSource` | `"$1.add(\"${…}\");"` (QuickAppMetaDataProcessor.kt:192-195, 213) |

Each is followed by the statements it stands for (`extensionStmts`, …). `appendln` ends a line with
the line separator of the machine, a `\n` here.
-/

namespace HybridStack.Pisces

open JavaSource

/-! ## Templates -/

/-- `"{${l.joinToString(",") { "\"$it\"" }}}"` without its braces. -/
def joined : List String → Template
  | [] => []
  | s :: l => .str s :: l.flatMap fun s => [.code ",", .str s]

/-- `if (l.isEmpty()) "null" else "new String[] {…}"`, and what follows it. -/
def arrayOrNull (l : List String) (rest : String) : Template :=
  if l.isEmpty then [.code ("null" ++ rest)]
  else .code "new String[] \x7b" :: (joined l ++ [.code ("\x7d" ++ rest)])

/-- `extension.addMethod(…);` -/
def addMethodSource (method : Method) : Template :=
  [.code "extension.addMethod(", .str method.name, .code ", ",
    .code (toString method.isInstanceMethod ++ ", "),
    .code "com.spacecraft.hybrid.annotation.Extension.Mode.", .code (method.mode.name ++ ", "),
    .code "com.spacecraft.hybrid.annotation.Extension.Type.", .code (method.type.name ++ ", "),
    .code "com.spacecraft.hybrid.annotation.Extension.Access.", .code (method.access.name ++ ", "),
    .code "com.spacecraft.hybrid.annotation.Extension.Normalize.",
    .code (method.normalize.name ++ ", "),
    .code "com.spacecraft.hybrid.annotation.Extension.Multiple.",
    .code (method.multiple.name ++ ", "), .str method.aliasName, .code ", "] ++
  arrayOrNull method.permissions "," ++ arrayOrNull method.subAttrs ");\n"

def extensionEntrySource (extension : IExtensionMetaData) : Template :=
  [.code "extension = new com.spacecraft.hybrid.ExtensionMetaData(", .str extension.name,
    .code ", ", .str extension.classname, .code ");\n"] ++
  extension.methods.flatMap addMethodSource ++
  [.code "extension.validate();\n", .code "$1.put(", .str extension.name,
    .code ", extension);\n"]

def extensionSource (a : List IExtensionMetaData) : Template :=
  .code "com.spacecraft.hybrid.ExtensionMetaData extension;\n" :: a.flatMap extensionEntrySource

def dot : Delim := ⟨'.', Or.inr (by decide)⟩
def blank : Delim := ⟨' ', Or.inl (by decide)⟩
def closing : Delim := ⟨')', Or.inr (by decide)⟩

/-- The identifiers of a class name. -/
def segments (classname : String) : List String :=
  (classname.toList.splitOn '.').map String.ofList

/-- `${classname}.class` -/
def classLiteral (classname : String) : Template :=
  (segments classname).map (Piece.word · dot)

theorem flatMap_splitOn (a : Char) (l : List Char) :
    ((l.splitOn a).flatMap fun seg => seg ++ [a]) = l ++ [a] := by
  have hjoin : ∀ xs : List (List Char), xs ≠ [] →
      (xs.flatMap fun seg => seg ++ [a]) = [a].intercalate xs ++ [a] := by
    intro xs hxs
    induction xs with
    | nil => exact absurd rfl hxs
    | cons x xs ih =>
      cases xs with
      | nil => simp [List.intercalate]
      | cons y ys =>
        rw [List.flatMap_cons, ih (by simp)]
        simp [List.intercalate, List.intersperse]
  rw [hjoin _ (List.splitOn_ne_nil a l), List.intercalate_splitOn]

/-- The pieces make up the class name as it is, and the dot behind it. -/
theorem classLiteral_text (classname : String) :
    (classLiteral classname).flatMap Piece.text = classname.toList ++ ['.'] := by
  rw [← flatMap_splitOn '.' classname.toList]
  simp [classLiteral, segments, List.flatMap_map, Piece.text, dot]

def widgetEntrySource (widget : WidgetMetaData) : Template :=
  [.code "widget = new com.spacecraft.hybrid.Widget(", .str widget.name, .code ", "] ++
  classLiteral widget.classname ++ [.code "class);\n"] ++
  (widget.types.flatMap fun type =>
    [.code "widget.addType(", .str type.name, .code ", ", .str (toString type.isDefault),
      .code ");\n"]) ++
  (widget.methods.flatMap fun method => [.code "widget.addMethod(", .str method, .code ");\n"]) ++
  [.code "$1.add(widget);\n"]

def widgetSource (a : List WidgetMetaData) : Template :=
  .code "com.spacecraft.hybrid.Widget widget;\n" :: a.flatMap widgetEntrySource

def eventTargetSource (event : String) (et : EventTargetMetaData) : Template :=
  [.code "com.spacecraft.hybrid.event.EventTargetMetaData ", .word ("eventTarget_" ++ event) blank,
    .code "= new com.spacecraft.hybrid.event.EventTargetMetaData(", .code "new String[]\x7b"] ++
  joined et.eventNames ++
  [.code "\x7d,", .str et.classname, .code ");",
    .code "com.spacecraft.hybrid.event.EventTargetDataSetImpl.put(", .str event, .code ", ",
    .word ("eventTarget_" ++ event) closing, .code ";"]

def dependencyEntrySource (d : DependencyMetaData) : Template :=
  [.code "dependency = new com.spacecraft.hybrid.DependencyManager.Dependency(", .str d.classname,
    .code ");", .code "$1.put(", .str d.key, .code ",dependency);"]

def dependencySource (deps : List DependencyMetaData) : Template :=
  .code "com.spacecraft.hybrid.DependencyManager.Dependency dependency;" ::
    deps.flatMap dependencyEntrySource

/-- `$1.add("…");` for every string. -/
def residentSource (names : List String) : Template :=
  names.flatMap fun name => [.code "$1.add(", .str name, .code ");"]

/-! ## What they stand for -/

def hybrid (path : List String) : QName := ⟨"com", "spacecraft" :: "hybrid" :: path⟩

/-- A constant of a nested enum of `com.spacecraft.hybrid.annotation.Extension`. -/
def extensionConstant (enum name : String) : Arg :=
  .name (hybrid ["annotation", "Extension", enum, name])

def stringsOrNull (l : List String) : Arg := if l.isEmpty then .null else .strings l

def addMethodStmt (method : Method) : Stmt :=
  .call ⟨"extension", ["addMethod"]⟩
    [.str method.name, .bool method.isInstanceMethod, extensionConstant "Mode" method.mode.name,
      extensionConstant "Type" method.type.name, extensionConstant "Access" method.access.name,
      extensionConstant "Normalize" method.normalize.name,
      extensionConstant "Multiple" method.multiple.name, .str method.aliasName,
      stringsOrNull method.permissions, stringsOrNull method.subAttrs]

def extensionEntryStmts (extension : IExtensionMetaData) : List Stmt :=
  .assign "extension" (hybrid ["ExtensionMetaData"])
      [.str extension.name, .str extension.classname] ::
    extension.methods.map addMethodStmt ++
    [.call ⟨"extension", ["validate"]⟩ [],
      .call ⟨"$1", ["put"]⟩ [.str extension.name, .name ⟨"extension", []⟩]]

def extensionStmts (a : List IExtensionMetaData) : List Stmt :=
  .declare (hybrid ["ExtensionMetaData"]) "extension" :: a.flatMap extensionEntryStmts

/-- A dotted name from its segments. -/
def qname : List String → QName
  | [] => ⟨"", []⟩
  | w :: ws => ⟨w, ws⟩

def widgetEntryStmts (widget : WidgetMetaData) : List Stmt :=
  .assign "widget" (hybrid ["Widget"])
      [.str widget.name, .classOf (qname (segments widget.classname))] ::
    (widget.types.map fun type =>
      .call ⟨"widget", ["addType"]⟩ [.str type.name, .str (toString type.isDefault)]) ++
    (widget.methods.map fun method => .call ⟨"widget", ["addMethod"]⟩ [.str method]) ++
    [.call ⟨"$1", ["add"]⟩ [.name ⟨"widget", []⟩]]

def widgetStmts (a : List WidgetMetaData) : List Stmt :=
  .declare (hybrid ["Widget"]) "widget" :: a.flatMap widgetEntryStmts

def eventTargetStmts (event : String) (et : EventTargetMetaData) : List Stmt :=
  [.init (hybrid ["event", "EventTargetMetaData"]) ("eventTarget_" ++ event)
      (hybrid ["event", "EventTargetMetaData"]) [.strings et.eventNames, .str et.classname],
    .call (hybrid ["event", "EventTargetDataSetImpl", "put"])
      [.str event, .name ⟨"eventTarget_" ++ event, []⟩]]

def dependencyEntryStmts (d : DependencyMetaData) : List Stmt :=
  [.assign "dependency" (hybrid ["DependencyManager", "Dependency"]) [.str d.classname],
    .call ⟨"$1", ["put"]⟩ [.str d.key, .name ⟨"dependency", []⟩]]

def dependencyStmts (deps : List DependencyMetaData) : List Stmt :=
  .declare (hybrid ["DependencyManager", "Dependency"]) "dependency" ::
    deps.flatMap dependencyEntryStmts

def residentStmts (names : List String) : List Stmt :=
  names.map fun name => .call ⟨"$1", ["add"]⟩ [.str name]

/-! ## Fixed text -/

section
variable {U : UnicodeIdent}

set_option maxRecDepth 8000

theorem chunk_comma : Chunk U ", " [.sym ','] := ⟨by decide, by rfl⟩

theorem chunk_commaTight : Chunk U "," [.sym ','] := ⟨by decide, by rfl⟩

theorem chunk_close : Chunk U ");" [.sym ')', .sym ';'] := ⟨by decide, by rfl⟩

theorem chunk_closeLine : Chunk U ");\n" [.sym ')', .sym ';'] := ⟨by decide, by rfl⟩

theorem chunk_put : Chunk U "$1.put(" ((⟨"$1", ["put"]⟩ : QName).toks ++ [.sym '(']) :=
  ⟨by decide, by rfl⟩

/-- `null` and `new String[] {…}` in front of the comma or at the end of the call. -/
theorem chunk_nullComma : Chunk U ("null" ++ ",") [.keyword "null", .sym ','] :=
  ⟨by decide, by rfl⟩

theorem chunk_nullClose : Chunk U ("null" ++ ");\n") [.keyword "null", .sym ')', .sym ';'] :=
  ⟨by decide, by rfl⟩

theorem chunk_array : Chunk U "new String[] \x7b"
    [.keyword "new", .ident "String", .sym '[', .sym ']', .sym '\x7b'] := ⟨by decide, by rfl⟩

theorem chunk_endComma : Chunk U ("\x7d" ++ ",") [.sym '\x7d', .sym ','] := ⟨by decide, by rfl⟩

theorem chunk_endClose : Chunk U ("\x7d" ++ ");\n") [.sym '\x7d', .sym ')', .sym ';'] :=
  ⟨by decide, by rfl⟩

theorem chunk_declareExtension : Chunk U "com.spacecraft.hybrid.ExtensionMetaData extension;\n"
    ((hybrid ["ExtensionMetaData"]).toks ++ [.ident "extension", .sym ';']) :=
  ⟨by decide, by rfl⟩

theorem chunk_newExtension : Chunk U "extension = new com.spacecraft.hybrid.ExtensionMetaData("
    ([.ident "extension", .sym '=', .keyword "new"] ++ (hybrid ["ExtensionMetaData"]).toks ++
      [.sym '(']) :=
  ⟨by decide, by rfl⟩

theorem chunk_addMethod : Chunk U "extension.addMethod("
    ((⟨"extension", ["addMethod"]⟩ : QName).toks ++ [.sym '(']) := ⟨by decide, by rfl⟩

theorem chunk_validate : Chunk U "extension.validate();\n"
    ((⟨"extension", ["validate"]⟩ : QName).toks ++ [.sym '(', .sym ')', .sym ';']) :=
  ⟨by decide, by rfl⟩

theorem chunk_extensionClose : Chunk U ", extension);\n"
    [.sym ',', .ident "extension", .sym ')', .sym ';'] := ⟨by decide, by rfl⟩

theorem chunk_bool (b : Bool) : Chunk U (toString b ++ ", ")
    [.keyword (if b then "true" else "false"), .sym ','] := by
  cases b <;> exact ⟨by decide, by rfl⟩

/-- The tokens up to the constant of a nested enum. -/
def enumToks (enum : String) : List Tok :=
  (hybrid ["annotation", "Extension", enum]).toks ++ [.sym '.']

theorem chunk_enum_Mode : Chunk U "com.spacecraft.hybrid.annotation.Extension.Mode."
    (enumToks "Mode") := ⟨by decide, by rfl⟩

theorem chunk_enum_Type : Chunk U "com.spacecraft.hybrid.annotation.Extension.Type."
    (enumToks "Type") := ⟨by decide, by rfl⟩

theorem chunk_enum_Access : Chunk U "com.spacecraft.hybrid.annotation.Extension.Access."
    (enumToks "Access") := ⟨by decide, by rfl⟩

theorem chunk_enum_Normalize : Chunk U "com.spacecraft.hybrid.annotation.Extension.Normalize."
    (enumToks "Normalize") := ⟨by decide, by rfl⟩

theorem chunk_enum_Multiple : Chunk U "com.spacecraft.hybrid.annotation.Extension.Multiple."
    (enumToks "Multiple") := ⟨by decide, by rfl⟩

theorem chunk_mode (m : Mode) : Chunk U (m.name ++ ", ") [.ident m.name, .sym ','] := by
  cases m <;> exact ⟨by decide, by rfl⟩

theorem chunk_type (t : MethodType) : Chunk U (t.name ++ ", ") [.ident t.name, .sym ','] := by
  cases t <;> exact ⟨by decide, by rfl⟩

theorem chunk_access (a : Access) : Chunk U (a.name ++ ", ") [.ident a.name, .sym ','] := by
  cases a <;> exact ⟨by decide, by rfl⟩

theorem chunk_normalize (n : Normalize) : Chunk U (n.name ++ ", ") [.ident n.name, .sym ','] := by
  cases n <;> exact ⟨by decide, by rfl⟩

theorem chunk_multiple (m : Multiple) : Chunk U (m.name ++ ", ") [.ident m.name, .sym ','] := by
  cases m <;> exact ⟨by decide, by rfl⟩

theorem chunk_declareWidget : Chunk U "com.spacecraft.hybrid.Widget widget;\n"
    ((hybrid ["Widget"]).toks ++ [.ident "widget", .sym ';']) := ⟨by decide, by rfl⟩

theorem chunk_newWidget : Chunk U "widget = new com.spacecraft.hybrid.Widget("
    ([.ident "widget", .sym '=', .keyword "new"] ++ (hybrid ["Widget"]).toks ++ [.sym '(']) :=
  ⟨by decide, by rfl⟩

theorem chunk_classClose : Chunk U "class);\n" [.keyword "class", .sym ')', .sym ';'] :=
  ⟨by decide, by rfl⟩

theorem chunk_addType : Chunk U "widget.addType("
    ((⟨"widget", ["addType"]⟩ : QName).toks ++ [.sym '(']) := ⟨by decide, by rfl⟩

theorem chunk_widgetAddMethod : Chunk U "widget.addMethod("
    ((⟨"widget", ["addMethod"]⟩ : QName).toks ++ [.sym '(']) := ⟨by decide, by rfl⟩

theorem chunk_addWidget : Chunk U "$1.add(widget);\n"
    ((⟨"$1", ["add"]⟩ : QName).toks ++ [.sym '(', .ident "widget", .sym ')', .sym ';']) :=
  ⟨by decide, by rfl⟩

theorem chunk_eventClass : Chunk U "com.spacecraft.hybrid.event.EventTargetMetaData "
    (hybrid ["event", "EventTargetMetaData"]).toks := ⟨by decide, by rfl⟩

theorem chunk_newEvent : Chunk U "= new com.spacecraft.hybrid.event.EventTargetMetaData("
    ([.sym '=', .keyword "new"] ++ (hybrid ["event", "EventTargetMetaData"]).toks ++ [.sym '(']) :=
  ⟨by decide, by rfl⟩

theorem chunk_arrayTight : Chunk U "new String[]\x7b"
    [.keyword "new", .ident "String", .sym '[', .sym ']', .sym '\x7b'] := ⟨by decide, by rfl⟩

theorem chunk_endCommaTight : Chunk U "\x7d," [.sym '\x7d', .sym ','] := ⟨by decide, by rfl⟩

theorem chunk_eventPut : Chunk U "com.spacecraft.hybrid.event.EventTargetDataSetImpl.put("
    ((hybrid ["event", "EventTargetDataSetImpl", "put"]).toks ++ [.sym '(']) :=
  ⟨by decide, by rfl⟩

theorem chunk_semicolon : Chunk U ";" [.sym ';'] := ⟨by decide, by rfl⟩

theorem chunk_declareDependency :
    Chunk U "com.spacecraft.hybrid.DependencyManager.Dependency dependency;"
      ((hybrid ["DependencyManager", "Dependency"]).toks ++ [.ident "dependency", .sym ';']) :=
  ⟨by decide, by rfl⟩

theorem chunk_newDependency :
    Chunk U "dependency = new com.spacecraft.hybrid.DependencyManager.Dependency("
      ([.ident "dependency", .sym '=', .keyword "new"] ++
        (hybrid ["DependencyManager", "Dependency"]).toks ++ [.sym '(']) :=
  ⟨by decide, by rfl⟩

theorem chunk_dependencyClose : Chunk U ",dependency);"
    [.sym ',', .ident "dependency", .sym ')', .sym ';'] := ⟨by decide, by rfl⟩

theorem chunk_add : Chunk U "$1.add(" ((⟨"$1", ["add"]⟩ : QName).toks ++ [.sym '(']) :=
  ⟨by decide, by rfl⟩

/-! ## The statements of the templates -/

@[simp] theorem toks_str (s : String) : (Piece.str s).toks U = [.str s] := rfl

@[simp] theorem toks_word (w : String) (d : Delim) : (Piece.word w d).toks U = .ident w :: d.toks := rfl

theorem joined_toks : ∀ l : List String,
    Template.toks U (joined l) = sepToks (l.map fun s => [.str s])
  | [] => rfl
  | s :: l => by
    have hl : ∀ l : List String, Template.toks U (l.flatMap fun s => [Piece.code ",", .str s]) =
        commaToks (l.map fun s => [.str s]) := by
      intro l
      induction l with
      | nil => rfl
      | cons x l ih =>
        rw [List.flatMap_cons, Template.toks_append, ih]
        simp [chunk_commaTight.toks, commaToks]
    simp [joined, sepToks, hl]

theorem arrayOrNull_comma_toks (l : List String) :
    Template.toks U (arrayOrNull l ",") = (stringsOrNull l).toks ++ [.sym ','] := by
  unfold arrayOrNull stringsOrNull
  split_ifs
  · rw [Template.toks_cons, chunk_nullComma.toks]
    rfl
  · rw [Template.toks_cons, Template.toks_append, Template.toks_cons, chunk_array.toks, joined_toks,
      chunk_endComma.toks]
    simp

theorem arrayOrNull_close_toks (l : List String) :
    Template.toks U (arrayOrNull l ");\n") = (stringsOrNull l).toks ++ [.sym ')', .sym ';'] := by
  unfold arrayOrNull stringsOrNull
  split_ifs
  · rw [Template.toks_cons, chunk_nullClose.toks]
    rfl
  · rw [Template.toks_cons, Template.toks_append, Template.toks_cons, chunk_array.toks, joined_toks,
      chunk_endClose.toks]
    simp

theorem extensionConstant_toks (enum name : String) :
    (extensionConstant enum name).toks = enumToks enum ++ [.ident name] := by
  simp [extensionConstant, QName.toks, enumToks, hybrid]

theorem addMethodSource_toks (method : Method) :
    Template.toks U (addMethodSource method) = (addMethodStmt method).toks := by
  simp only [addMethodSource, Template.toks_append, Template.toks_cons, Template.toks_nil, toks_str,
    chunk_addMethod.toks, chunk_comma.toks, (chunk_bool _).toks, chunk_enum_Mode.toks,
    (chunk_mode _).toks, chunk_enum_Type.toks, (chunk_type _).toks, chunk_enum_Access.toks,
    (chunk_access _).toks, chunk_enum_Normalize.toks, (chunk_normalize _).toks,
    chunk_enum_Multiple.toks, (chunk_multiple _).toks, arrayOrNull_comma_toks,
    arrayOrNull_close_toks]
  simp [addMethodStmt, Stmt.toks, extensionConstant_toks]

theorem flatMap_toks {α : Type} {f : α → Template} {g : α → List Stmt}
    (h : ∀ a, Template.toks U (f a) = (g a).flatMap Stmt.toks) : ∀ l : List α,
    Template.toks U (l.flatMap f) = (l.flatMap g).flatMap Stmt.toks
  | [] => rfl
  | a :: l => by
    rw [List.flatMap_cons, List.flatMap_cons, Template.toks_append, List.flatMap_append, h a,
      flatMap_toks h l]

theorem extensionEntrySource_toks (e : IExtensionMetaData) :
    Template.toks U (extensionEntrySource e) = (extensionEntryStmts e).flatMap Stmt.toks := by
  have hm : Template.toks U (e.methods.flatMap addMethodSource) =
      (e.methods.map addMethodStmt).flatMap Stmt.toks := by
    rw [List.map_eq_flatMap]
    exact flatMap_toks (fun m => by simp [addMethodSource_toks]) e.methods
  simp only [extensionEntrySource, Template.toks_append, Template.toks_cons, Template.toks_nil,
    toks_str, chunk_newExtension.toks, chunk_comma.toks, chunk_closeLine.toks, hm,
    chunk_validate.toks, chunk_put.toks, chunk_extensionClose.toks]
  simp [extensionEntryStmts, Stmt.toks, QName.toks]

/-- **What `injectMetaData` emits for extensions.** -/
theorem extensionSource_stmts (a : List IExtensionMetaData) :
    Template.stmts U (extensionSource a) = some (extensionStmts a) := by
  rw [Template.stmts, parse_eq_some_iff, extensionSource, Template.toks_cons,
    chunk_declareExtension.toks, flatMap_toks extensionEntrySource_toks]
  simp [extensionStmts, Stmt.toks]

theorem classLiteral_toks (classname : String) : Template.toks U (classLiteral classname) =
    (qname (segments classname)).toks ++ [.sym '.'] := by
  have hne : segments classname ≠ [] := by simp [segments, List.splitOn_ne_nil]
  obtain ⟨w, ws, hws⟩ := List.exists_cons_of_ne_nil hne
  have hdot : dot.toks = [.sym '.'] := by decide
  simp only [classLiteral, hws, qname, QName.toks]
  clear hws hne
  induction ws generalizing w with
  | nil => simp [hdot]
  | cons x ws ih =>
    have := ih x
    simp only [List.map_cons, Template.toks_cons, toks_word, hdot, List.flatMap_cons,
      List.cons_append, List.nil_append] at this ⊢
    rw [this]

theorem widgetEntrySource_toks (w : WidgetMetaData) :
    Template.toks U (widgetEntrySource w) = (widgetEntryStmts w).flatMap Stmt.toks := by
  have ht : Template.toks U (w.types.flatMap fun type => [Piece.code "widget.addType(",
      .str type.name, .code ", ", .str (toString type.isDefault), .code ");\n"]) =
      (w.types.map fun type => Stmt.call ⟨"widget", ["addType"]⟩
        [.str type.name, .str (toString type.isDefault)]).flatMap Stmt.toks := by
    rw [List.map_eq_flatMap]
    refine flatMap_toks (fun type => ?_) w.types
    simp [chunk_addType.toks, chunk_comma.toks, chunk_closeLine.toks, Stmt.toks]
  have hm : Template.toks U (w.methods.flatMap fun method =>
      [Piece.code "widget.addMethod(", .str method, .code ");\n"]) =
      (w.methods.map fun method => Stmt.call ⟨"widget", ["addMethod"]⟩ [.str method]).flatMap
        Stmt.toks := by
    rw [List.map_eq_flatMap]
    refine flatMap_toks (fun method => ?_) w.methods
    simp [chunk_widgetAddMethod.toks, chunk_closeLine.toks, Stmt.toks]
  simp only [widgetEntrySource, Template.toks_append, Template.toks_cons, Template.toks_nil,
    toks_str, chunk_newWidget.toks, chunk_comma.toks, classLiteral_toks, chunk_classClose.toks, ht,
    hm, chunk_addWidget.toks]
  simp [widgetEntryStmts, Stmt.toks, QName.toks]

/-- **What `injectMetaData` emits for widgets.** -/
theorem widgetSource_stmts (a : List WidgetMetaData) :
    Template.stmts U (widgetSource a) = some (widgetStmts a) := by
  rw [Template.stmts, parse_eq_some_iff, widgetSource, Template.toks_cons,
    chunk_declareWidget.toks, flatMap_toks widgetEntrySource_toks]
  simp [widgetStmts, Stmt.toks]

theorem eventTargetSource_stmts (event : String) (et : EventTargetMetaData) :
    Template.stmts U (eventTargetSource event et) = some (eventTargetStmts event et) := by
  have hblank : blank.toks = [] := by decide
  have hclosing : closing.toks = [.sym ')'] := by decide
  rw [Template.stmts, parse_eq_some_iff]
  simp only [eventTargetSource, Template.toks_append, Template.toks_cons, Template.toks_nil,
    toks_str, toks_word, chunk_eventClass.toks, hblank, chunk_newEvent.toks, chunk_arrayTight.toks,
    joined_toks, chunk_endCommaTight.toks, chunk_close.toks, chunk_eventPut.toks, chunk_comma.toks,
    hclosing, chunk_semicolon.toks]
  simp [eventTargetStmts, Stmt.toks, QName.toks]

theorem dependencyEntrySource_toks (d : DependencyMetaData) :
    Template.toks U (dependencyEntrySource d) = (dependencyEntryStmts d).flatMap Stmt.toks := by
  simp only [dependencyEntrySource, Template.toks_cons, Template.toks_nil, toks_str,
    chunk_newDependency.toks, chunk_close.toks, chunk_put.toks, chunk_dependencyClose.toks]
  simp [dependencyEntryStmts, Stmt.toks, QName.toks]

/-- **What `DependencyProcessor` emits.** -/
theorem dependencySource_stmts (deps : List DependencyMetaData) :
    Template.stmts U (dependencySource deps) = some (dependencyStmts deps) := by
  rw [Template.stmts, parse_eq_some_iff, dependencySource, Template.toks_cons,
    chunk_declareDependency.toks, flatMap_toks dependencyEntrySource_toks]
  simp [dependencyStmts, Stmt.toks]

/-- **What the resident sets are filled by.** -/
theorem residentSource_stmts (names : List String) :
    Template.stmts U (residentSource names) = some (residentStmts names) := by
  rw [Template.stmts, parse_eq_some_iff, residentStmts, List.map_eq_flatMap]
  refine flatMap_toks (fun name => ?_) names
  simp [chunk_add.toks, chunk_close.toks, Stmt.toks]

end

end HybridStack.Pisces
