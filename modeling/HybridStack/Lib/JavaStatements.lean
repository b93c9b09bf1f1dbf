import HybridStack.Lib.JavaLexer

/-!
# Java statements

The statements that code generators emit: local variables of a class, assignments of new objects,
and method calls, over literals, names, class literals and string arrays. `Stmt.toks` is the
statement as tokens and `parse` reads a token list back.

Main results:
- **`parse_eq_some_iff`**: a token list parses to `ss` if and only if it is the tokens of `ss`, so
  the grammar is unambiguous and the parser accepts nothing else.
- **`read_eq_some_iff`**: the same from the source text.
-/

namespace JavaSource

/-! ## Syntax -/

/-- A dotted name. -/
structure QName where
  head : String
  tail : List String
  deriving DecidableEq, Repr

inductive Arg
  | str (s : String)
  | name (q : QName)
  | null
  | bool (b : Bool)
  /-- `new String[]{…}` of string literals. -/
  | strings (l : List String)
  /-- `C.class`. -/
  | classOf (q : QName)
  deriving DecidableEq, Repr

inductive Stmt
  /-- `T x;` -/
  | declare (type : QName) (x : String)
  /-- `x = new T(…);` -/
  | assign (x : String) (type : QName) (args : List Arg)
  /-- `T x = new T(…);` -/
  | init (type : QName) (x : String) (ctor : QName) (args : List Arg)
  /-- `a.b.m(…);` -/
  | call (target : QName) (args : List Arg)
  deriving DecidableEq, Repr

/-! ## Tokens of a statement -/

def QName.toks (q : QName) : List Tok :=
  .ident q.head :: q.tail.flatMap fun w => [.sym '.', .ident w]

/-- The items after the first, each behind its comma. -/
def commaToks (ts : List (List Tok)) : List Tok := ts.flatMap (.sym ',' :: ·)

def sepToks : List (List Tok) → List Tok
  | [] => []
  | t :: ts => t ++ commaToks ts

def Arg.toks : Arg → List Tok
  | .str s => [.str s]
  | .name q => q.toks
  | .null => [.keyword "null"]
  | .bool b => [.keyword (if b then "true" else "false")]
  | .strings l =>
    [.keyword "new", .ident "String", .sym '[', .sym ']', .sym '\x7b'] ++
      sepToks (l.map fun s => [.str s]) ++ [.sym '\x7d']
  | .classOf q => q.toks ++ [.sym '.', .keyword "class"]

/-- `(…);` -/
def argsToks (args : List Arg) : List Tok :=
  .sym '(' :: sepToks (args.map Arg.toks) ++ [.sym ')', .sym ';']

def Stmt.toks : Stmt → List Tok
  | .declare type x => type.toks ++ [.ident x, .sym ';']
  | .assign x type args => [.ident x, .sym '=', .keyword "new"] ++ type.toks ++ argsToks args
  | .init type x ctor args =>
    type.toks ++ [.ident x, .sym '=', .keyword "new"] ++ ctor.toks ++ argsToks args
  | .call target args => target.toks ++ argsToks args

@[simp] theorem Arg.toks_str (s : String) : (Arg.str s).toks = [.str s] := rfl
@[simp] theorem Arg.toks_name (q : QName) : (Arg.name q).toks = q.toks := rfl
@[simp] theorem Arg.toks_null : Arg.null.toks = [.keyword "null"] := rfl
@[simp] theorem Arg.toks_bool (b : Bool) :
    (Arg.bool b).toks = [.keyword (if b then "true" else "false")] := rfl
@[simp] theorem Arg.toks_strings (l : List String) : (Arg.strings l).toks =
    [.keyword "new", .ident "String", .sym '[', .sym ']', .sym '\x7b'] ++
      sepToks (l.map fun s => [.str s]) ++ [.sym '\x7d'] := rfl
@[simp] theorem Arg.toks_classOf (q : QName) :
    (Arg.classOf q).toks = q.toks ++ [.sym '.', .keyword "class"] := rfl

@[simp] theorem argsToks_nil : argsToks [] = [.sym '(', .sym ')', .sym ';'] := rfl
@[simp] theorem argsToks_cons (a : Arg) (args : List Arg) : argsToks (a :: args) =
    .sym '(' :: (a.toks ++ commaToks (args.map Arg.toks)) ++ [.sym ')', .sym ';'] := rfl

@[simp] theorem commaToks_nil : commaToks [] = [] := rfl
@[simp] theorem commaToks_cons (t : List Tok) (ts : List (List Tok)) :
    commaToks (t :: ts) = .sym ',' :: t ++ commaToks ts := rfl

/-! ## Parser -/

def parseTail : List Tok → List String × List Tok
  | .sym '.' :: .ident w :: ts => let (ws, rest) := parseTail ts; (w :: ws, rest)
  | ts => ([], ts)

def parseQName : List Tok → Option (QName × List Tok)
  | .ident w :: ts => let (ws, rest) := parseTail ts; some (⟨w, ws⟩, rest)
  | _ => none

def parseStringsTail : List Tok → List String × List Tok
  | .sym ',' :: .str s :: ts => let (l, rest) := parseStringsTail ts; (s :: l, rest)
  | ts => ([], ts)

def parseStrings : List Tok → Option (List String × List Tok)
  | .sym '\x7d' :: rest => some ([], rest)
  | .str s :: ts =>
    match parseStringsTail ts with
    | (l, .sym '\x7d' :: rest) => some (s :: l, rest)
    | _ => none
  | _ => none

def parseArg : List Tok → Option (Arg × List Tok)
  | .str s :: rest => some (.str s, rest)
  | .keyword "null" :: rest => some (.null, rest)
  | .keyword "true" :: rest => some (.bool true, rest)
  | .keyword "false" :: rest => some (.bool false, rest)
  | .keyword "new" :: .ident "String" :: .sym '[' :: .sym ']' :: .sym '\x7b' :: ts =>
    (parseStrings ts).map fun (l, rest) => (.strings l, rest)
  | ts =>
    (parseQName ts).map fun
      | (q, .sym '.' :: .keyword "class" :: rest) => (.classOf q, rest)
      | (q, rest) => (.name q, rest)

/-- The arguments after the first, up to `);`. The fuel bounds their number. -/
def parseArgsTail : Nat → List Tok → Option (List Arg × List Tok)
  | _, .sym ')' :: .sym ';' :: rest => some ([], rest)
  | n + 1, .sym ',' :: ts => do
    let (a, ts) ← parseArg ts
    let (l, rest) ← parseArgsTail n ts
    pure (a :: l, rest)
  | _, _ => none

def parseArgs : List Tok → Option (List Arg × List Tok)
  | .sym '(' :: .sym ')' :: .sym ';' :: rest => some ([], rest)
  | .sym '(' :: ts => do
    let (a, ts) ← parseArg ts
    let (l, rest) ← parseArgsTail ts.length ts
    pure (a :: l, rest)
  | _ => none

/-- `new T(…);` -/
def parseNew : List Tok → Option ((QName × List Arg) × List Tok)
  | .keyword "new" :: ts => do
    let (q, ts) ← parseQName ts
    let (args, rest) ← parseArgs ts
    pure ((q, args), rest)
  | _ => none

/-- What may follow the name a statement starts with. -/
def parseAfter (q : QName) : List Tok → Option (Stmt × List Tok)
  | .ident x :: .sym ';' :: rest => some (.declare q x, rest)
  | .ident x :: .sym '=' :: ts => do
    let ((ctor, args), rest) ← parseNew ts
    pure (.init q x ctor args, rest)
  | .sym '=' :: ts =>
    if q.tail = [] then do
      let ((type, args), rest) ← parseNew ts
      pure (.assign q.head type args, rest)
    else none
  | ts => do
    let (args, rest) ← parseArgs ts
    pure (.call q args, rest)

def parseStmt (ts : List Tok) : Option (Stmt × List Tok) := do
  let (q, ts) ← parseQName ts
  parseAfter q ts

/-- The fuel bounds the number of statements. -/
def parseFuel : Nat → List Tok → Option (List Stmt)
  | _, [] => some []
  | 0, _ => none
  | n + 1, ts => do
    let (s, rest) ← parseStmt ts
    (parseFuel n rest).map (s :: ·)

def parse (ts : List Tok) : Option (List Stmt) := parseFuel ts.length ts

/-- A source text as statements. -/
def read (U : UnicodeIdent) (src : String) : Option (List Stmt) :=
  (tokens U src.toList (.start, [])).bind parse

/-! ## What is printed is read back -/

/-- The rest does not go on with `.w`. -/
def NoSelector (rest : List Tok) : Prop := ∀ w ts, rest ≠ .sym '.' :: .ident w :: ts

theorem parseTail_toks : ∀ (ws : List String) {rest : List Tok}, NoSelector rest →
    parseTail ((ws.flatMap fun w => [Tok.sym '.', .ident w]) ++ rest) = (ws, rest)
  | [], rest, h => by
    rw [List.flatMap_nil, List.nil_append]
    unfold parseTail
    split
    next w ts => exact absurd rfl (h w ts)
    next => rfl
  | w :: ws, rest, h => by
    simp only [List.flatMap_cons, List.cons_append, List.nil_append]
    rw [parseTail, parseTail_toks ws h]

theorem parseQName_toks (q : QName) (rest : List Tok) (h : NoSelector rest) :
    parseQName (q.toks ++ rest) = some (q, rest) := by
  simp [QName.toks, parseQName, parseTail_toks q.tail h]

theorem parseStringsTail_toks : ∀ (l : List String) (rest : List Tok),
    parseStringsTail (commaToks (l.map fun s => [Tok.str s]) ++ .sym '\x7d' :: rest) =
      (l, .sym '\x7d' :: rest)
  | [], rest => by
    rw [List.map_nil, commaToks, List.flatMap_nil, List.nil_append, parseStringsTail]
    rintro s ts ⟨⟩
  | s :: l, rest => by
    have ih := parseStringsTail_toks l rest
    simp only [commaToks, List.map_cons, List.flatMap_cons, List.cons_append,
      List.nil_append] at ih ⊢
    rw [parseStringsTail, ih]

theorem parseStrings_toks (l : List String) (rest : List Tok) :
    parseStrings (sepToks (l.map fun s => [Tok.str s]) ++ .sym '\x7d' :: rest) = some (l, rest) := by
  cases l with
  | nil => rfl
  | cons s l =>
    have h := parseStringsTail_toks l rest
    simp only [List.map_cons, sepToks, List.cons_append, List.nil_append]
    rw [parseStrings, h]
    rfl

/-- The rest does not go on with `.`. -/
def NoDot (rest : List Tok) : Prop := ∀ ts, rest ≠ .sym '.' :: ts

theorem NoDot.noSelector {rest : List Tok} (h : NoDot rest) : NoSelector rest :=
  fun w ts => h (.ident w :: ts)

theorem parseArg_toks (a : Arg) (rest : List Tok) (h : NoDot rest) :
    parseArg (a.toks ++ rest) = some (a, rest) := by
  cases a with
  | str s => rfl
  | null => rfl
  | bool b => cases b <;> rfl
  | name q =>
    have hq := parseQName_toks q rest h.noSelector
    simp only [Arg.toks, QName.toks, List.cons_append] at hq ⊢
    rw [parseArg, hq]
    · simp only [Option.map_some]
      split
      next ts heq => exact absurd (Prod.mk.inj heq).2 (h _)
      next heq =>
        cases heq
        rfl
    all_goals nofun
  | strings l =>
    simp only [Arg.toks, List.append_assoc, List.cons_append, List.nil_append]
    rw [parseArg, parseStrings_toks]
    rfl
  | classOf q =>
    have hq := parseQName_toks q (.sym '.' :: .keyword "class" :: rest) nofun
    simp only [Arg.toks, QName.toks, List.cons_append, List.append_assoc, List.nil_append] at hq ⊢
    rw [parseArg, hq]
    · rfl
    all_goals nofun

theorem parseArgsTail_toks : ∀ (args : List Arg) {n : Nat} (rest : List Tok), args.length ≤ n →
    parseArgsTail n (commaToks (args.map Arg.toks) ++ .sym ')' :: .sym ';' :: rest) =
      some (args, rest)
  | [], n, rest, _ => by cases n <;> rfl
  | a :: args, 0, rest, h => absurd h (by simp)
  | a :: args, n + 1, rest, h => by
    have ih := parseArgsTail_toks args (n := n) rest (by simpa using h)
    simp only [commaToks, List.map_cons, List.flatMap_cons, List.cons_append,
      List.append_assoc] at ih ⊢
    rw [parseArgsTail, parseArg_toks a _ (by cases args <;> nofun)]
    simp [ih]

theorem parseArgs_toks (args : List Arg) (rest : List Tok) :
    parseArgs (argsToks args ++ rest) = some (args, rest) := by
  cases args with
  | nil => rfl
  | cons a args =>
    have hlen : args.length ≤
        (commaToks (args.map Arg.toks) ++ Tok.sym ')' :: .sym ';' :: rest).length := by
      have hc : args.length ≤ (commaToks (args.map Arg.toks)).length := by
        clear rest
        induction args with
        | nil => simp
        | cons b args ih => simp only [commaToks, List.map_cons, List.flatMap_cons] at ih ⊢
                            simp only [List.length_append, List.length_cons]
                            omega
      simp only [List.length_append]
      omega
    have htail := parseArgsTail_toks args rest hlen
    have harg := parseArg_toks a (commaToks (args.map Arg.toks) ++ Tok.sym ')' :: .sym ';' :: rest)
      (by cases args <;> nofun)
    simp only [argsToks, List.map_cons, sepToks, List.cons_append, List.append_assoc,
      List.nil_append]
    rw [parseArgs, harg]
    · simp only [Option.bind_eq_bind, Option.bind_some, htail]
      rfl
    · cases a with
      | bool b => cases b <;> nofun
      | _ => nofun

theorem parseNew_toks (q : QName) (args : List Arg) (rest : List Tok) :
    parseNew (.keyword "new" :: (q.toks ++ (argsToks args ++ rest))) = some ((q, args), rest) := by
  have hq := parseQName_toks q (argsToks args ++ rest) (by simp [argsToks, NoSelector])
  rw [parseNew, hq]
  simp [parseArgs_toks]

theorem parseStmt_toks (s : Stmt) (rest : List Tok) : parseStmt (s.toks ++ rest) = some (s, rest) := by
  unfold parseStmt
  cases s with
  | declare type x =>
    have hq := parseQName_toks type (.ident x :: .sym ';' :: rest) nofun
    simp only [Stmt.toks, List.append_assoc, List.cons_append, List.nil_append]
    rw [hq]
    rfl
  | assign x type args =>
    have hnew := parseNew_toks type args rest
    have hq := parseQName_toks ⟨x, []⟩
      (.sym '=' :: .keyword "new" :: (type.toks ++ (argsToks args ++ rest))) nofun
    have hx : QName.toks ⟨x, []⟩ = [Tok.ident x] := rfl
    rw [hx] at hq
    simp only [Stmt.toks, List.append_assoc, List.cons_append, List.nil_append] at hq ⊢
    rw [hq]
    simp [parseAfter, hnew]
  | init type x ctor args =>
    have hnew := parseNew_toks ctor args rest
    have hq := parseQName_toks type
      (.ident x :: .sym '=' :: .keyword "new" :: (ctor.toks ++ (argsToks args ++ rest))) nofun
    simp only [Stmt.toks, List.append_assoc, List.cons_append, List.nil_append]
    rw [hq]
    simp [parseAfter, hnew]
  | call target args =>
    have hargs := parseArgs_toks args rest
    have hq := parseQName_toks target (argsToks args ++ rest) (by simp [argsToks, NoSelector])
    simp only [Stmt.toks, List.append_assoc]
    rw [hq, Option.bind_eq_bind, Option.bind_some, parseAfter]
    · simp [hargs]
    all_goals simp [argsToks]

theorem parseFuel_toks : ∀ (ss : List Stmt) {n : Nat}, ss.length ≤ n →
    parseFuel n (ss.flatMap Stmt.toks) = some ss
  | [], n, _ => by cases n <;> rfl
  | s :: ss, 0, h => absurd h (by simp)
  | s :: ss, n + 1, h => by
    rw [List.flatMap_cons, parseFuel, parseStmt_toks]
    · simp [parseFuel_toks ss (n := n) (by simpa using h)]
    · cases s <;> nofun

/-! ## Nothing else is read -/

theorem toks_of_parseTail : ∀ {ts rest : List Tok} {ws : List String}, parseTail ts = (ws, rest) →
    ts = (ws.flatMap fun w => [Tok.sym '.', .ident w]) ++ rest := by
  intro ts
  fun_induction parseTail ts with
  | case1 w ts ws' rest' heq ih =>
    rintro rest ws ⟨⟩
    rw [List.flatMap_cons, List.append_assoc, ← ih heq]
    rfl
  | case2 ts h =>
    rintro rest ws ⟨⟩
    rfl

theorem toks_of_parseQName {ts rest : List Tok} {q : QName} (h : parseQName ts = some (q, rest)) :
    ts = q.toks ++ rest := by
  unfold parseQName at h
  split at h
  next w ts =>
    obtain ⟨rfl, rfl⟩ := Prod.mk.inj (Option.some.inj h)
    rw [QName.toks, List.cons_append, ← toks_of_parseTail rfl]
  next => cases h

theorem toks_of_parseStringsTail : ∀ {ts rest : List Tok} {l : List String},
    parseStringsTail ts = (l, rest) → ts = commaToks (l.map fun s => [Tok.str s]) ++ rest := by
  intro ts
  fun_induction parseStringsTail ts with
  | case1 s ts l' rest' heq ih =>
    rintro rest l ⟨⟩
    rw [List.map_cons, commaToks, List.flatMap_cons, List.append_assoc, ← commaToks, ← ih heq]
    rfl
  | case2 ts h =>
    rintro rest l ⟨⟩
    rfl

theorem toks_of_parseStrings {ts rest : List Tok} {l : List String}
    (h : parseStrings ts = some (l, rest)) :
    ts = sepToks (l.map fun s => [Tok.str s]) ++ .sym '\x7d' :: rest := by
  unfold parseStrings at h
  split at h
  · cases h
    rfl
  · split at h
    next heq =>
      cases h
      rw [toks_of_parseStringsTail heq]
      simp [sepToks]
    next => cases h
  · cases h

theorem toks_of_parseArg {ts rest : List Tok} {a : Arg} (h : parseArg ts = some (a, rest)) :
    ts = a.toks ++ rest := by
  unfold parseArg at h
  split at h
  · cases h; rfl
  · cases h; rfl
  · cases h; rfl
  · cases h; rfl
  · obtain ⟨⟨l, rest'⟩, hl, heq⟩ := Option.map_eq_some_iff.1 h
    cases heq
    rw [toks_of_parseStrings hl]
    simp [Arg.toks]
  · obtain ⟨⟨q, rest'⟩, hq, heq⟩ := Option.map_eq_some_iff.1 h
    rw [toks_of_parseQName hq]
    split at heq
    next hp =>
      cases hp
      cases heq
      simp [Arg.toks]
    next hp =>
      cases hp
      cases heq
      rfl

theorem toks_of_parseArgsTail : ∀ {n : Nat} {ts rest : List Tok} {args : List Arg},
    parseArgsTail n ts = some (args, rest) →
      ts = commaToks (args.map Arg.toks) ++ .sym ')' :: .sym ';' :: rest := by
  intro n ts
  fun_induction parseArgsTail n ts with
  | case1 n rest =>
    rintro rest' args ⟨⟩
    rfl
  | case2 n ts ih =>
    intro rest args h
    obtain ⟨⟨a, ts'⟩, ha, h⟩ := Option.bind_eq_some_iff.1 h
    obtain ⟨⟨l, rest'⟩, hl, heq⟩ := Option.bind_eq_some_iff.1 h
    cases heq
    rw [toks_of_parseArg ha, ih ts' hl]
    simp [commaToks]
  | case3 => nofun

theorem toks_of_parseArgs {ts rest : List Tok} {args : List Arg}
    (h : parseArgs ts = some (args, rest)) : ts = argsToks args ++ rest := by
  unfold parseArgs at h
  split at h
  · cases h
    rfl
  · obtain ⟨⟨a, ts'⟩, ha, h⟩ := Option.bind_eq_some_iff.1 h
    obtain ⟨⟨l, rest'⟩, hl, heq⟩ := Option.bind_eq_some_iff.1 h
    cases heq
    rw [toks_of_parseArg ha, toks_of_parseArgsTail hl]
    simp [argsToks, sepToks]
  · cases h

theorem toks_of_parseNew {ts rest : List Tok} {q : QName} {args : List Arg}
    (h : parseNew ts = some ((q, args), rest)) :
    ts = .keyword "new" :: (q.toks ++ (argsToks args ++ rest)) := by
  unfold parseNew at h
  split at h
  · obtain ⟨⟨q', ts'⟩, hq, h⟩ := Option.bind_eq_some_iff.1 h
    obtain ⟨⟨args', rest'⟩, hargs, heq⟩ := Option.bind_eq_some_iff.1 h
    cases heq
    rw [toks_of_parseQName hq, toks_of_parseArgs hargs]
  · cases h

theorem toks_of_parseAfter {q : QName} {ts rest : List Tok} {s : Stmt}
    (h : parseAfter q ts = some (s, rest)) : q.toks ++ ts = s.toks ++ rest := by
  unfold parseAfter at h
  split at h
  · cases h
    simp [Stmt.toks]
  · obtain ⟨⟨⟨ctor, args⟩, rest'⟩, hnew, heq⟩ := Option.bind_eq_some_iff.1 h
    cases heq
    rw [toks_of_parseNew hnew]
    simp [Stmt.toks]
  · split at h
    next htail =>
      obtain ⟨⟨⟨type, args⟩, rest'⟩, hnew, heq⟩ := Option.bind_eq_some_iff.1 h
      cases heq
      rw [toks_of_parseNew hnew, QName.toks, htail]
      simp [Stmt.toks]
    next => cases h
  · obtain ⟨⟨args, rest'⟩, hargs, heq⟩ := Option.bind_eq_some_iff.1 h
    cases heq
    rw [toks_of_parseArgs hargs]
    simp [Stmt.toks]

theorem toks_of_parseStmt {ts rest : List Tok} {s : Stmt} (h : parseStmt ts = some (s, rest)) :
    ts = s.toks ++ rest := by
  obtain ⟨⟨q, ts'⟩, hq, h⟩ := Option.bind_eq_some_iff.1 h
  rw [toks_of_parseQName hq, toks_of_parseAfter h]

theorem toks_of_parseFuel : ∀ {n : Nat} {ts : List Tok} {ss : List Stmt},
    parseFuel n ts = some ss → ts = ss.flatMap Stmt.toks
  | n, [], ss, h => by
    have : some [] = some ss := by cases n <;> exact h
    cases this
    rfl
  | 0, t :: ts, ss, h => by cases h
  | n + 1, t :: ts, ss, h => by
    rw [parseFuel] at h
    · obtain ⟨⟨s, rest⟩, hs, h⟩ := Option.bind_eq_some_iff.1 h
      obtain ⟨ss', hss, rfl⟩ := Option.map_eq_some_iff.1 h
      rw [toks_of_parseStmt hs, toks_of_parseFuel hss]
      rfl
    · nofun

theorem Stmt.toks_length_pos (s : Stmt) : 0 < s.toks.length := by
  cases s <;> simp [Stmt.toks, QName.toks]

/-- **The parser accepts exactly the token lists of statements.** -/
theorem parse_eq_some_iff {ts : List Tok} {ss : List Stmt} :
    parse ts = some ss ↔ ts = ss.flatMap Stmt.toks := by
  constructor
  · exact toks_of_parseFuel
  · rintro rfl
    refine parseFuel_toks ss ?_
    induction ss with
    | nil => simp
    | cons s ss ih =>
      have hs := s.toks_length_pos
      simp only [List.flatMap_cons, List.length_append, List.length_cons]
      omega

theorem parse_toks (ss : List Stmt) : parse (ss.flatMap Stmt.toks) = some ss :=
  parse_eq_some_iff.2 rfl

/-- **A text reads as `ss` if and only if its tokens are those of `ss`.** -/
theorem read_eq_some_iff {U : UnicodeIdent} {src : String} {ss : List Stmt} :
    read U src = some ss ↔ tokens U src.toList (.start, []) = some (ss.flatMap Stmt.toks) := by
  rw [read, Option.bind_eq_some_iff]
  constructor
  · rintro ⟨ts, hts, hp⟩
    rw [hts, parse_eq_some_iff.1 hp]
  · exact fun h => ⟨_, h, parse_toks ss⟩

end JavaSource
