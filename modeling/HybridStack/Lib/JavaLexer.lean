import Mathlib.Data.List.Basic

/-!
# Java lexical structure

What a run of Java statements looks like to a compiler: `translate` replaces the Unicode escapes,
`lex` cuts the result into words, symbols and string literals (escape sequences decoded, white
space and comments dropped). Numbers and operators other than the listed symbols are not read.
Which characters beyond ASCII belong to identifiers is left to a parameter.

What is proved about string literals is `tokens_literal_iff`: a text spliced between two quotes
is read back as itself if and only if it has no quote, no backslash and no line terminator. The
hard half needs no table of escapes: a literal that reads back as the spliced text and runs past its
closing quote would need an earlier quote in the text, and that one an earlier one still. Of
identifiers it is enough that a text never yields an ill-formed one (`identifier_of_tokens`).
-/

namespace JavaSource

/-! ## Characters -/

/-- `Character.isJavaIdentifierStart` and `isJavaIdentifierPart` beyond ASCII. -/
structure UnicodeIdent where
  start : Char → Bool
  part : Char → Bool

variable (U : UnicodeIdent)

/-- Letters, `$` and `_`. -/
def asciiIdentStart (c : Char) : Bool := c.isAlpha || c == '$' || c == '_'

def identStart (c : Char) : Bool := if c.toNat < 128 then asciiIdentStart c else U.start c

def identPart (c : Char) : Bool :=
  if c.toNat < 128 then asciiIdentStart c || c.isDigit else U.part c

def isSpace (c : Char) : Bool :=
  c == ' ' || c == '\n' || c == '\r' || c == '\t' || c == '\x0c'

def isNewline (c : Char) : Bool := c == '\n' || c == '\r'

/-- Separators, and the operator `=`. -/
def isSymbol (c : Char) : Bool := ".,;()[]\x7b\x7d=".toList.contains c

/-- The reserved words, the literals `true`, `false` and `null` among them. -/
def keywords : List (List Char) :=
  [['a', 'b', 's', 't', 'r', 'a', 'c', 't'], ['a', 's', 's', 'e', 'r', 't'],
    ['b', 'o', 'o', 'l', 'e', 'a', 'n'], ['b', 'r', 'e', 'a', 'k'], ['b', 'y', 't', 'e'],
    ['c', 'a', 's', 'e'], ['c', 'a', 't', 'c', 'h'], ['c', 'h', 'a', 'r'],
    ['c', 'l', 'a', 's', 's'], ['c', 'o', 'n', 's', 't'],
    ['c', 'o', 'n', 't', 'i', 'n', 'u', 'e'], ['d', 'e', 'f', 'a', 'u', 'l', 't'], ['d', 'o'],
    ['d', 'o', 'u', 'b', 'l', 'e'], ['e', 'l', 's', 'e'], ['e', 'n', 'u', 'm'],
    ['e', 'x', 't', 'e', 'n', 'd', 's'], ['f', 'i', 'n', 'a', 'l'],
    ['f', 'i', 'n', 'a', 'l', 'l', 'y'], ['f', 'l', 'o', 'a', 't'], ['f', 'o', 'r'],
    ['g', 'o', 't', 'o'], ['i', 'f'], ['i', 'm', 'p', 'l', 'e', 'm', 'e', 'n', 't', 's'],
    ['i', 'm', 'p', 'o', 'r', 't'], ['i', 'n', 's', 't', 'a', 'n', 'c', 'e', 'o', 'f'],
    ['i', 'n', 't'], ['i', 'n', 't', 'e', 'r', 'f', 'a', 'c', 'e'], ['l', 'o', 'n', 'g'],
    ['n', 'a', 't', 'i', 'v', 'e'], ['n', 'e', 'w'], ['p', 'a', 'c', 'k', 'a', 'g', 'e'],
    ['p', 'r', 'i', 'v', 'a', 't', 'e'], ['p', 'r', 'o', 't', 'e', 'c', 't', 'e', 'd'],
    ['p', 'u', 'b', 'l', 'i', 'c'], ['r', 'e', 't', 'u', 'r', 'n'], ['s', 'h', 'o', 'r', 't'],
    ['s', 't', 'a', 't', 'i', 'c'], ['s', 't', 'r', 'i', 'c', 't', 'f', 'p'],
    ['s', 'u', 'p', 'e', 'r'], ['s', 'w', 'i', 't', 'c', 'h'],
    ['s', 'y', 'n', 'c', 'h', 'r', 'o', 'n', 'i', 'z', 'e', 'd'], ['t', 'h', 'i', 's'],
    ['t', 'h', 'r', 'o', 'w'], ['t', 'h', 'r', 'o', 'w', 's'],
    ['t', 'r', 'a', 'n', 's', 'i', 'e', 'n', 't'], ['t', 'r', 'y'], ['v', 'o', 'i', 'd'],
    ['v', 'o', 'l', 'a', 't', 'i', 'l', 'e'], ['w', 'h', 'i', 'l', 'e'], ['t', 'r', 'u', 'e'],
    ['f', 'a', 'l', 's', 'e'], ['n', 'u', 'l', 'l'], ['_']]

def hexDigit? (c : Char) : Option Nat :=
  if c.isDigit then some (c.toNat - '0'.toNat)
  else if 'a' ≤ c ∧ c ≤ 'f' then some (c.toNat - 'a'.toNat + 10)
  else if 'A' ≤ c ∧ c ≤ 'F' then some (c.toNat - 'A'.toNat + 10)
  else none

def octalDigit? (c : Char) : Option Nat :=
  if '0' ≤ c ∧ c ≤ '7' then some (c.toNat - '0'.toNat) else none

/-- The escape sequences of one character. -/
def simpleEscape? (c : Char) : Option Char :=
  match c with
  | 'b' => some '\x08'
  | 's' => some ' '
  | 't' => some '\t'
  | 'n' => some '\n'
  | 'f' => some '\x0c'
  | 'r' => some '\r'
  | '"' => some '"'
  | '\'' => some '\''
  | '\\' => some '\\'
  | _ => none

/-! ## Unicode escapes -/

inductive UMode
  | plain
  /-- After a backslash that may start an escape. -/
  | back
  /-- After a backslash and a `u`: digits read so far, and their value. -/
  | uni (digits value : Nat)

/-- Unicode escapes become characters; a backslash after a backslash starts none. -/
def translate : List Char → UMode → Option (List Char)
  | [], .plain => some []
  | [], .back => some ['\\']
  | [], .uni _ _ => none
  | c :: cs, .plain => if c = '\\' then translate cs .back else (translate cs .plain).map (c :: ·)
  | c :: cs, .back =>
    if c = 'u' then translate cs (.uni 0 0)
    else (translate cs .plain).map ('\\' :: c :: ·)
  | c :: cs, .uni n v =>
    if c = 'u' ∧ n = 0 then translate cs (.uni 0 0)
    else
      match hexDigit? c with
      | none => none
      | some d =>
        if n < 3 then translate cs (.uni (n + 1) (v * 16 + d))
        else if (v * 16 + d).isValidChar then
          (translate cs .plain).map (Char.ofNat (v * 16 + d) :: ·)
        else none

/-! ## Tokens -/

inductive Tok
  | ident (w : String)
  | keyword (w : String)
  | str (s : String)
  | sym (c : Char)
  deriving DecidableEq, Repr

inductive LitMode
  | plain
  /-- After a backslash. -/
  | esc
  /-- In an octal escape: its value so far, and how many digits may still follow. -/
  | oct (value more : Nat)

/-- What the lexer is in; the characters of an unfinished token are kept in reverse. -/
inductive LexMode
  | start
  | word (acc : List Char)
  | lit (m : LitMode) (acc : List Char)
  | slash
  | line
  | block
  | star

def wordTok (w : List Char) : Tok :=
  if w ∈ keywords then .keyword (String.ofList w) else .ident (String.ofList w)

/-- Where the lexer stands: its mode, and the tokens so far in reverse. -/
abbrev LexState := LexMode × List Tok

/-- A character where a token may start. -/
def startStep (out : List Tok) (c : Char) : Option LexState :=
  if isSpace c then some (.start, out)
  else if c = '"' then some (.lit .plain [], out)
  else if c = '/' then some (.slash, out)
  else if identStart U c then some (.word [c], out)
  else if isSymbol c then some (.start, .sym c :: out)
  else none

/-- A character of a string literal that is not part of an escape. -/
def litPlainStep (out : List Tok) (acc : List Char) (c : Char) : Option LexState :=
  if c = '"' then some (.start, .str (String.ofList acc.reverse) :: out)
  else if c = '\\' then some (.lit .esc acc, out)
  else if isNewline c then none
  else some (.lit .plain (c :: acc), out)

def litStep (out : List Tok) (acc : List Char) (c : Char) : LitMode → Option LexState
  | .plain => litPlainStep out acc c
  | .esc =>
    match simpleEscape? c with
    | some e => some (.lit .plain (e :: acc), out)
    | none => (octalDigit? c).map fun d => (.lit (.oct d (if d ≤ 3 then 2 else 1)) acc, out)
  | .oct v more =>
    match octalDigit? c, more with
    | some d, more + 1 => some (.lit (.oct (v * 8 + d) more) acc, out)
    | _, _ => litPlainStep out (Char.ofNat v :: acc) c

def lexStep : LexState → Char → Option LexState
  | (.start, out), c => startStep U out c
  | (.word acc, out), c =>
    if identPart U c then some (.word (c :: acc), out)
    else startStep U (wordTok acc.reverse :: out) c
  | (.lit m acc, out), c => litStep out acc c m
  | (.slash, out), c =>
    if c = '/' then some (.line, out) else if c = '*' then some (.block, out) else none
  | (.line, out), c => some (if isNewline c then .start else .line, out)
  | (.block, out), c => some (if c = '*' then .star else .block, out)
  | (.star, out), c =>
    some (if c = '/' then .start else if c = '*' then .star else .block, out)

def lexRun (cs : List Char) (st : LexState) : Option LexState := cs.foldlM (lexStep U) st

/-- The end of the text. -/
def lexEnd : LexState → Option (List Tok)
  | (.start, out) => some out.reverse
  | (.word acc, out) => some (wordTok acc.reverse :: out).reverse
  | (.line, out) => some out.reverse
  | _ => none

/-- The tokens of a source text from a state on, Unicode escapes first. -/
def tokens (src : List Char) (st : LexState) : Option (List Tok) := do
  let cs ← translate src .plain
  let st ← lexRun U cs st
  lexEnd st

/-! ## Composition -/

theorem lexRun_append (a b : List Char) (st : LexState) :
    lexRun U (a ++ b) st = (lexRun U a st).bind (lexRun U b) := List.foldlM_append

theorem lexRun_cons (c : Char) (cs : List Char) (st : LexState) :
    lexRun U (c :: cs) st = (lexStep U st c).bind (lexRun U cs) := List.foldlM_cons

theorem translate_append {a : List Char} (ha : '\\' ∉ a) (b : List Char) :
    translate (a ++ b) .plain = (translate b .plain).map (a ++ ·) := by
  induction a with
  | nil => simp
  | cons c a ih =>
    simp only [List.mem_cons, not_or] at ha
    rw [List.cons_append, translate, if_neg (Ne.symm ha.1), ih ha.2, Option.map_map]
    rfl

/-- A stretch of text without backslashes takes the lexer from one state to another. -/
theorem tokens_append {a : List Char} {st st' : LexState} (ha : '\\' ∉ a)
    (hrun : lexRun U a st = some st') (b : List Char) : tokens U (a ++ b) st = tokens U b st' := by
  unfold tokens
  rw [translate_append ha]
  cases translate b .plain with
  | none => rfl
  | some cs => simp [lexRun_append, hrun]

/-- The tokens read so far play no part in what is read next. -/
theorem lexStep_out (m : LexMode) (out out' : List Tok) (c : Char) :
    lexStep U (m, out ++ out') c = (lexStep U (m, out) c).map fun st => (st.1, st.2 ++ out') := by
  have hstart : ∀ o : List Tok, startStep U (o ++ out') c =
      (startStep U o c).map fun st => (st.1, st.2 ++ out') := fun o => by
    unfold startStep
    split_ifs <;> rfl
  have hplain : ∀ acc, litPlainStep (out ++ out') acc c =
      (litPlainStep out acc c).map fun st => (st.1, st.2 ++ out') := fun acc => by
    unfold litPlainStep
    split_ifs <;> rfl
  cases m with
  | start => exact hstart out
  | word acc =>
    simp only [lexStep]
    split
    · rfl
    · exact hstart (_ :: out)
  | lit m acc =>
    cases m with
    | plain => exact hplain acc
    | esc =>
      simp only [lexStep, litStep]
      cases simpleEscape? c with
      | some e => rfl
      | none => cases octalDigit? c <;> rfl
    | oct v more =>
      simp only [lexStep, litStep]
      split
      · rfl
      · exact hplain _
  | slash =>
    simp only [lexStep]
    split_ifs <;> rfl
  | line => rfl
  | block => rfl
  | star => rfl

theorem lexRun_out : ∀ (cs : List Char) (m : LexMode) (out out' : List Tok),
    lexRun U cs (m, out ++ out') =
      (lexRun U cs (m, out)).map fun st => (st.1, st.2 ++ out')
  | [], m, out, out' => rfl
  | c :: cs, m, out, out' => by
    rw [lexRun_cons, lexRun_cons, lexStep_out]
    cases lexStep U (m, out) c with
    | none => rfl
    | some st => exact lexRun_out cs st.1 st.2 out'

theorem lexEnd_out (m : LexMode) (out out' : List Tok) :
    lexEnd (m, out ++ out') = (lexEnd (m, out)).map (out'.reverse ++ ·) := by
  cases m <;> simp [lexEnd]

theorem tokens_out (src : List Char) (m : LexMode) (out : List Tok) :
    tokens U src (m, out) = (tokens U src (m, [])).map (out.reverse ++ ·) := by
  unfold tokens
  cases translate src .plain with
  | none => rfl
  | some cs =>
    have h := lexRun_out U cs m [] out
    rw [List.nil_append] at h
    simp only [Option.bind_eq_bind, Option.bind_some, h]
    cases lexRun U cs (m, []) with
    | none => rfl
    | some st => exact lexEnd_out st.1 st.2 out

theorem tokens_out_eq_some {src : List Char} {m : LexMode} {out ts : List Tok} :
    tokens U src (m, out) = some (out.reverse ++ ts) ↔ tokens U src (m, []) = some ts := by
  rw [tokens_out, Option.map_eq_some_iff]
  simp

/-! ## String literals -/

/-- No quote, no backslash, no line terminator: the text of a literal that needs no escape. -/
def Plain (s : List Char) : Prop := ∀ c ∈ s, c ≠ '"' ∧ c ≠ '\\' ∧ isNewline c = false

instance : DecidablePred Plain := fun s => List.decidableBAll
  (fun c => c ≠ '"' ∧ c ≠ '\\' ∧ isNewline c = false) s

theorem Plain.no_backslash {s : List Char} (h : Plain s) : '\\' ∉ s := fun hm => (h _ hm).2.1 rfl

theorem lexRun_plain : ∀ {s : List Char}, Plain s → ∀ (acc : List Char) (out : List Tok),
    lexRun U s (.lit .plain acc, out) = some (.lit .plain (s.reverse ++ acc), out)
  | [], _, _, _ => rfl
  | c :: s, h, acc, out => by
    obtain ⟨hq, hb, hn⟩ := h c List.mem_cons_self
    have hs : Plain s := fun x hx => h x (List.mem_cons_of_mem c hx)
    rw [lexRun_cons]
    simp only [lexStep, litStep, litPlainStep, hq, hb, hn, if_false, Bool.false_eq_true,
      Option.bind_some]
    rw [lexRun_plain hs]
    simp

/-- How many characters of the text a mode has used up beyond those it has decoded. -/
def LitMode.pending : LitMode → Nat
  | .plain => 0
  | .esc => 1
  | .oct _ _ => 2

/-- A quote in the text stands, after translation, no later than before. -/
theorem translate_quote : ∀ {cs : List Char} {um : UMode} {ds a b : List Char},
    translate cs um = some ds → cs = a ++ '"' :: b →
      ∃ a' b', ds = a' ++ '"' :: b' ∧
        a'.length ≤ a.length + (match um with | .back => 1 | _ => 0)
  | [], _, _, _, _, _, h => by simp at h
  | c :: cs, .plain, ds, a, b, ht, h => by
    simp only [translate] at ht
    cases a with
    | nil =>
      obtain ⟨rfl, rfl⟩ : c = '"' ∧ cs = b := by simpa using h
      simp only [Char.reduceEq, if_false, Option.map_eq_some_iff] at ht
      obtain ⟨ds', -, rfl⟩ := ht
      exact ⟨[], ds', rfl, by simp⟩
    | cons x a =>
      obtain ⟨rfl, rfl⟩ : c = x ∧ cs = a ++ '"' :: b := by simpa using h
      split at ht
      · obtain ⟨a', b', h1, h2⟩ := translate_quote ht rfl
        exact ⟨a', b', h1, by simpa using h2⟩
      · obtain ⟨ds', ht', rfl⟩ := Option.map_eq_some_iff.1 ht
        obtain ⟨a', b', rfl, h2⟩ := translate_quote ht' rfl
        exact ⟨c :: a', b', rfl, by simpa using h2⟩
  | c :: cs, .back, ds, a, b, ht, h => by
    simp only [translate] at ht
    cases a with
    | nil =>
      obtain ⟨rfl, rfl⟩ : c = '"' ∧ cs = b := by simpa using h
      simp only [Char.reduceEq, if_false, Option.map_eq_some_iff] at ht
      obtain ⟨ds', -, rfl⟩ := ht
      exact ⟨['\\'], ds', rfl, by simp⟩
    | cons x a =>
      obtain ⟨rfl, rfl⟩ : c = x ∧ cs = a ++ '"' :: b := by simpa using h
      split at ht
      · obtain ⟨a', b', h1, h2⟩ := translate_quote ht rfl
        exact ⟨a', b', h1, by simp at h2 ⊢; omega⟩
      · obtain ⟨ds', ht', rfl⟩ := Option.map_eq_some_iff.1 ht
        obtain ⟨a', b', rfl, h2⟩ := translate_quote ht' rfl
        exact ⟨'\\' :: c :: a', b', rfl, by simpa using h2⟩
  | c :: cs, .uni n v, ds, a, b, ht, h => by
    simp only [translate] at ht
    cases a with
    | nil =>
      obtain ⟨rfl, rfl⟩ : c = '"' ∧ cs = b := by simpa using h
      have hhex : hexDigit? '"' = none := by decide
      simp [hhex] at ht
    | cons x a =>
      obtain ⟨rfl, rfl⟩ : c = x ∧ cs = a ++ '"' :: b := by simpa using h
      split at ht
      · obtain ⟨a', b', h1, h2⟩ := translate_quote ht rfl
        exact ⟨a', b', h1, by simp at h2 ⊢; omega⟩
      · split at ht
        · simp at ht
        · split at ht
          · obtain ⟨a', b', h1, h2⟩ := translate_quote ht rfl
            exact ⟨a', b', h1, by simp at h2 ⊢; omega⟩
          · split at ht
            · obtain ⟨ds', ht', rfl⟩ := Option.map_eq_some_iff.1 ht
              obtain ⟨a', b', rfl, h2⟩ := translate_quote ht' rfl
              exact ⟨_ :: a', b', rfl, by simpa using h2⟩
            · simp at ht

/-- What is left of a text, read to its end. -/
def readFrom (ds : List Char) (st : LexState) : Option (List Tok) := (lexRun U ds st).bind lexEnd

theorem readFrom_cons (c : Char) (ds : List Char) (st : LexState) :
    readFrom U (c :: ds) st = (lexStep U st c).bind (readFrom U ds) := by
  rw [readFrom, lexRun_cons]
  cases lexStep U st c <;> rfl

/-- How a literal is read to its end: `body` up to the closing quote decodes to `d`. A quote inside
`body` decodes to a quote further left, and `d` is shorter than `body` unless nothing in it is
escaped. -/
structure LitRead (ds : List Char) (m : LitMode) (acc : List Char) (out res : List Tok)
    (body rest d : List Char) : Prop where
  split : ds = body ++ '"' :: rest
  tail : readFrom U rest (.start, .str (String.ofList (acc.reverse ++ d)) :: out) = some res
  quote : ∀ a b, body = a ++ '"' :: b →
    ∃ a₁ b₁, d = a₁ ++ '"' :: b₁ ∧ a₁.length < a.length + m.pending
  length : (m = .plain ∧ d = body ∧ Plain body) ∨ d.length < body.length + m.pending

section
variable {U} {ds acc : List Char} {out res : List Tok} {body rest d : List Char}

/-- One more character in front that decodes to itself. -/
theorem LitRead.plain {c : Char} (hq : c ≠ '"') (hb : c ≠ '\\') (hn : isNewline c = false)
    (h : LitRead U ds .plain (c :: acc) out res body rest d) :
    LitRead U (c :: ds) .plain acc out res (c :: body) rest (c :: d) where
  split := by rw [h.split]; rfl
  tail := by simpa using h.tail
  quote a b hab := by
    cases a with
    | nil => exact absurd (by simpa using (List.cons.inj hab).1) hq
    | cons x a =>
      obtain ⟨a₁, b₁, hd, hlt⟩ := h.quote a b (List.cons.inj hab).2
      refine ⟨c :: a₁, b₁, by rw [hd]; rfl, ?_⟩
      simp only [List.length_cons, LitMode.pending] at hlt ⊢
      omega
  length := by
    rcases h.length with ⟨-, hd, hp⟩ | hlt
    · refine Or.inl ⟨rfl, by rw [hd], ?_⟩
      simp only [Plain, List.mem_cons, forall_eq_or_imp]
      exact ⟨⟨hq, hb, hn⟩, hp⟩
    · exact Or.inr (by simpa [LitMode.pending] using hlt)

/-- One more character in front that decodes to nothing yet. -/
theorem LitRead.pend {c : Char} {m m' : LitMode} (hq : c ≠ '"') (hm : m'.pending ≤ m.pending + 1)
    (hm' : m' ≠ .plain) (h : LitRead U ds m' acc out res body rest d) :
    LitRead U (c :: ds) m acc out res (c :: body) rest d where
  split := by rw [h.split]; rfl
  tail := h.tail
  quote a b hab := by
    cases a with
    | nil => exact absurd (by simpa using (List.cons.inj hab).1) hq
    | cons x a =>
      obtain ⟨a₁, b₁, hd, hlt⟩ := h.quote a b (List.cons.inj hab).2
      exact ⟨a₁, b₁, hd, by simp only [List.length_cons]; omega⟩
  length := by
    rcases h.length with ⟨hp, -⟩ | hlt
    · exact absurd hp hm'
    · exact Or.inr (by simp only [List.length_cons]; omega)

/-- The character after a backslash, decoded on its own. -/
theorem LitRead.escape {c e : Char} (he : simpleEscape? c = some e)
    (h : LitRead U ds .plain (e :: acc) out res body rest d) :
    LitRead U (c :: ds) .esc acc out res (c :: body) rest (e :: d) where
  split := by rw [h.split]; rfl
  tail := by simpa using h.tail
  quote a b hab := by
    cases a with
    | nil =>
      obtain ⟨rfl, -⟩ := List.cons.inj hab
      obtain rfl : '"' = e := by simpa [simpleEscape?] using he
      exact ⟨[], d, rfl, by simp [LitMode.pending]⟩
    | cons x a =>
      obtain ⟨a₁, b₁, hd, hlt⟩ := h.quote a b (List.cons.inj hab).2
      refine ⟨e :: a₁, b₁, by rw [hd]; rfl, ?_⟩
      simp only [List.length_cons, LitMode.pending] at hlt ⊢
      omega
  length := by
    refine Or.inr ?_
    rcases h.length with ⟨-, hd, -⟩ | hlt
    · simp [hd, LitMode.pending]
    · simp only [List.length_cons, LitMode.pending] at hlt ⊢
      omega

/-- The end of an octal escape, decoded before what follows it. -/
theorem LitRead.octal {v more : Nat}
    (h : LitRead U ds .plain (Char.ofNat v :: acc) out res body rest d) :
    LitRead U ds (.oct v more) acc out res body rest (Char.ofNat v :: d) where
  split := h.split
  tail := by simpa using h.tail
  quote a b hab := by
    obtain ⟨a₁, b₁, hd, hlt⟩ := h.quote a b hab
    refine ⟨Char.ofNat v :: a₁, b₁, by rw [hd]; rfl, ?_⟩
    simp only [List.length_cons, LitMode.pending] at hlt ⊢
    omega
  length := by
    refine Or.inr ?_
    rcases h.length with ⟨-, hd, -⟩ | hlt
    · simp [hd, LitMode.pending]
    · simp only [List.length_cons, LitMode.pending] at hlt ⊢
      omega

end

/-- A text that is read to its end from inside a literal closes that literal. -/
theorem litRead_of_readFrom : ∀ (ds : List Char) (m : LitMode) (acc : List Char) (out res : List Tok),
    readFrom U ds (.lit m acc, out) = some res →
      ∃ body rest d, LitRead U ds m acc out res body rest d
  | [], m, acc, out, res, h => by simp [readFrom, lexRun, lexEnd] at h
  | c :: ds, m, acc, out, res, h => by
    have ih := litRead_of_readFrom ds
    -- a character outside an escape, in plain mode or after an octal escape
    have hplain : ∀ acc, (litPlainStep out acc c).bind (readFrom U ds) = some res →
        ∃ body rest d, LitRead U (c :: ds) .plain acc out res body rest d := by
      intro acc h'
      unfold litPlainStep at h'
      split_ifs at h' with hq hb hn
      · subst hq
        exact ⟨[], ds, [], rfl, by simpa using h', by simp, Or.inl ⟨rfl, rfl, by simp [Plain]⟩⟩
      · obtain ⟨body, rest, d, hr⟩ := ih _ _ _ _ h'
        exact ⟨c :: body, rest, d, hr.pend hq (by simp [LitMode.pending]) (by simp)⟩
      · simp at h'
      · obtain ⟨body, rest, d, hr⟩ := ih _ _ _ _ h'
        exact ⟨c :: body, rest, c :: d, hr.plain hq hb (by simpa using hn)⟩
    rw [readFrom_cons] at h
    cases m with
    | plain => exact hplain acc h
    | esc =>
      simp only [lexStep, litStep] at h
      cases he : simpleEscape? c with
      | some e =>
        rw [he] at h
        obtain ⟨body, rest, d, hr⟩ := ih _ _ _ _ h
        exact ⟨c :: body, rest, e :: d, hr.escape he⟩
      | none =>
        rw [he] at h
        have hq : c ≠ '"' := by rintro rfl; simp [simpleEscape?] at he
        cases ho : octalDigit? c with
        | none => simp [ho] at h
        | some v =>
          rw [ho] at h
          obtain ⟨body, rest, d, hr⟩ := ih _ _ _ _ h
          exact ⟨c :: body, rest, d, hr.pend hq (by simp [LitMode.pending]) (by simp)⟩
    | oct v more =>
      simp only [lexStep, litStep] at h
      split at h
      next v' more' ho =>
        have hq : c ≠ '"' := by rintro rfl; simp [show octalDigit? '"' = none by decide] at ho
        obtain ⟨body, rest, d, hr⟩ := ih _ _ _ _ h
        exact ⟨c :: body, rest, d, hr.pend hq (by simp [LitMode.pending]) (by simp)⟩
      · obtain ⟨body, rest, d, hr⟩ := hplain _ h
        exact ⟨body, rest, _ :: d, hr.octal⟩

theorem readFrom_head {rest : List Char} {t : Tok} {ts : List Tok}
    (h : readFrom U rest (.start, [t]) = some ts) : ts.head? = some t := by
  have hrun := lexRun_out U rest .start [] [t]
  rw [List.nil_append] at hrun
  rw [readFrom, hrun] at h
  cases hr : lexRun U rest (.start, []) with
  | none => simp [hr] at h
  | some st =>
    simp only [hr, Option.map_some, Option.bind_some] at h
    rw [lexEnd_out, Option.map_eq_some_iff] at h
    obtain ⟨ts', -, rfl⟩ := h
    simp

/-- A text between quotes reads back as itself only if it is plain. -/
theorem plain_of_tokens {s rest : List Char} {ts : List Tok}
    (h : tokens U (s ++ '"' :: rest) (.lit .plain [], []) = some (.str (String.ofList s) :: ts)) :
    Plain s := by
  obtain ⟨ds, hds, h⟩ := Option.bind_eq_some_iff.1 h
  obtain ⟨body, rest', d, hr⟩ := litRead_of_readFrom U ds .plain [] [] _ h
  have hd : d = s := by simpa [String.ofList_inj] using (readFrom_head U hr.tail).symm
  rcases hr.length with ⟨-, hdb, hp⟩ | hlt
  · rw [← hd, hdb]; exact hp
  -- the literal runs past the closing quote of `s`; descend from that quote
  exfalso
  have hdesc : ∀ (n : Nat) (a b : List Char), a.length = n → n ≤ s.length →
      s ++ '"' :: rest ≠ a ++ '"' :: b := by
    intro n
    induction n using Nat.strongRecOn with
    | _ n ih =>
    intro a b hn hle hab
    obtain ⟨a₁, b₁, hz, hle₁⟩ := translate_quote hds hab
    simp only [LitMode.pending, Nat.add_zero, hd] at hlt hle₁
    -- that quote is not the closing one, so it lies inside the body
    have hpre₁ : a₁ ++ ['"'] <+: ds := ⟨b₁, by rw [hz]; simp⟩
    have hpre : a₁ ++ ['"'] <+: body :=
      List.prefix_of_prefix_length_le hpre₁ ⟨'"' :: rest', hr.split.symm⟩ (by simp; omega)
    obtain ⟨b₂, hbody⟩ := hpre
    obtain ⟨a₃, b₃, hda, hlt₃⟩ := hr.quote a₁ b₂ (by rw [← hbody]; simp)
    simp only [LitMode.pending, Nat.add_zero] at hlt₃
    refine ih a₃.length (by omega) a₃ (b₃ ++ '"' :: rest) rfl (by omega) ?_
    rw [← hd, hda]
    simp
  exact hdesc s.length s rest rfl (Nat.le_refl _) rfl

/-- **A text between quotes reads back as itself if and only if it is plain.** -/
theorem tokens_literal_iff {s rest : List Char} {ts : List Tok} :
    tokens U (s ++ '"' :: rest) (.lit .plain [], []) = some (.str (String.ofList s) :: ts) ↔
      Plain s ∧ tokens U rest (.start, []) = some ts := by
  have hquote : lexRun U ['"'] (.lit .plain s.reverse, []) =
      some (.start, [.str (String.ofList s)]) := by
    simp [lexRun, lexStep, litStep, litPlainStep]
  have hgo : Plain s → tokens U (s ++ '"' :: rest) (.lit .plain [], []) =
      tokens U rest (.start, [.str (String.ofList s)]) := fun hp => by
    rw [tokens_append U hp.no_backslash (lexRun_plain U hp [] []), List.append_nil,
      ← List.singleton_append, tokens_append U (by decide) hquote]
  constructor
  · intro h
    have hp := plain_of_tokens U h
    rw [hgo hp] at h
    exact ⟨hp, (tokens_out_eq_some U).1 h⟩
  · rintro ⟨hp, h⟩
    rw [hgo hp]
    exact (tokens_out_eq_some U).2 h

/-! ## Identifiers -/

/-- A word that is an identifier: well spelled and not reserved. -/
def Identifier (w : List Char) : Prop :=
  (∃ c ∈ w.head?, identStart U c = true) ∧ (∀ c ∈ w.tail, identPart U c = true) ∧ w ∉ keywords

/-- White space, quotes, slashes and symbols. -/
def nonIdent : List Char :=
  [' ', '\n', '\r', '\t', '\x0c', '"', '/', '\\', '.', ',', ';', '(', ')', '[', ']', '\x7b', '\x7d',
    '=']

theorem ident_nonIdent : ∀ c ∈ nonIdent, identStart U c = false ∧ identPart U c = false := by
  simp only [nonIdent, List.forall_mem_cons]
  refine ⟨⟨rfl, rfl⟩, ⟨rfl, rfl⟩, ⟨rfl, rfl⟩, ⟨rfl, rfl⟩, ⟨rfl, rfl⟩, ⟨rfl, rfl⟩, ⟨rfl, rfl⟩,
    ⟨rfl, rfl⟩, ⟨rfl, rfl⟩, ⟨rfl, rfl⟩, ⟨rfl, rfl⟩, ⟨rfl, rfl⟩, ⟨rfl, rfl⟩, ⟨rfl, rfl⟩,
    ⟨rfl, rfl⟩, ⟨rfl, rfl⟩, ⟨rfl, rfl⟩, ⟨rfl, rfl⟩, by simp⟩

theorem mem_nonIdent {c : Char} (h : isSpace c = true ∨ isSymbol c = true) : c ∈ nonIdent := by
  rcases h with h | h
  · simp only [isSpace, Bool.or_eq_true, beq_iff_eq] at h
    rcases h with (((rfl | rfl) | rfl) | rfl) | rfl <;> simp [nonIdent]
  · simp only [isSymbol, List.contains_iff_mem, String.reduceToList] at h
    exact List.mem_append_right [' ', '\n', '\r', '\t', '\x0c', '"', '/', '\\'] h

/-- What starts an identifier starts nothing else. -/
theorem startStep_identStart {c : Char} (h : identStart U c = true) (out : List Tok) :
    startStep U out c = some (.word [c], out) := by
  have hnon : c ∉ nonIdent := fun hm => by
    simp [(ident_nonIdent U c hm).1] at h
  have hspace : isSpace c = false := by
    by_contra hs
    exact hnon (mem_nonIdent (Or.inl (by simpa using hs)))
  have hquote : c ≠ '"' := by rintro rfl; exact hnon (by decide)
  have hslash : c ≠ '/' := by rintro rfl; exact hnon (by decide)
  simp [startStep, hspace, hquote, hslash, h]

/-- What a lexer state has read, and what it is reading, are proper words. -/
def Spelled (st : LexState) : Prop :=
  (∀ w, Tok.ident w ∈ st.2 → Identifier U w.toList) ∧
    ∀ acc, st.1 = .word acc →
      (∃ c ∈ acc.reverse.head?, identStart U c = true) ∧ ∀ c ∈ acc.reverse.tail, identPart U c = true

theorem wordTok_ident {acc : List Char} {w : String} (h : Tok.ident w = wordTok acc) :
    w.toList = acc ∧ acc ∉ keywords := by
  unfold wordTok at h
  split_ifs at h with hk
  obtain rfl := Tok.ident.inj h
  exact ⟨String.toList_ofList, hk⟩

/-- The word a state has read so far can be closed. -/
theorem Spelled.close {acc : List Char} {out : List Tok} (h : Spelled U (.word acc, out)) :
    ∀ w, Tok.ident w ∈ wordTok acc.reverse :: out → Identifier U w.toList := by
  intro w hw
  rcases List.mem_cons.1 hw with hw | hw
  · obtain ⟨hacc, hk⟩ := wordTok_ident hw
    obtain ⟨hs, hp⟩ := h.2 acc rfl
    rw [hacc]
    exact ⟨hs, hp, hk⟩
  · exact h.1 w hw

theorem Spelled.startStep {out : List Tok} (h : ∀ w, Tok.ident w ∈ out → Identifier U w.toList)
    {c : Char} {st : LexState} (hst : startStep U out c = some st) : Spelled U st := by
  unfold JavaSource.startStep at hst
  split_ifs at hst with h1 h2 h3 h4 h5
  all_goals try cases hst
  · exact ⟨h, by simp⟩
  · exact ⟨h, by simp⟩
  · exact ⟨h, by simp⟩
  · refine ⟨h, ?_⟩
    rintro _ ⟨⟩
    exact ⟨⟨c, rfl, h4⟩, by simp⟩
  · exact ⟨by simpa using h, by simp⟩

theorem Spelled.litPlainStep {out : List Tok} (h : ∀ w, Tok.ident w ∈ out → Identifier U w.toList)
    {acc : List Char} {c : Char} {st : LexState} (hst : litPlainStep out acc c = some st) :
    Spelled U st := by
  unfold JavaSource.litPlainStep at hst
  split_ifs at hst
  all_goals try cases hst
  · exact ⟨by simpa using h, by simp⟩
  · exact ⟨h, by simp⟩
  · exact ⟨h, by simp⟩

theorem Spelled.step {st st' : LexState} {c : Char} (h : Spelled U st)
    (hst : lexStep U st c = some st') : Spelled U st' := by
  obtain ⟨m, out⟩ := st
  cases m with
  | start => exact Spelled.startStep U h.1 hst
  | word acc =>
    simp only [lexStep] at hst
    split at hst
    next hc =>
      cases hst
      refine ⟨h.1, ?_⟩
      rintro _ ⟨⟩
      obtain ⟨⟨x, hx, hs⟩, hp⟩ := h.2 acc rfl
      obtain ⟨tl, htl⟩ : ∃ tl, acc.reverse = x :: tl := by
        cases hr : acc.reverse with
        | nil => simp [hr] at hx
        | cons y tl => exact ⟨tl, by simp_all⟩
      simp only [htl, List.tail_cons] at hp
      refine ⟨⟨x, by simp [htl], hs⟩, ?_⟩
      simp only [List.reverse_cons, htl, List.cons_append, List.tail_cons, List.mem_append,
        List.mem_singleton]
      rintro y (hy | rfl)
      · exact hp y hy
      · exact hc
    next => exact Spelled.startStep U (h.close U) hst
  | lit m acc =>
    cases m with
    | plain => exact Spelled.litPlainStep U h.1 hst
    | esc =>
      simp only [lexStep, litStep] at hst
      split at hst
      · cases hst
        exact ⟨h.1, by simp⟩
      · obtain ⟨d, -, rfl⟩ := Option.map_eq_some_iff.1 hst
        exact ⟨h.1, by simp⟩
    | oct v more =>
      simp only [lexStep, litStep] at hst
      split at hst
      · cases hst
        exact ⟨h.1, by simp⟩
      · exact Spelled.litPlainStep U h.1 hst
  | slash =>
    simp only [lexStep] at hst
    split_ifs at hst
    all_goals try cases hst
    all_goals exact ⟨h.1, by simp⟩
  | line =>
    cases hst
    refine ⟨h.1, fun acc hacc => ?_⟩
    simp only at hacc
    split_ifs at hacc
  | block =>
    cases hst
    refine ⟨h.1, fun acc hacc => ?_⟩
    simp only at hacc
    split_ifs at hacc
  | star =>
    cases hst
    refine ⟨h.1, fun acc hacc => ?_⟩
    simp only at hacc
    split_ifs at hacc

theorem Spelled.run : ∀ {cs : List Char} {st st' : LexState}, Spelled U st →
    lexRun U cs st = some st' → Spelled U st'
  | [], _, _, h, hst => by cases hst; exact h
  | c :: cs, st, st', h, hst => by
    rw [lexRun_cons, Option.bind_eq_some_iff] at hst
    obtain ⟨st₁, h1, h2⟩ := hst
    exact Spelled.run (h.step U h1) h2

/-- Every identifier among the tokens of a text is one. -/
theorem identifier_of_tokens {src : List Char} {ts : List Tok} {w : String}
    (h : tokens U src (.start, []) = some ts) (hw : Tok.ident w ∈ ts) : Identifier U w.toList := by
  obtain ⟨cs, -, h⟩ := Option.bind_eq_some_iff.1 h
  obtain ⟨⟨m, out⟩, hrun, hend⟩ := Option.bind_eq_some_iff.1 h
  have hstart : Spelled U (.start, []) := ⟨by simp, by simp⟩
  have hsp : Spelled U (m, out) := hstart.run U hrun
  cases m with
  | start =>
    cases hend
    exact hsp.1 w (by simpa using hw)
  | word acc =>
    cases hend
    exact hsp.close U w (List.mem_reverse.1 hw)
  | line =>
    cases hend
    exact hsp.1 w (by simpa using hw)
  | _ => simp [lexEnd] at hend

theorem lexRun_word : ∀ {s : List Char}, (∀ c ∈ s, identPart U c = true) →
    ∀ (acc : List Char) (out : List Tok),
      lexRun U s (.word acc, out) = some (.word (s.reverse ++ acc), out)
  | [], _, _, _ => rfl
  | c :: s, h, acc, out => by
    rw [lexRun_cons]
    simp only [lexStep, h c List.mem_cons_self, if_true, Option.bind_some]
    rw [lexRun_word fun x hx => h x (List.mem_cons_of_mem c hx)]
    simp

/-- A character that ends a word: white space, or a symbol. -/
abbrev Delim := { c : Char // isSpace c = true ∨ isSymbol c = true }

/-- The tokens a delimiter stands for. -/
def Delim.toks (d : Delim) : List Tok := if isSpace d.1 then [] else [.sym d.1]

theorem Delim.startStep (d : Delim) (out : List Tok) :
    JavaSource.startStep U out d.1 = some (.start, d.toks.reverse ++ out) := by
  obtain ⟨c, hc⟩ := d
  by_cases hs : isSpace c = true
  · simp [JavaSource.startStep, Delim.toks, hs]
  · have hsym : isSymbol c = true := hc.resolve_left hs
    have hstart := (ident_nonIdent U c (mem_nonIdent hc)).1
    have hquote : c ≠ '"' := by rintro rfl; exact absurd hsym (by decide)
    have hslash : c ≠ '/' := by rintro rfl; exact absurd hsym (by decide)
    simp [JavaSource.startStep, Delim.toks, hs, hquote, hslash, hstart, hsym]

/-- An identifier up to the delimiter behind it. -/
theorem lexRun_identifier {w : List Char} (hw : Identifier U w) (d : Delim) :
    lexRun U (w ++ [d.1]) (.start, []) =
      some (.start, d.toks.reverse ++ [.ident (String.ofList w)]) := by
  obtain ⟨⟨c, hc, hstart⟩, htail, hkey⟩ := hw
  obtain ⟨cs, rfl⟩ : ∃ cs, w = c :: cs := by
    cases w with
    | nil => simp at hc
    | cons x cs => exact ⟨cs, by simp_all⟩
  have hpart := (ident_nonIdent U d.1 (mem_nonIdent d.2)).2
  rw [List.cons_append, lexRun_cons, lexStep, startStep_identStart U hstart, Option.bind_some,
    lexRun_append, lexRun_word U (s := cs) htail, Option.bind_some, lexRun_cons]
  simp only [lexStep, hpart, Bool.false_eq_true, if_false, List.reverse_append, List.reverse_cons,
    List.reverse_nil, List.nil_append, List.reverse_reverse, List.singleton_append]
  rw [Delim.startStep]
  simp [wordTok, hkey, lexRun]

theorem Identifier.no_backslash {w : List Char} (hw : Identifier U w) : '\\' ∉ w := by
  obtain ⟨hstart, hpart⟩ := ident_nonIdent U '\\' (by decide)
  intro hm
  obtain ⟨⟨c, hc, hc'⟩, htail, -⟩ := hw
  cases w with
  | nil => simp at hm
  | cons x cs =>
    rcases List.mem_cons.1 hm with rfl | hm
    · obtain rfl : '\\' = c := by simpa using hc
      rw [hstart] at hc'
      exact Bool.false_ne_true hc'
    · have hp := htail _ hm
      rw [hpart] at hp
      exact Bool.false_ne_true hp

end JavaSource
