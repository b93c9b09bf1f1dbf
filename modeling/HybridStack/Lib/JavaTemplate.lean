import HybridStack.Lib.JavaStatements

/-!
# Source templates

A generator of Java source splices values into fixed text. `Template` keeps the two apart:
`Template.source` is the text that is emitted, and `Template.stmts` the statements it stands for,
each value being one literal or one name.

Main results:
- `Piece.tokens_iff`: one piece is read as intended, whatever follows it, if and only if its value
  is safe where it stands.
- **`Template.read_source_iff`**: the emitted text reads back as the statements the template stands
  for if and only if every spliced value is safe.
-/

namespace JavaSource

variable (U : UnicodeIdent)

/-! ## Templates -/

inductive Piece
  /-- Text of the template itself. -/
  | code (s : String)
  /-- A value between quotes. -/
  | str (s : String)
  /-- A value that is to be one identifier, and the delimiter behind it. -/
  | word (w : String) (d : Delim)

def Piece.text : Piece → List Char
  | .code s => s.toList
  | .str s => '"' :: (s.toList ++ ['"'])
  | .word w d => w.toList ++ [d.1]

def Piece.toks : Piece → List Tok
  | .code s => (tokens U s.toList (.start, [])).getD []
  | .str s => [.str s]
  | .word w d => .ident w :: d.toks

/-- The value of a piece cannot be taken for anything else. -/
def Piece.Safe : Piece → Prop
  | .code _ => True
  | .str s => Plain s.toList
  | .word w _ => Identifier U w.toList

abbrev Template := List Piece

/-- The text that is emitted. -/
def Template.source (t : Template) : String := String.ofList (t.flatMap Piece.text)

def Template.toks (t : Template) : List Tok := t.flatMap (Piece.toks U)

/-- The statements a template stands for. -/
def Template.stmts (t : Template) : Option (List Stmt) := parse (t.toks U)

def Template.Safe (t : Template) : Prop := ∀ p ∈ t, p.Safe U

/-! ## Fixed text -/

/-- A text is made of the tokens `ts` and joins no token around it. -/
structure Chunk (s : String) (ts : List Tok) : Prop where
  escape : '\\' ∉ s.toList
  run : lexRun U s.toList (.start, []) = some (.start, ts.reverse)

section
variable {U} {s : String} {ts : List Tok}

theorem Chunk.tokens_append (h : Chunk U s ts) (rest : List Char) :
    tokens U (s.toList ++ rest) (.start, []) = (tokens U rest (.start, [])).map (ts ++ ·) := by
  rw [JavaSource.tokens_append U h.escape h.run, tokens_out, List.reverse_reverse]

theorem Chunk.toks (h : Chunk U s ts) : (Piece.code s).toks U = ts := by
  have happ := h.tokens_append []
  rw [List.append_nil] at happ
  have hnil : tokens U [] (.start, []) = some [] := rfl
  simp [Piece.toks, happ, hnil]

end

/-- The fixed text of a piece joins no token around it. -/
def Piece.Fixed : Piece → Prop
  | .code s => ∃ ts, Chunk U s ts
  | _ => True

def Template.Fixed (t : Template) : Prop := ∀ p ∈ t, p.Fixed U

section
variable {U} {t₁ t₂ : Template} {p : Piece}

@[simp] theorem Template.toks_nil : Template.toks U [] = [] := rfl

@[simp] theorem Template.toks_cons :
    Template.toks U (p :: t₁) = p.toks U ++ Template.toks U t₁ := List.flatMap_cons

@[simp] theorem Template.toks_append :
    Template.toks U (t₁ ++ t₂) = Template.toks U t₁ ++ Template.toks U t₂ := List.flatMap_append

theorem Template.Fixed.append (h₁ : Template.Fixed U t₁) (h₂ : Template.Fixed U t₂) :
    Template.Fixed U (t₁ ++ t₂) := fun p hp => (List.mem_append.1 hp).elim (h₁ p) (h₂ p)

theorem Template.fixed_nil : Template.Fixed U [] := nofun

theorem Template.Fixed.cons (h : p.Fixed U) (h₁ : Template.Fixed U t₁) :
    Template.Fixed U (p :: t₁) := List.forall_mem_cons.2 ⟨h, h₁⟩

theorem Template.Fixed.flatMap {α : Type} {l : List α} {f : α → Template}
    (h : ∀ a ∈ l, Template.Fixed U (f a)) : Template.Fixed U (l.flatMap f) := fun p hp => by
  obtain ⟨a, ha, hpa⟩ := List.mem_flatMap.1 hp
  exact h a ha p hpa

end

/-! ## Reading a template back -/

theorem mem_of_toks_append {src : List Char} {w : String} {ts us : List Tok}
    (h : tokens U src (.start, []) = some (ts ++ us)) (hw : Tok.ident w ∈ ts) :
    Identifier U w.toList := identifier_of_tokens U h (List.mem_append_left us hw)

/-- A piece is read as intended, whatever follows it, if and only if its value is safe. -/
theorem Piece.tokens_iff {p : Piece} (hp : p.Fixed U) {rest : List Char} {ts : List Tok} :
    tokens U (p.text ++ rest) (.start, []) = some (p.toks U ++ ts) ↔
      p.Safe U ∧ tokens U rest (.start, []) = some ts := by
  cases p with
  | code s =>
    obtain ⟨us, hus⟩ := hp
    rw [Piece.text, hus.tokens_append, hus.toks, Option.map_eq_some_iff]
    simp [Piece.Safe]
  | str s =>
    have hopen : lexRun U ['"'] (.start, []) = some (.lit .plain [], []) := rfl
    have htext : (Piece.str s).text ++ rest = ['"'] ++ (s.toList ++ '"' :: rest) := by
      simp [Piece.text]
    have hlit : tokens U (s.toList ++ '"' :: rest) (.lit .plain [], []) =
        some (.str (String.ofList s.toList) :: ts) ↔ Plain s.toList ∧
          tokens U rest (.start, []) = some ts := tokens_literal_iff U
    rw [String.ofList_toList] at hlit
    rw [htext, tokens_append U (by decide) hopen]
    exact hlit
  | word w d =>
    have hrun : Identifier U w.toList → tokens U ((Piece.word w d).text ++ rest) (.start, []) =
        (tokens U rest (.start, [])).map ((Piece.word w d).toks U ++ ·) := fun hw => by
      have hd : '\\' ≠ d.1 := by
        rintro hd
        exact absurd d.2 (hd ▸ by decide)
      rw [Piece.text, tokens_append U (by simp [hw.no_backslash U, hd]) (lexRun_identifier U hw d),
        tokens_out, String.ofList_toList]
      simp [Piece.toks]
    constructor
    · intro h
      have hw : Identifier U w.toList := mem_of_toks_append U h List.mem_cons_self
      refine ⟨hw, ?_⟩
      rw [hrun hw, Option.map_eq_some_iff] at h
      obtain ⟨ts', hts', heq⟩ := h
      rw [hts', List.append_cancel_left heq]
    · rintro ⟨hw, h⟩
      rw [hrun hw, h, Option.map_some]

theorem Template.tokens_iff : ∀ {t : Template}, Template.Fixed U t →
    (tokens U (t.flatMap Piece.text) (.start, []) = some (Template.toks U t) ↔ Template.Safe U t)
  | [], _ => by
    simp only [List.flatMap_nil, Template.toks_nil, Template.Safe, List.not_mem_nil, false_imp_iff,
      implies_true, iff_true]
    rfl
  | p :: t, h => by
    obtain ⟨hp, ht⟩ := List.forall_mem_cons.1 h
    rw [List.flatMap_cons, Template.toks_cons, p.tokens_iff U hp, Template.tokens_iff ht]
    simp [Template.Safe]

/-- **An emitted text reads back as intended if and only if every spliced value is safe.** -/
theorem Template.read_source_iff {t : Template} (ht : Template.Fixed U t) {ss : List Stmt}
    (hss : t.stmts U = some ss) : read U t.source = some ss ↔ Template.Safe U t := by
  rw [read_eq_some_iff, Template.source, String.toList_ofList, ← parse_eq_some_iff.1 hss,
    Template.tokens_iff U ht]

end JavaSource
