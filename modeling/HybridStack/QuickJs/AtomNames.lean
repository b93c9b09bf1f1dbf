import HybridStack.QuickJs.Atoms

/-!
# What atoms stand for

An atom stands for a string: that of its struct, or the digits of the integer that it is itself.

| here | there |
| --- | --- |
| `decimal` | `snprintf` with `"%u"`, quickjs.c:3092 |
| `atomToValue` | `__JS_AtomToValue`, quickjs.c:3087-3112 |

- `isNumString_eq_some_iff`: a string is taken for a number just when it is the decimal of one.
- `atomToValue_injective`: no string has two atoms.
- `newAtomStr_interned`, `newAtomStr_found`: a string gets the atom it has, or a new one.
- `newAtomLen_interned`: so does a name in UTF-8, but for one whose bytes are the units of an 8 bit
  string: it gets the atom of that.
- `newStringLen_units_eq_iff`: that is another string unless the name is ASCII.
-/

namespace HybridStack.QuickJs.Atoms

open HashChains Strings ReadAll
open Atoms.Runtime (isConst isDigit storedType)

/-! ## Numbers -/

/-- `snprintf` with `"%u"`. -/
def decimal (n : Nat) : List UInt16 := (Nat.toDigits 10 n).map fun c => .ofNat c.toNat

abbrev Digit (c : UInt16) : Prop := 48 ≤ c.toNat ∧ c.toNat ≤ 57

/-- One more digit. -/
def numStep (n : Nat) (c : UInt16) : Nat := n * 10 + (c.toNat - 48)

theorem toNat_digitChar {d : Nat} (hd : d < 10) : (UInt16.ofNat (Nat.digitChar d).toNat).toNat = 48 + d := by
  rw [Nat.toNat_digitChar_of_lt_ten hd, UInt16.toNat_ofNat']
  omega

theorem decimal_digit {d : Nat} (hd : d < 10) : decimal d = [.ofNat (Nat.digitChar d).toNat] := by
  unfold decimal
  rw [Nat.toDigits_of_lt_base hd]
  rfl

theorem decimal_append {n d : Nat} (hn : 0 < n) (hd : d < 10) :
    decimal (n * 10 + d) = decimal n ++ decimal d := by
  unfold decimal
  rw [Nat.mul_comm, ← Nat.toDigits_append_toDigits (by decide) hn hd, List.map_append]

/-- A number is a digit, or one more digit behind a number. -/
theorem decimal_induct {P : Nat → Prop} (hdigit : ∀ d, d < 10 → P d)
    (hmore : ∀ n d, 0 < n → d < 10 → P n → P (n * 10 + d)) (n : Nat) : P n := by
  induction n using Nat.strongRecOn with
  | ind n ih =>
    by_cases hn : n < 10
    · exact hdigit n hn
    · have heq : n / 10 * 10 + n % 10 = n := Nat.div_add_mod' n 10
      rw [← heq]
      exact hmore _ _ (by omega) (by omega) (ih _ (by omega))

theorem foldl_decimal (n : Nat) : (decimal n).foldl numStep 0 = n := by
  induction n using decimal_induct with
  | hdigit d hd =>
    rw [decimal_digit hd]
    show 0 * 10 + ((UInt16.ofNat (Nat.digitChar d).toNat).toNat - 48) = d
    rw [toNat_digitChar hd]
    omega
  | hmore n d hn hd ih =>
    rw [decimal_append hn hd, List.foldl_append, ih, decimal_digit hd]
    show n * 10 + ((UInt16.ofNat (Nat.digitChar d).toNat).toNat - 48) = n * 10 + d
    rw [toNat_digitChar hd]
    omega

theorem decimal_injective {m n : Nat} (h : decimal m = decimal n) : m = n := by
  rw [← foldl_decimal m, h, foldl_decimal]

theorem digit_decimal (n : Nat) : ∀ c ∈ decimal n, Digit c := by
  induction n using decimal_induct with
  | hdigit d hd =>
    intro c hc
    rw [decimal_digit hd] at hc
    obtain rfl := List.mem_singleton.1 hc
    unfold Digit
    rw [toNat_digitChar hd]
    omega
  | hmore n d hn hd ih =>
    intro c hc
    rw [decimal_append hn hd] at hc
    rcases List.mem_append.1 hc with hc | hc
    · exact ih c hc
    · rw [decimal_digit hd] at hc
      obtain rfl := List.mem_singleton.1 hc
      unfold Digit
      rw [toNat_digitChar hd]
      omega

/-- No number but zero begins with a zero. -/
theorem head_decimal (n : Nat) (hn : 0 < n) : ∃ c l, decimal n = c :: l ∧ c.toNat ≠ 48 := by
  induction n using decimal_induct with
  | hdigit d hd =>
    refine ⟨_, [], decimal_digit hd, ?_⟩
    rw [toNat_digitChar hd]
    omega
  | hmore n d hpos hd ih =>
    obtain ⟨c, l, heq, hc⟩ := ih hpos
    exact ⟨c, l ++ decimal d, by rw [decimal_append hpos hd, heq, List.cons_append], hc⟩

/-- Digits behind a number. -/
theorem decimal_foldl {l : List UInt16} (hl : ∀ c ∈ l, Digit c) {n : Nat} (hn : 0 < n) :
    decimal (l.foldl numStep n) = decimal n ++ l := by
  induction l generalizing n with
  | nil => rw [List.foldl_nil, List.append_nil]
  | cons c l ih =>
    obtain ⟨hlo, hhi⟩ := hl c List.mem_cons_self
    have hd : c.toNat - 48 < 10 := by omega
    have hc : UInt16.ofNat (Nat.digitChar (c.toNat - 48)).toNat = c := by
      rw [← UInt16.toNat_inj, toNat_digitChar hd]
      omega
    have hstep : decimal (numStep n c) = decimal n ++ [c] := by
      unfold numStep
      rw [decimal_append hn hd, decimal_digit hd, hc]
    rw [List.foldl_cons, ih (fun x hx => hl x (List.mem_cons_of_mem _ hx)) (by unfold numStep; omega),
      hstep, List.append_assoc, List.singleton_append]

theorem le_foldl_numStep (l : List UInt16) (n : Nat) : n ≤ l.foldl numStep n := by
  induction l generalizing n with
  | nil => exact Nat.le_refl n
  | cons c l ih =>
    have hle : n ≤ numStep n c := by
      unfold numStep
      omega
    exact hle.trans (ih _)

/-- The value only grows, so it is enough that it fits at the end. -/
theorem numLoop_eq_some_iff (l : List UInt16) {m n : Nat} (hm : m < 2 ^ 32) :
    numLoop m l = some n ↔ (∀ c ∈ l, Digit c) ∧ l.foldl numStep m = n ∧ n < 2 ^ 32 := by
  induction l generalizing m with
  | nil =>
    rw [numLoop, Option.some.injEq]
    constructor
    · rintro rfl
      exact ⟨fun c hc => absurd hc List.not_mem_nil, rfl, hm⟩
    · exact fun h => h.2.1
  | cons c l ih =>
    rw [numLoop, List.forall_mem_cons, List.foldl_cons]
    show (if Digit c then if numStep m c >>> 32 ≠ 0 then none else numLoop (numStep m c) l
      else none) = some n ↔ _
    have hshift : numStep m c >>> 32 ≠ 0 ↔ ¬ numStep m c < 2 ^ 32 := by
      rw [Nat.shiftRight_eq_div_pow]
      omega
    by_cases hc : Digit c
    · rw [if_pos hc]
      by_cases hfits : numStep m c < 2 ^ 32
      · rw [if_neg (not_not_intro hfits ∘ hshift.1), ih hfits, and_iff_right hc]
      · rw [if_pos (hshift.2 hfits)]
        constructor
        · rintro ⟨⟩
        · rintro ⟨-, rfl, hn⟩
          exact absurd (Nat.lt_of_le_of_lt (le_foldl_numStep l _) hn) hfits
    · rw [if_neg hc]
      constructor
      · rintro ⟨⟩
      · exact fun h => absurd h.1.1 hc

theorem length_decimal {n : Nat} (hn : n < 2 ^ 32) : (decimal n).length ≤ 10 := by
  unfold decimal
  rw [List.length_map]
  exact (Nat.length_toDigits_le_iff (by decide) (by decide)).2 (by omega)

/-- **A string is taken for a number** just when it is the decimal of one with 32 bits. -/
theorem isNumString_eq_some_iff (units : List UInt16) (n : Nat) :
    isNumString units = some n ↔ n < 2 ^ 32 ∧ units = decimal n := by
  have hzero : decimal 0 = [48] := by decide
  constructor
  · intro h
    unfold isNumString at h
    obtain ⟨-, h⟩ := Option.ite_none_left_eq_some.1 h
    cases units with
    | nil => cases h
    | cons c l =>
      obtain ⟨hdigit, h⟩ := Option.ite_none_right_eq_some.1 h
      split at h
      next hc =>
        obtain ⟨rfl, h⟩ := Option.ite_none_right_eq_some.1 h
        obtain rfl := Option.some.inj h
        refine ⟨by decide, ?_⟩
        rw [hzero, ← UInt16.toNat_inj.1 (hc.trans (by decide : 48 = (48 : UInt16).toNat))]
      next hc =>
        obtain ⟨hl, rfl, hn⟩ := (numLoop_eq_some_iff l (by omega)).1 h
        refine ⟨hn, ?_⟩
        have hd : c.toNat - 48 < 10 := by omega
        have hchar : UInt16.ofNat (Nat.digitChar (c.toNat - 48)).toNat = c := by
          rw [← UInt16.toNat_inj, toNat_digitChar hd]
          omega
        rw [decimal_foldl hl (by omega), decimal_digit hd, hchar, List.singleton_append]
  · rintro ⟨hn, rfl⟩
    unfold isNumString
    rw [if_neg (Nat.not_lt.2 (length_decimal hn))]
    rcases Nat.eq_zero_or_pos n with rfl | hpos
    · rw [hzero]
      decide
    · obtain ⟨c, l, heq, hc⟩ := head_decimal n hpos
      have hdigits := digit_decimal n
      have hvalue := foldl_decimal n
      rw [heq] at hdigits hvalue ⊢
      obtain ⟨hdigit, hl⟩ := List.forall_mem_cons.1 hdigits
      dsimp only
      rw [if_pos hdigit, if_neg hc]
      have hstart : numStep 0 c = c.toNat - 48 := by
        unfold numStep
        omega
      rw [List.foldl_cons, hstart] at hvalue
      exact (numLoop_eq_some_iff l (by have := hdigit.2; omega)).2 ⟨hl, hvalue, hn⟩

namespace Runtime

variable {rt rt' : Runtime} {predefined : Nat}

/-! ## What atoms stand for -/

/-- `__JS_AtomToValue`, of an atom that is no symbol. -/
def atomToValue (rt : Runtime) (a : Nat) : Option (List UInt16) :=
  if atomTagInt ≤ a then some (decimal (a - atomTagInt))
  else
    match rt.atom? a with
    | some p => if p.atomType = .string then some p.string.units else none
    | none => none

theorem atomToValue_int (n : Nat) : rt.atomToValue (atomTagInt + n) = some (decimal n) := by
  unfold atomToValue
  rw [if_pos (Nat.le_add_right _ _), Nat.add_sub_cancel_left]

theorem Inv.lt_atomTagInt (h : rt.Inv) {a : Nat} {p : AtomStruct} (hp : rt.atom? a = some p) :
    a < atomTagInt := by
  have hlt := lt_of_atom? hp
  have hsize := h.size
  unfold atomMax at hsize
  unfold atomTagInt
  omega

theorem atomToValue_of_atom? (h : rt.Inv) {a : Nat} {p : AtomStruct} (hp : rt.atom? a = some p)
    (htype : p.atomType = .string) : rt.atomToValue a = some p.string.units := by
  unfold atomToValue
  rw [if_neg (Nat.not_le.2 (h.lt_atomTagInt hp)), hp]
  exact if_pos htype

theorem atomToValue_cases {a : Nat} {units : List UInt16} (h : rt.atomToValue a = some units) :
    (∃ n, a = atomTagInt + n ∧ units = decimal n) ∨
      ∃ p, rt.atom? a = some p ∧ p.atomType = .string ∧ p.string.units = units := by
  unfold atomToValue at h
  split at h
  next hle => exact Or.inl ⟨a - atomTagInt, by omega, (Option.some.inj h).symm⟩
  next =>
    cases hp : rt.atom? a with
    | none =>
      rw [hp] at h
      cases h
    | some p =>
      rw [hp] at h
      obtain ⟨htype, h⟩ := Option.ite_none_right_eq_some.1 h
      exact Or.inr ⟨p, rfl, htype, Option.some.inj h⟩

/-- What an atom is for: it stands for one string, which no other atom stands for. -/
theorem atomToValue_injective (h : rt.Inv) {a b : Nat} {units : List UInt16}
    (ha : rt.atomToValue a = some units) (hb : rt.atomToValue b = some units)
    (hint : a < 2 ^ 32) (hint' : b < 2 ^ 32) : a = b := by
  have hnot : ∀ n i, atomTagInt + n < 2 ^ 32 → ∀ p, rt.atom? i = some p → p.atomType = .string →
      p.string.units ≠ decimal n := by
    intro n i hn p hp htype hunits
    have hle := h.numbers i p n hp htype
      ((isNumString_eq_some_iff _ n).2 ⟨by omega, hunits⟩)
    unfold atomTagInt at hn hle
    omega
  rcases atomToValue_cases ha with ⟨m, rfl, rfl⟩ | ⟨p, hp, htype, rfl⟩
  · rcases atomToValue_cases hb with ⟨n, rfl, heq⟩ | ⟨q, hq, htype, hunits⟩
    · rw [decimal_injective heq]
    · exact absurd hunits (hnot m b hint q hq htype)
  · rcases atomToValue_cases hb with ⟨n, rfl, heq⟩ | ⟨q, hq, htype', hunits⟩
    · exact absurd heq (hnot n a hint' p hp htype)
    · exact h.unique a b p q hp hq (by rw [htype]; rfl) (htype'.trans htype.symm) hunits

theorem Keeps.atomToValue (h : rt.Keeps rt') {a : Nat} {units : List UInt16}
    (ha : rt.atomToValue a = some units) : rt'.atomToValue a = some units := by
  unfold Runtime.atomToValue at ha ⊢
  by_cases hint : atomTagInt ≤ a
  · rw [if_pos hint] at ha ⊢
    exact ha
  · rw [if_neg hint] at ha ⊢
    cases hp : rt.atom? a with
    | none =>
      rw [hp] at ha
      cases ha
    | some p =>
      obtain ⟨p', hp', hs, ht⟩ := h a p hp
      rw [hp] at ha
      rw [hp']
      dsimp only at ha ⊢
      rw [hs, ht]
      exact ha

theorem Inv.dupAtom_keeps (h : rt.Inv) (a : Nat) : rt.Keeps (rt.dupAtom predefined a) := by
  unfold dupAtom
  split
  next => exact Keeps.refl rt
  next => exact (setRefCount_spec h a (· + 1) fun p _ => Nat.succ_pos _).2.1

/-! ## Interning -/

/-- An atom was made or found: nothing else has changed, and it stands for `units`. -/
structure Interned (predefined : Nat) (rt : Runtime) (r : Runtime × Nat) (units : List UInt16) :
    Prop where
  inv : r.1.Inv
  keeps : rt.Keeps r.1
  gains : Gains predefined rt r.1 r.2
  value : r.2 ≠ 0 → r.1.atomToValue r.2 = some units
  lt : r.2 < 2 ^ 32

theorem isConst_int (n : Nat) : isConst predefined (atomTagInt + n) = true := by
  unfold isConst
  exact decide_eq_true (Or.inr (Nat.le_add_right _ _))

theorem newAtomStr_interned (h : rt.Inv) (str : JSString) :
    Interned predefined rt (rt.newAtomStr predefined str) str.units := by
  have hnew : (∀ n, isNumString str.units = some n → atomTagInt ≤ n) →
      Interned predefined rt (rt.newAtom predefined str .string) str.units := by
    intro hnumbers
    obtain ⟨hinv, hkeeps, hgains, hatom⟩ : (rt.newAtom predefined str .string).1.Inv ∧ _ ∧
      Gains predefined rt _ _ ∧ _ := newAtom_spec h fun n _ => hnumbers n
    have hvalue : (rt.newAtom predefined str .string).2 ≠ 0 →
        ∃ p, (rt.newAtom predefined str .string).1.atom? (rt.newAtom predefined str .string).2 =
          some p ∧ p.atomType = .string ∧ p.string.units = str.units := hatom
    refine ⟨hinv, hkeeps, hgains, ?_, ?_⟩
    · intro h0
      obtain ⟨p, hp, htype, hunits⟩ := hvalue h0
      rw [atomToValue_of_atom? hinv hp htype, hunits]
    · by_cases h0 : (rt.newAtom predefined str .string).2 = 0
      · rw [h0]
        decide
      · obtain ⟨p, hp, -⟩ := hvalue h0
        have hlt := hinv.lt_atomTagInt hp
        unfold atomTagInt at hlt
        omega
  unfold newAtomStr
  split
  next n hn =>
    split
    next hlt =>
      obtain ⟨-, hunits⟩ := (isNumString_eq_some_iff _ n).1 hn
      refine ⟨h, Keeps.refl rt, ?_, ?_, ?_⟩
      · intro i hi
        rw [if_neg, Nat.add_zero]
        rintro rfl
        rw [isConst_int] at hi
        cases hi
      · intro _
        rw [atomToValue_int, hunits]
      · unfold atomTagInt at hlt ⊢
        omega
    next hlt =>
      apply hnew
      intro m hm
      rw [hn] at hm
      obtain rfl := Option.some.inj hm
      exact Nat.not_lt.1 hlt
  next hnone =>
    apply hnew
    intro m hm
    rw [hnone] at hm
    cases hm

theorem newAtom_ne_zero (h : rt.Inv) {str : JSString} {type : AtomType} (hh : type.hashed = true)
    {a : Nat} {p : AtomStruct} (hp : rt.atom? a = some p) (htype : p.atomType = type)
    (hunits : p.string.units = str.units) : (rt.newAtom predefined str type).2 ≠ 0 := by
  have hhash := h.hash_eq a p hp (htype ▸ hh)
  rw [htype, hunits] at hhash
  unfold newAtom
  rw [if_pos hh]
  dsimp only
  rcases lookup_spec h (hashString str.units type.code) fun q =>
    decide (q.hash = hashString str.units type.code ∧ q.atomType = type ∧ q.string.units = str.units)
    with ⟨-, hnone⟩ | ⟨hfound, -⟩
  · have hfalse := hnone a p hp (htype ▸ hh) hhash
    rw [decide_eq_false_iff_not] at hfalse
    exact absurd ⟨hhash, htype, hunits⟩ hfalse
  · rw [if_pos hfound]
    exact hfound

/-- A string that has an atom gets that one. -/
theorem newAtomStr_found (h : rt.Inv) {str : JSString} {a : Nat} (ha : rt.atomToValue a = some str.units)
    (hlt : a < 2 ^ 32) : (rt.newAtomStr predefined str).2 = a := by
  have hi : Interned predefined _ _ _ := newAtomStr_interned h str
  refine atomToValue_injective hi.inv (hi.value ?_) (hi.keeps.atomToValue ha) hi.lt hlt
  have htable : (∀ n, isNumString str.units = some n → atomTagInt ≤ n) →
      (rt.newAtom predefined str .string).2 ≠ 0 := by
    intro hnumbers
    rcases atomToValue_cases ha with ⟨n, rfl, hunits⟩ | ⟨p, hp, htype, hunits⟩
    · have hle := hnumbers n ((isNumString_eq_some_iff _ n).2 ⟨by omega, hunits⟩)
      unfold atomTagInt at hle hlt
      omega
    · exact newAtom_ne_zero h rfl hp htype hunits
  unfold newAtomStr
  split
  next n hn =>
    split
    next =>
      show atomTagInt + n ≠ 0
      unfold atomTagInt
      omega
    next hge =>
      apply htable
      intro m hm
      rw [hn] at hm
      exact Option.some.inj hm ▸ Nat.not_lt.1 hge
  next hnone =>
    apply htable
    intro m hm
    rw [hnone] at hm
    cases hm

/-! ## Names in UTF-8 -/

theorem isNumString_none {units : List UInt16} (h : ∀ c, units.head? = some c → ¬ Digit c) :
    isNumString units = none := by
  unfold isNumString
  split
  next => rfl
  next =>
    cases units with
    | nil => rfl
    | cons c l => exact if_neg (h c rfl)

theorem newAtomLen_interned (h : rt.Inv) (str : List UInt8) :
    (str.head?.any isDigit = true ∨ ¬ rt.HasBytes str →
      Interned predefined rt (rt.newAtomLen predefined str) (newStringLen str).units) ∧
    (str.head?.any isDigit = false → rt.HasBytes str →
      Interned predefined rt (rt.newAtomLen predefined str) (str.map UInt8.toUInt16) ∧
        (rt.newAtomLen predefined str).2 ≠ 0) := by
  have hnew : Interned predefined _ _ _ := newAtomStr_interned h (newStringLen str)
  unfold newAtomLen
  by_cases hd : str.head?.any isDigit = true
  · rw [if_pos hd]
    refine ⟨fun _ => hnew, ?_⟩
    intro hfalse
    rw [hd] at hfalse
    cases hfalse
  · rw [if_neg hd]
    dsimp only
    obtain ⟨hzero, -, hno⟩ | ⟨hfound, hhas, hinv, hkeeps, hgains, p, hp, htype, hunits⟩ :
        ((rt.findAtom predefined str).2 = 0 ∧ _) ∨ (_ ∧ _) := findAtom_spec h str
    · rw [if_neg (not_not_intro hzero)]
      exact ⟨fun _ => hnew, fun _ hhas => absurd hhas hno⟩
    · rw [if_pos hfound]
      constructor
      · rintro (hd' | hno)
        · exact absurd hd' hd
        · exact absurd hhas hno
      · intro _ _
        refine ⟨⟨hinv, hkeeps, hgains, ?_, ?_⟩, hfound⟩
        · intro _
          rw [atomToValue_of_atom? hinv hp htype, hunits]
        · have hlt := hinv.lt_atomTagInt hp
          unfold atomTagInt at hlt
          omega

end Runtime

/-! ### A string and its bytes -/

theorem continuation_length {l c c' : Nat} {p rest : List UInt8}
    (h : continuation l c p = some (c', rest)) : p.length = l + rest.length := by
  induction l generalizing c p with
  | zero =>
    obtain ⟨-, rfl⟩ := Prod.mk.inj (Option.some.inj h)
    rw [Nat.zero_add]
  | succ l ih =>
    cases p with
    | nil => cases h
    | cons b p =>
      obtain ⟨-, h⟩ := Option.ite_none_left_eq_some.1 h
      rw [List.length_cons, ih h]
      omega

/-- Of two bytes there are 11 bits. -/
theorem continuation_one {c c' : Nat} {p rest : List UInt8} (hc : c < 2 ^ 5)
    (h : continuation 1 c p = some (c', rest)) : c' < 2 ^ 11 := by
  cases p with
  | nil => cases h
  | cons b p =>
    obtain ⟨-, h⟩ := Option.ite_none_left_eq_some.1 h
    obtain ⟨rfl, -⟩ := Prod.mk.inj (Option.some.inj h)
    have hlow : b.toNat &&& 0x3f < 2 ^ 6 := by
      rw [and_low]
      omega
    rw [shift_or hlow]
    omega

theorem length_utf16 (c : Nat) : (utf16 c).length ≤ 2 ∧ (c < 0x10000 → (utf16 c).length = 1) := by
  unfold utf16
  split
  next => exact ⟨Nat.le_succ 1, fun _ => rfl⟩
  next hc => exact ⟨Nat.le_refl 2, fun hlt => absurd hlt hc⟩

theorem following_pos {b : UInt8} {l : Nat} (h : following b = some l) : 1 ≤ l := by
  unfold following at h
  split_ifs at h <;> cases h <;> decide

/-- What is decoded from more than one byte has fewer units. -/
theorem length_decoded {b : UInt8} {p rest : List UInt8} {c : Nat} (hb : ¬ b < 0x80)
    (h : unicodeFromUtf8 (b :: p) = some (c, rest)) : (utf16 c).length + rest.length ≤ p.length := by
  rw [unicodeFromUtf8, if_neg hb] at h
  cases hl : following b with
  | none => simp [hl] at h
  | some l =>
    simp only [hl] at h
    obtain ⟨-, h⟩ := Option.ite_none_left_eq_some.1 h
    cases hc : continuation l (b.toNat &&& utf8FirstCodeMask.getD (l - 1) 0) p with
    | none =>
      rw [hc] at h
      cases h
    | some r =>
      simp only [hc] at h
      obtain ⟨-, h⟩ := Option.ite_none_left_eq_some.1 h
      obtain ⟨rfl, rfl⟩ := Prod.mk.inj (Option.some.inj h)
      have hlen := continuation_length hc
      have hunits := length_utf16 r.1
      have hpos := following_pos hl
      by_cases h1 : l = 1
      · subst h1
        have hmask : b.toNat &&& 0x1f < 2 ^ 5 := by
          rw [Nat.and_two_pow_sub_one_eq_mod b.toNat 5]
          omega
        have hlt := continuation_one hmask hc
        have hone := hunits.2 (by omega)
        omega
      · omega

theorem nextChar_length (b : UInt8) (p : List UInt8) : 0xfffd ∈ (nextChar (b :: p)).1 ∨
    (nextChar (b :: p)).1.length + (nextChar (b :: p)).2.length ≤ (b :: p).length ∧
      ((nextChar (b :: p)).1.length + (nextChar (b :: p)).2.length = (b :: p).length →
        b < 0x80 ∧ (nextChar (b :: p)).2 = p) := by
  rw [nextChar]
  split
  next hb =>
    refine Or.inr ⟨?_, fun _ => ⟨hb, rfl⟩⟩
    rw [List.length_singleton, List.length_cons, Nat.add_comm]
  next hb =>
    split
    next => exact Or.inl (List.mem_singleton_self _)
    next c rest hdec =>
      split
      next =>
        have hlen := length_decoded hb hdec
        refine Or.inr ⟨?_, fun heq => ?_⟩
        · rw [List.length_cons]
          exact Nat.le_succ_of_le hlen
        · have heq' : (utf16 c).length + rest.length = p.length + 1 := heq
          omega
      next => exact Or.inl (List.mem_singleton_self _)

theorem readAll_nextChar_length (fuel : Nat) (p : List UInt8) : 0xfffd ∈ readAll nextChar fuel p ∨
    (readAll nextChar fuel p).length ≤ p.length ∧
      ((readAll nextChar fuel p).length = p.length → ∀ b ∈ p, b < 0x80) := by
  induction fuel generalizing p with
  | zero =>
    refine Or.inr ⟨Nat.zero_le _, fun h => ?_⟩
    rw [List.length_eq_zero_iff.1 h.symm]
    exact fun b hb => absurd hb List.not_mem_nil
  | succ fuel ih =>
    cases p with
    | nil => exact Or.inr ⟨Nat.zero_le _, fun _ b hb => absurd hb List.not_mem_nil⟩
    | cons b p =>
      rw [readAll]
      rcases nextChar_length b p with hbad | ⟨hle, heq⟩
      · exact Or.inl (List.mem_append_left _ hbad)
      · rcases ih (nextChar (b :: p)).2 with hbad | ⟨hrest, hall⟩
        · exact Or.inl (List.mem_append_right _ hbad)
        · rw [List.length_append]
          refine Or.inr ⟨by omega, fun hlen => ?_⟩
          obtain ⟨hb, hp⟩ := heq (by omega)
          rw [hp] at hall
          exact List.forall_mem_cons.2 ⟨hb, hall (by rw [← hp]; omega)⟩

/-- **The bytes of a name are its units** if and only if it is ASCII. -/
theorem newStringLen_units_eq_iff (str : List UInt8) :
    (newStringLen str).units = str.map UInt8.toUInt16 ↔ ∀ b ∈ str, b < 0x80 := by
  constructor
  · intro h
    rw [newStringLen_units] at h
    rcases readAll_nextChar_length str.length str with hbad | ⟨-, hall⟩
    · rw [h] at hbad
      obtain ⟨b, -, hb⟩ := List.mem_map.1 hbad
      have hlt := b.toNat_lt
      rw [← UInt16.toNat_inj, UInt8.toNat_toUInt16] at hb
      have hbig : (0xfffd : UInt16).toNat = 65533 := rfl
      omega
    · exact hall (by rw [h, List.length_map])
  · intro h
    have hread := readAll_ascii str [] 0 h
    rw [List.append_nil, Nat.add_zero] at hread
    rw [newStringLen_units, hread]
    exact List.append_nil _

end HybridStack.QuickJs.Atoms
