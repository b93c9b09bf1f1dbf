import HybridStack.Lib.ReadAll
import Mathlib.Data.List.TakeWhile
import Mathlib.Data.Nat.Bitwise

/-!
# Strings between Java and the engine

Both sides have strings of 16-bit units; between them goes a C string, encoded by one side and
decoded by the other.

| here | there |
| --- | --- |
| `unicodeToUtf8`, `unicodeFromUtf8` | cutils.c:206-239, 251-304 |
| `JSString`, `putc16` | quickjs.c:488-505, string_buffer_putc16 (quickjs.c:3661-3673) |
| `newStringLen`, `newString` | `JS_NewStringLen`, `JS_NewString` (quickjs.c:3866-3924, 3957-3960) |
| `toCStringLen2` | quickjs.c:3975-4070 |
| `fromJava`, `toJava` | `JobjectToJSValue` and `To_JObject` of a string, quickjs-jni.cpp:136-137, 194-195 |

`getStringUTFChars` and `newStringUTF` are the runtime's. Its modified UTF-8 writes U+0000 in two
bytes, and it reads a supplementary character in four bytes as well as in two times three; which it
writes is the parameter `pairs`. Left out are strings longer than 2^30 - 1 and allocations that fail.

- **`fromJava_units`**: what the engine gets of a Java string.
- **`toJava_eq`**: what Java gets of a string of the engine, 8 bit or 16 bit.
- **`newString_toCString`**: a C string of the engine is read back as what it was written from.
-/

namespace HybridStack.QuickJs.Strings

open ReadAll

/-! ## UTF-8 -/

/-- A byte behind the first. -/
def tail (c : Nat) : UInt8 := .ofNat (c &&& 0x3f ||| 0x80)

def unicodeToUtf8 (c : Nat) : List UInt8 :=
  if c < 0x80 then [.ofNat c]
  else if c < 0x800 then [.ofNat (c >>> 6 ||| 0xc0), tail c]
  else if c < 0x10000 then [.ofNat (c >>> 12 ||| 0xe0), tail (c >>> 6), tail c]
  else if c < 0x200000 then [.ofNat (c >>> 18 ||| 0xf0), tail (c >>> 12), tail (c >>> 6), tail c]
  else if c < 0x4000000 then
    [.ofNat (c >>> 24 ||| 0xf8), tail (c >>> 18), tail (c >>> 12), tail (c >>> 6), tail c]
  else if c < 0x80000000 then
    [.ofNat (c >>> 30 ||| 0xfc), tail (c >>> 24), tail (c >>> 18), tail (c >>> 12), tail (c >>> 6), tail c]
  else []

/-- How many bytes are behind a first byte; none is behind what cannot be one. -/
def following (c : UInt8) : Option Nat :=
  if 0xc0 ≤ c ∧ c ≤ 0xdf then some 1
  else if 0xe0 ≤ c ∧ c ≤ 0xef then some 2
  else if 0xf0 ≤ c ∧ c ≤ 0xf7 then some 3
  else if 0xf8 ≤ c ∧ c ≤ 0xfb then some 4
  else if 0xfc ≤ c ∧ c ≤ 0xfd then some 5
  else none

def utf8MinCode : List Nat := [0x80, 0x800, 0x10000, 0x200000, 0x4000000]

def utf8FirstCodeMask : List Nat := [0x1f, 0xf, 0x7, 0x3, 0x1]

/-- The loop over the bytes behind the first. -/
def continuation : Nat → Nat → List UInt8 → Option (Nat × List UInt8)
  | 0, c, p => some (c, p)
  | _ + 1, _, [] => none
  | l + 1, c, b :: p =>
    if b < 0x80 ∨ b ≥ 0xc0 then none
    else continuation l (c <<< 6 ||| (b.toNat &&& 0x3f)) p

/-- The code point that `p` begins with, and what is behind it. -/
def unicodeFromUtf8 : List UInt8 → Option (Nat × List UInt8)
  | [] => none
  | c :: p =>
    if c < 0x80 then some (c.toNat, p)
    else
      match following c with
      | none => none
      | some l =>
        if p.length < l then none
        else
          match continuation l (c.toNat &&& utf8FirstCodeMask.getD (l - 1) 0) p with
          | none => none
          | some (c, p) => if c < utf8MinCode.getD (l - 1) 0 then none else some (c, p)

/-! ## Strings of the engine -/

structure JSString where
  isWideChar : Bool
  units : List UInt16
  narrow : isWideChar = false → ∀ u ∈ units, u < 0x100

/-- `js_new_string8`. -/
def newString8 (buf : List UInt8) : JSString where
  isWideChar := false
  units := buf.map UInt8.toUInt16
  narrow _ u hu := by
    obtain ⟨b, -, rfl⟩ := List.mem_map.1 hu
    rw [UInt16.lt_iff_toNat_lt, UInt8.toNat_toUInt16]
    exact b.toNat_lt

/-- An 8 bit string is widened for a character that does not fit. -/
def JSString.putc16 (b : JSString) (c : UInt16) : JSString where
  isWideChar := b.isWideChar || decide (0x100 ≤ c)
  units := b.units ++ [c]
  narrow h u hu := by
    simp only [Bool.or_eq_false_iff, decide_eq_false_iff_not, UInt16.not_le] at h
    rcases List.mem_append.1 hu with hu | hu
    · exact b.narrow h.1 u hu
    · rw [List.mem_singleton.1 hu]
      exact h.2

/-- The units of a code point. -/
def utf16 (c : Nat) : List UInt16 :=
  if c < 0x10000 then [.ofNat c]
  else [.ofNat (((c - 0x10000) >>> 10) + 0xd800), .ofNat (((c - 0x10000) &&& 0x3ff) + 0xdc00)]

def isContinuation (b : UInt8) : Bool := decide (0x80 ≤ b ∧ b < 0xc0)

/-- "skip the invalid chars". -/
def skipInvalid (p : List UInt8) : List UInt8 :=
  match p.dropWhile isContinuation with
  | [] => []
  | _ :: p => p.dropWhile isContinuation

/-- What one turn of the loop of `newStringLen` writes, and where it leaves `p`. -/
def nextChar : List UInt8 → List UInt16 × List UInt8
  | [] => ([], [])
  | b :: p =>
    if b < 128 then ([b.toUInt16], p)
    else
      match unicodeFromUtf8 (b :: p) with
      | none => ([0xfffd], skipInvalid (b :: p))
      | some (c, pNext) =>
        if c ≤ 0x10ffff then (utf16 c, pNext) else ([0xfffd], skipInvalid (b :: p))

def newStringLen (buf : List UInt8) : JSString :=
  let ascii := buf.takeWhile (· < 128)
  let p := buf.dropWhile (· < 128)
  if p = [] then newString8 buf
  else (readAll nextChar p.length p).foldl JSString.putc16 (newString8 ascii)

/-- What `strlen` sees. -/
def cString (bytes : List UInt8) : List UInt8 := bytes.takeWhile (· ≠ 0)

def newString (str : List UInt8) : JSString := newStringLen (cString str)

/-! ## C strings of the engine -/

def isHigh (c : UInt16) : Bool := decide (0xd800 ≤ c ∧ c < 0xdc00)

def isLow (c : UInt16) : Bool := decide (0xdc00 ≤ c ∧ c < 0xe000)

/-- The values of `c` in the loop over 16 bit units; `pairs` says that a surrogate pair is one. -/
def codePoints (pairs : Bool) : List UInt16 → List Nat
  | [] => []
  | [c] => [c.toNat]
  | c :: c1 :: src =>
    if pairs && isHigh c && isLow c1 then
      (((c.toNat &&& 0x3ff) <<< 10 ||| (c1.toNat &&& 0x3ff)) + 0x10000) :: codePoints pairs src
    else c.toNat :: codePoints pairs (c1 :: src)

def toCStringLen2 (str : JSString) (cesu8 : Bool) : List UInt8 :=
  if str.isWideChar then (codePoints (!cesu8) str.units).flatMap unicodeToUtf8
  else if str.units.all (· < 0x80) then str.units.map UInt16.toUInt8
  else str.units.flatMap fun (c : UInt16) =>
    if c < 0x80 then [c.toUInt8]
    else [.ofNat (c.toNat >>> 6 ||| 0xc0), .ofNat (c.toNat &&& 0x3f ||| 0x80)]

def toCString (str : JSString) : List UInt8 := toCStringLen2 str false

/-! ## Strings of Java -/

/-- Modified UTF-8 of a code point. -/
def modifiedUtf8 (c : Nat) : List UInt8 := if c = 0 then [0xc0, 0x80] else unicodeToUtf8 c

def getStringUTFChars (pairs : Bool) (s : List UInt16) : List UInt8 :=
  (codePoints pairs s).flatMap modifiedUtf8

/-- What the runtime reads at the front of modified UTF-8, which it takes to be well formed. -/
def nextModified : List UInt8 → List UInt16 × List UInt8
  | [] => ([], [])
  | b0 :: p =>
    if b0 < 0x80 then ([b0.toUInt16], p)
    else
      match p with
      | [] => ([], [])
      | b1 :: p =>
        if b0.toNat &&& 0x20 = 0 then
          (utf16 ((b0.toNat &&& 0x1f) <<< 6 ||| (b1.toNat &&& 0x3f)), p)
        else
          match p with
          | [] => ([], [])
          | b2 :: p =>
            if b0.toNat &&& 0x10 = 0 then
              (utf16 (((b0.toNat &&& 0xf) <<< 6 ||| (b1.toNat &&& 0x3f)) <<< 6 ||| (b2.toNat &&& 0x3f)), p)
            else
              match p with
              | [] => ([], [])
              | b3 :: p =>
                (utf16 ((((b0.toNat &&& 0x7) <<< 6 ||| (b1.toNat &&& 0x3f)) <<< 6 |||
                  (b2.toNat &&& 0x3f)) <<< 6 ||| (b3.toNat &&& 0x3f)), p)

def newStringUTF (bytes : List UInt8) : List UInt16 := readAll nextModified bytes.length bytes

/-- `JS_NewString(ctx, env->GetStringUTFChars(value))`. -/
def fromJava (pairs : Bool) (s : List UInt16) : JSString := newString (getStringUTFChars pairs s)

/-- `env->NewStringUTF(JS_ToCString(ctx, result))`. -/
def toJava (str : JSString) : List UInt16 := newStringUTF (cString (toCString str))

/-! ## A code point there and back -/

theorem and_low (c : Nat) : c &&& 0x3f = c % 64 := Nat.and_two_pow_sub_one_eq_mod c 6

theorem shift_or {a b : Nat} (hb : b < 64) : a <<< 6 ||| b = a * 64 + b := by
  rw [← Nat.shiftLeft_add_eq_or_of_lt (i := 6) hb a, Nat.shiftLeft_eq]

/-- A byte with its mark, of which the low `i` bits are free. -/
theorem marked_toNat {x i k : Nat} (hx : x < 2 ^ i) (hfits : 2 ^ i * k + x < 256) :
    (UInt8.ofNat (x ||| 2 ^ i * k)).toNat = 2 ^ i * k + x := by
  rw [UInt8.toNat_ofNat', Nat.lor_comm, ← Nat.two_pow_add_eq_or_of_lt hx k]
  exact Nat.mod_eq_of_lt hfits

theorem tail_toNat (c : Nat) : (tail c).toNat = 0x80 + c % 64 := by
  have hlow : c % 64 < 64 := Nat.mod_lt _ (by decide)
  unfold tail
  rw [and_low]
  exact marked_toNat (i := 6) (k := 2) hlow (by omega)

/-- The last `n` bytes of `c`. -/
def tails : Nat → Nat → List UInt8
  | 0, _ => []
  | n + 1, c => tail (c >>> (6 * n)) :: tails n c

theorem length_tails (n c : Nat) : (tails n c).length = n := by
  induction n with
  | zero => rfl
  | succ n ih =>
    unfold tails
    rw [List.length_cons, ih]

theorem continuation_tails (n a c : Nat) (rest : List UInt8) :
    continuation n a (tails n c ++ rest) = some (a * 64 ^ n + c % 64 ^ n, rest) := by
  induction n generalizing a with
  | zero => simp [continuation, tails, Nat.mod_one]
  | succ n ih =>
    have hb := tail_toNat (c >>> (6 * n))
    have hlow : c >>> (6 * n) % 64 < 64 := Nat.mod_lt _ (by decide)
    have hok : ¬ (tail (c >>> (6 * n)) < 0x80 ∨ tail (c >>> (6 * n)) ≥ 0xc0) := by
      rw [ge_iff_le, UInt8.lt_iff_toNat_lt, UInt8.le_iff_toNat_le, hb]
      show ¬ (_ < 128 ∨ 192 ≤ _)
      omega
    have hbits : (tail (c >>> (6 * n))).toNat &&& 0x3f = c >>> (6 * n) % 64 := by
      rw [and_low, hb]
      omega
    have hpow : c >>> (6 * n) = c / 64 ^ n := by
      rw [Nat.shiftRight_eq_div_pow, Nat.pow_mul]
    rw [tails, List.cons_append, continuation, if_neg hok, hbits, shift_or hlow, ih, hpow]
    congr 2
    rw [Nat.mod_pow_succ, Nat.pow_succ, Nat.add_mul, Nat.mul_comm (c / 64 ^ n % 64),
      Nat.mul_assoc, Nat.mul_comm 64]
    omega

/-- A first byte with `i` bits of `c` behind its mark, and the other `l` bytes. -/
theorem unicodeFromUtf8_marked {l c : Nat} (i k : Nat) (rest : List UInt8)
    (hmark : 128 ≤ 2 ^ i * k ∧ 2 ^ i * k + 2 ^ i ≤ 256)
    (hl : ∀ x < 2 ^ i, following (.ofNat (2 ^ i * k + x)) = some l)
    (hmask : utf8FirstCodeMask.getD (l - 1) 0 = 2 ^ i - 1)
    (hmin : utf8MinCode.getD (l - 1) 0 ≤ c) (hc : c >>> (6 * l) < 2 ^ i) :
    unicodeFromUtf8 (.ofNat (c >>> (6 * l) ||| 2 ^ i * k) :: (tails l c ++ rest)) = some (c, rest) := by
  have hb := marked_toNat (k := k) hc (by omega)
  have hb' : ¬ UInt8.ofNat (c >>> (6 * l) ||| 2 ^ i * k) < 0x80 := by
    rw [UInt8.lt_iff_toNat_lt, hb]
    exact Nat.not_lt.2 (Nat.le_trans hmark.1 (Nat.le_add_right _ _))
  have hfollowing : following (.ofNat (c >>> (6 * l) ||| 2 ^ i * k)) = some l := by
    rw [← hl _ hc, ← hb, UInt8.ofNat_toNat]
  have hlen : ¬ (tails l c ++ rest).length < l := by
    rw [List.length_append, length_tails]
    omega
  have hbits : 2 ^ i * k + c >>> (6 * l) &&& 2 ^ i - 1 = c / 64 ^ l := by
    rw [Nat.and_two_pow_sub_one_eq_mod, Nat.mul_add_mod, Nat.mod_eq_of_lt hc,
      Nat.shiftRight_eq_div_pow, Nat.pow_mul]
  have hwhole : c / 64 ^ l * 64 ^ l + c % 64 ^ l = c := by
    rw [Nat.mul_comm]
    exact Nat.div_add_mod c (64 ^ l)
  rw [unicodeFromUtf8, if_neg hb', hfollowing]
  dsimp only
  rw [if_neg hlen, hb, hmask, hbits, continuation_tails, hwhole]
  exact if_neg (Nat.not_lt.2 hmin)

/-- **A code point comes back**, whatever is behind it. -/
theorem unicodeFromUtf8_toUtf8 {c : Nat} (hc : c < 0x80000000) (rest : List UInt8) :
    unicodeFromUtf8 (unicodeToUtf8 c ++ rest) = some (c, rest) := by
  unfold unicodeToUtf8
  split
  next h =>
    have hn : (UInt8.ofNat c).toNat = c := by
      rw [UInt8.toNat_ofNat']
      omega
    have hlt : UInt8.ofNat c < 0x80 := by
      rw [UInt8.lt_iff_toNat_lt, hn]
      exact h
    rw [List.singleton_append, unicodeFromUtf8, if_pos hlt, hn]
  split
  next h1 h2 =>
    exact unicodeFromUtf8_marked (l := 1) 5 6 rest (by decide) (by decide) rfl (Nat.not_lt.1 h1) (by omega)
  split
  next h1 h2 =>
    exact unicodeFromUtf8_marked (l := 2) 4 14 rest (by decide) (by decide) rfl (Nat.not_lt.1 h1) (by omega)
  split
  next h1 h2 =>
    exact unicodeFromUtf8_marked (l := 3) 3 30 rest (by decide) (by decide) rfl (Nat.not_lt.1 h1) (by omega)
  split
  next h1 h2 =>
    exact unicodeFromUtf8_marked (l := 4) 2 62 rest (by decide) (by decide) rfl (Nat.not_lt.1 h1) (by omega)
  next h1 =>
    exact unicodeFromUtf8_marked (l := 5) 1 126 rest (by decide) (by decide) rfl (Nat.not_lt.1 h1) (by omega)

theorem unicodeToUtf8_eq {c : Nat} (hc : c < 0x80000000) :
    ∃ b l, unicodeToUtf8 c = b :: tails l c := by
  unfold unicodeToUtf8
  split
  next => exact ⟨_, 0, rfl⟩
  split
  next => exact ⟨_, 1, rfl⟩
  split
  next => exact ⟨_, 2, rfl⟩
  split
  next => exact ⟨_, 3, rfl⟩
  split
  next => exact ⟨_, 4, rfl⟩
  next => exact ⟨_, 5, rfl⟩

theorem zero_notMem_tails (l c : Nat) : 0 ∉ tails l c := by
  induction l with
  | zero => exact List.not_mem_nil
  | succ l ih =>
    intro hmem
    rcases List.mem_cons.1 hmem with h | h
    · have hb := tail_toNat (c >>> (6 * l))
      rw [← h] at hb
      have hzero : (0 : UInt8).toNat = 0 := rfl
      omega
    · exact ih h

/-- Only U+0000 has a byte that ends a C string. -/
theorem zero_notMem_unicodeToUtf8 {c : Nat} (hc : c < 0x80000000) (h0 : c ≠ 0) :
    0 ∉ unicodeToUtf8 c := by
  obtain ⟨b, l, heq⟩ := unicodeToUtf8_eq hc
  have hback := unicodeFromUtf8_toUtf8 hc []
  rw [heq] at hback ⊢
  intro hmem
  rcases List.mem_cons.1 hmem with h | h
  · subst h
    rw [List.append_nil, unicodeFromUtf8, if_pos (by decide)] at hback
    exact h0 (Prod.mk.inj (Option.some.inj hback)).1.symm
  · exact zero_notMem_tails l c h

/-! ## What `newStringLen` writes -/

theorem units_foldl_putc16 (l : List UInt16) (b : JSString) :
    (l.foldl JSString.putc16 b).units = b.units ++ l := by
  induction l generalizing b with
  | nil => exact (List.append_nil _).symm
  | cons c l ih =>
    rw [List.foldl_cons, ih]
    unfold JSString.putc16
    rw [List.append_assoc, List.singleton_append]

/-- The bytes below 128 are written as they are. -/
theorem readAll_ascii (ascii p : List UInt8) (fuel : Nat) (h : ∀ b ∈ ascii, b < 128) :
    readAll nextChar (ascii.length + fuel) (ascii ++ p) =
      ascii.map UInt8.toUInt16 ++ readAll nextChar fuel p := by
  induction ascii with
  | nil => rw [List.length_nil, Nat.zero_add, List.nil_append, List.map_nil, List.nil_append]
  | cons b ascii ih =>
    have hnext : nextChar (b :: (ascii ++ p)) = ([b.toUInt16], ascii ++ p) := by
      rw [nextChar, if_pos (h b List.mem_cons_self)]
    rw [List.length_cons, Nat.succ_add, List.cons_append, readAll, hnext,
      ih (fun x hx => h x (List.mem_cons_of_mem _ hx))]
    rfl

/-- The head start makes no difference. -/
theorem newStringLen_units (buf : List UInt8) :
    (newStringLen buf).units = readAll nextChar buf.length buf := by
  have hascii : ∀ b ∈ buf.takeWhile (· < 128), b < 128 := by
    intro b hb
    simpa using List.mem_takeWhile_imp hb
  have hsplit := List.takeWhile_append_dropWhile (p := (· < (128 : UInt8))) (l := buf)
  have hlen := congrArg List.length hsplit
  rw [List.length_append] at hlen
  have hread := readAll_ascii _ (buf.dropWhile (· < 128)) (buf.dropWhile (· < 128)).length hascii
  rw [hsplit, hlen] at hread
  rw [hread]
  unfold newStringLen
  dsimp only
  split
  next hnil =>
    rw [hnil, List.append_nil] at hsplit
    rw [hnil, readAll_nil, List.append_nil, hsplit]
    rfl
  next => exact units_foldl_putc16 _ _

theorem ofNat_toNat (b : UInt8) : UInt16.ofNat b.toNat = b.toUInt16 := by
  apply UInt16.toNat_inj.1
  simp

/-- No byte behind the first of a code point. -/
def Start (p : List UInt8) : Prop := ∀ b ∈ p.head?, isContinuation b = false

theorem Start.dropWhile {p : List UInt8} (h : Start p) : p.dropWhile isContinuation = p := by
  cases p with
  | nil => rfl
  | cons b p => rw [List.dropWhile_cons_of_neg (by simpa using h b rfl)]

theorem nextChar_of_decoded {p rest : List UInt8} {c : Nat} (h : unicodeFromUtf8 p = some (c, rest))
    (hc : c ≤ 0x10ffff) : nextChar p = (utf16 c, rest) := by
  cases p with
  | nil => cases h
  | cons b p =>
    rw [nextChar]
    split
    next hb =>
      rw [unicodeFromUtf8, if_pos hb] at h
      obtain ⟨rfl, rfl⟩ := Prod.mk.inj (Option.some.inj h)
      have hlt := b.toNat_lt
      unfold utf16
      rw [if_pos (by omega), ofNat_toNat]
    next =>
      rw [h]
      exact if_pos hc

/-- A code point that can be decoded does not begin with a byte behind the first. -/
theorem start_of_decoded {p rest rest' : List UInt8} {c : Nat}
    (h : unicodeFromUtf8 p = some (c, rest)) : Start (p ++ rest') := by
  cases p with
  | nil => cases h
  | cons b p =>
    intro b' hb'
    obtain rfl := Option.some.inj hb'
    rw [unicodeFromUtf8] at h
    unfold isContinuation
    rw [decide_eq_false_iff_not]
    rintro ⟨hlo, hhi⟩
    rw [if_neg (UInt8.not_lt.2 hlo)] at h
    have hnone : following b = none := by
      have hall : ∀ n < 192, following (.ofNat n) = none := by
        decide +kernel
      rw [← UInt8.ofNat_toNat (x := b)]
      exact hall _ (UInt8.lt_iff_toNat_lt.1 hhi)
    rw [hnone] at h
    cases h

/-! ## Code points and units -/

theorem isHigh_iff (u : UInt16) : isHigh u = true ↔ 0xd800 ≤ u.toNat ∧ u.toNat < 0xdc00 := by
  unfold isHigh
  rw [decide_eq_true_iff, UInt16.le_iff_toNat_le, UInt16.lt_iff_toNat_lt]
  rfl

theorem isLow_iff (u : UInt16) : isLow u = true ↔ 0xdc00 ≤ u.toNat ∧ u.toNat < 0xe000 := by
  unfold isLow
  rw [decide_eq_true_iff, UInt16.le_iff_toNat_le, UInt16.lt_iff_toNat_lt]
  rfl

/-- The code point of a surrogate pair. -/
theorem pair_eq {u u1 : UInt16} (h : isHigh u = true) (h1 : isLow u1 = true) :
    ((u.toNat &&& 0x3ff) <<< 10 ||| (u1.toNat &&& 0x3ff)) + 0x10000 =
      (u.toNat - 0xd800) * 1024 + (u1.toNat - 0xdc00) + 0x10000 := by
  have hand : ∀ c : Nat, c &&& 0x3ff = c % 1024 := fun c => Nat.and_two_pow_sub_one_eq_mod c 10
  have hlow : u1.toNat % 1024 < 2 ^ 10 := Nat.mod_lt _ (by decide)
  rw [isHigh_iff] at h
  rw [isLow_iff] at h1
  rw [hand, hand, ← Nat.shiftLeft_add_eq_or_of_lt hlow, Nat.shiftLeft_eq]
  omega

theorem utf16_pair {u u1 : UInt16} (h : isHigh u = true) (h1 : isLow u1 = true) :
    utf16 (((u.toNat &&& 0x3ff) <<< 10 ||| (u1.toNat &&& 0x3ff)) + 0x10000) = [u, u1] := by
  rw [pair_eq h h1]
  rw [isHigh_iff] at h
  rw [isLow_iff] at h1
  unfold utf16
  rw [if_neg (by omega), Nat.add_sub_cancel]
  have hhigh : ((u.toNat - 0xd800) * 1024 + (u1.toNat - 0xdc00)) >>> 10 + 0xd800 = u.toNat := by
    omega
  have hlow : (((u.toNat - 0xd800) * 1024 + (u1.toNat - 0xdc00)) &&& 0x3ff) + 0xdc00 = u1.toNat := by
    show (_ &&& 2 ^ 10 - 1) + _ = _
    rw [Nat.and_two_pow_sub_one_eq_mod]
    omega
  rw [hhigh, hlow, UInt16.ofNat_toNat, UInt16.ofNat_toNat]

theorem utf16_unit (u : UInt16) : utf16 u.toNat = [u] := by
  have hlt := u.toNat_lt
  unfold utf16
  rw [if_pos (by omega), UInt16.ofNat_toNat]

theorem codePoints_le (pairs : Bool) (s : List UInt16) : ∀ c ∈ codePoints pairs s, c ≤ 0x10ffff := by
  induction s using codePoints.induct pairs with
  | case1 => exact fun c hc => absurd hc List.not_mem_nil
  | case2 u =>
    intro c hc
    have hlt := u.toNat_lt
    rw [codePoints, List.mem_singleton] at hc
    omega
  | case3 u u1 src hpair ih =>
    intro c hc
    rw [codePoints, if_pos hpair] at hc
    simp only [Bool.and_eq_true] at hpair
    rcases List.mem_cons.1 hc with rfl | hc
    · rw [pair_eq hpair.1.2 hpair.2]
      have hu := (isHigh_iff u).1 hpair.1.2
      have hu1 := (isLow_iff u1).1 hpair.2
      omega
    · exact ih c hc
  | case4 u u1 src hpair ih =>
    intro c hc
    have hlt := u.toNat_lt
    rw [codePoints, if_neg hpair] at hc
    rcases List.mem_cons.1 hc with rfl | hc
    · omega
    · exact ih c hc

/-- What is put out for each code point, if a pair puts out what its units would. -/
theorem flatMap_codePoints (pairs : Bool) {γ : Type} (out : Nat → List γ) (put : UInt16 → List γ)
    (hunit : ∀ u, out u.toNat = put u)
    (hpair : ∀ u u1, isHigh u = true → isLow u1 = true →
      out (((u.toNat &&& 0x3ff) <<< 10 ||| (u1.toNat &&& 0x3ff)) + 0x10000) = put u ++ put u1)
    (s : List UInt16) : (codePoints pairs s).flatMap out = s.flatMap put := by
  induction s using codePoints.induct pairs with
  | case1 => rfl
  | case2 u => rw [codePoints, List.flatMap_singleton, List.flatMap_singleton, hunit]
  | case3 u u1 src h ih =>
    rw [codePoints, if_pos h]
    simp only [Bool.and_eq_true] at h
    rw [List.flatMap_cons, hpair u u1 h.1.2 h.2, ih, List.flatMap_cons, List.flatMap_cons,
      List.append_assoc]
  | case4 u u1 src h ih =>
    rw [codePoints, if_neg h, List.flatMap_cons, hunit, ih]
    rfl

/-! ## From Java -/

/-- What the engine makes of a code point of modified UTF-8. -/
def received (c : Nat) : List UInt16 := if c = 0 then [0xfffd] else utf16 c

theorem nextChar_modified {c : Nat} (hc : c ≤ 0x10ffff) {rest : List UInt8} (hrest : Start rest) :
    nextChar (modifiedUtf8 c ++ rest) = (received c, rest) := by
  unfold modifiedUtf8 received
  split
  next h0 =>
    -- the two bytes of U+0000 are no code point, and are skipped together
    have hnone : unicodeFromUtf8 (0xc0 :: 0x80 :: rest) = none := by
      have hlen : ¬ (0x80 :: rest).length < 1 := by
        rw [List.length_cons]
        omega
      rw [unicodeFromUtf8, if_neg (by decide), show following 0xc0 = some 1 from rfl]
      dsimp only
      rw [if_neg hlen]
      rfl
    show nextChar (0xc0 :: 0x80 :: rest) = _
    rw [nextChar, if_neg (by decide), hnone]
    have hskip : skipInvalid (0xc0 :: 0x80 :: rest) = rest := hrest.dropWhile
    rw [hskip]
  next h0 => exact nextChar_of_decoded (unicodeFromUtf8_toUtf8 (by omega) rest) hc

theorem start_modified {c : Nat} (hc : c ≤ 0x10ffff) (rest : List UInt8) :
    Start (modifiedUtf8 c ++ rest) := by
  unfold modifiedUtf8
  split
  next =>
    intro b hb
    obtain rfl := Option.some.inj hb
    rfl
  next =>
    have hback := unicodeFromUtf8_toUtf8 (c := c) (by omega) []
    rw [List.append_nil] at hback
    exact start_of_decoded hback

theorem zero_notMem_modifiedUtf8 {c : Nat} (hc : c ≤ 0x10ffff) : 0 ∉ modifiedUtf8 c := by
  unfold modifiedUtf8
  split
  next => decide
  next h0 => exact zero_notMem_unicodeToUtf8 (by omega) h0

theorem modifiedUtf8_ne_nil {c : Nat} (hc : c ≤ 0x10ffff) : modifiedUtf8 c ≠ [] := by
  unfold modifiedUtf8
  split
  next => exact List.cons_ne_nil _ _
  next =>
    obtain ⟨b, l, heq⟩ := unicodeToUtf8_eq (c := c) (by omega)
    rw [heq]
    exact List.cons_ne_nil _ _

theorem cString_eq {bytes : List UInt8} (h : 0 ∉ bytes) : cString bytes = bytes := by
  apply List.takeWhile_eq_self_iff.2
  intro b hb
  rw [decide_eq_true_iff]
  exact fun h0 => h (h0 ▸ hb)

theorem cString_getStringUTFChars (pairs : Bool) (s : List UInt16) :
    cString (getStringUTFChars pairs s) = getStringUTFChars pairs s := by
  apply cString_eq
  intro hmem
  obtain ⟨c, hcs, hb⟩ := List.mem_flatMap.1 hmem
  exact zero_notMem_modifiedUtf8 (codePoints_le pairs s c hcs) hb

/-- **From Java to the engine**: whether the runtime writes surrogate pairs as one code point or as
two, lone surrogates included, every unit gets through but U+0000, which becomes U+FFFD. -/
theorem fromJava_units (pairs : Bool) (s : List UInt16) :
    (fromJava pairs s).units = s.map fun u => if u = 0 then 0xfffd else u := by
  have hc := codePoints_le pairs s
  have hread : readAll nextChar (getStringUTFChars pairs s).length (getStringUTFChars pairs s) =
      (codePoints pairs s).flatMap received := by
    apply readAll_flatMap Start (codePoints pairs s) _ (fun c hcs => modifiedUtf8_ne_nil (hc c hcs))
    · exact fun b hb => by cases hb
    · exact fun c hcs => start_modified (hc c hcs)
    · exact fun c hcs rest hrest => nextChar_modified (hc c hcs) hrest
    · exact Nat.le_refl _
  unfold fromJava newString
  rw [cString_getStringUTFChars, newStringLen_units, hread, List.map_eq_flatMap]
  apply flatMap_codePoints
  · intro u
    unfold received
    rw [utf16_unit]
    by_cases hu : u = 0
    · rw [if_pos hu, if_pos (by rw [hu]; rfl)]
    · have hu' : ¬ u.toNat = 0 := fun h => hu (UInt16.toNat_inj.1 h)
      rw [if_neg hu, if_neg hu']
  · intro u u1 h h1
    have hne : ∀ v : UInt16, isHigh v = true ∨ isLow v = true → v ≠ 0 := by
      rintro v hv rfl
      revert hv
      decide
    unfold received
    rw [if_neg (Nat.succ_ne_zero _), utf16_pair h h1, if_neg (hne u (Or.inl h)),
      if_neg (hne u1 (Or.inr h1))]
    rfl

/-! ## C strings of the engine -/

/-- No unit of an 8 bit string is part of a surrogate pair. -/
theorem codePoints_narrow (pairs : Bool) {s : List UInt16} (h : ∀ u ∈ s, u < 0x100) :
    codePoints pairs s = s.map UInt16.toNat := by
  induction s using codePoints.induct pairs with
  | case1 => rfl
  | case2 u => rfl
  | case3 u u1 src hpair ih =>
    simp only [Bool.and_eq_true] at hpair
    have hu := UInt16.lt_iff_toNat_lt.1 (h u List.mem_cons_self)
    have hhigh := (isHigh_iff u).1 hpair.1.2
    have h256 : (0x100 : UInt16).toNat = 256 := rfl
    omega
  | case4 u u1 src hpair ih =>
    rw [codePoints, if_neg hpair, ih fun v hv => h v (List.mem_cons_of_mem _ hv)]
    rfl

theorem unicodeToUtf8_ascii {u : UInt16} (h : u < 0x80) : unicodeToUtf8 u.toNat = [u.toUInt8] := by
  have hlt : u.toNat < 0x80 := UInt16.lt_iff_toNat_lt.1 h
  unfold unicodeToUtf8
  rw [if_pos hlt]
  rfl

/-- **One meaning, two representations**: the passes over 8 bit strings, ASCII or not, and the one over
16 bit strings write the same bytes for the same units. -/
theorem toCStringLen2_eq (str : JSString) (cesu8 : Bool) :
    toCStringLen2 str cesu8 = (codePoints (!cesu8) str.units).flatMap unicodeToUtf8 := by
  unfold toCStringLen2
  split
  next => rfl
  next hwide =>
    have hnarrow := str.narrow (Bool.not_eq_true _ ▸ hwide)
    rw [codePoints_narrow _ hnarrow, List.flatMap_map]
    split
    next hascii =>
      rw [List.all_eq_true] at hascii
      rw [List.map_eq_flatMap]
      apply List.flatMap_congr
      intro u hu
      exact (unicodeToUtf8_ascii (of_decide_eq_true (hascii u hu))).symm
    next =>
      apply List.flatMap_congr
      intro u hu
      split
      next h => exact (unicodeToUtf8_ascii h).symm
      next h =>
        have hlt := UInt16.lt_iff_toNat_lt.1 (hnarrow u hu)
        rw [UInt16.lt_iff_toNat_lt] at h
        have h256 : (0x100 : UInt16).toNat = 256 := rfl
        have h128 : (0x80 : UInt16).toNat = 128 := rfl
        unfold unicodeToUtf8
        rw [if_neg (by omega), if_pos (by omega)]
        rfl

/-- A NUL ends the C string, and nothing else does. -/
theorem cString_flatMap {l : List Nat} (h : ∀ c ∈ l, c ≤ 0x10ffff) :
    cString (l.flatMap unicodeToUtf8) = (l.takeWhile (· ≠ 0)).flatMap unicodeToUtf8 := by
  induction l with
  | nil => rfl
  | cons c l ih =>
    have hc := h c List.mem_cons_self
    rw [List.flatMap_cons]
    by_cases h0 : c = 0
    · subst h0
      rfl
    · have hzero := zero_notMem_unicodeToUtf8 (c := c) (by omega) h0
      have htake := ih fun x hx => h x (List.mem_cons_of_mem _ hx)
      unfold cString at htake ⊢
      rw [List.takeWhile_append_of_pos, htake, List.takeWhile_cons_of_pos (by simpa using h0),
        List.flatMap_cons]
      intro b hb
      rw [decide_eq_true_iff]
      exact fun hb0 => hzero (hb0 ▸ hb)

/-- What is before the first NUL of a string. -/
def beforeNul (s : List UInt16) : List UInt16 := s.takeWhile (· ≠ 0)

theorem codePoints_beforeNul (pairs : Bool) (s : List UInt16) :
    (codePoints pairs s).takeWhile (· ≠ 0) = codePoints pairs (beforeNul s) := by
  have hnat : ∀ u : UInt16, u ≠ 0 → u.toNat ≠ 0 := fun u hu h => hu (UInt16.toNat_inj.1 h)
  have hcons : ∀ (u : UInt16) (s : List UInt16), u ≠ 0 → beforeNul (u :: s) = u :: beforeNul s := by
    intro u s hu
    exact List.takeWhile_cons_of_pos (by simpa using hu)
  induction s using codePoints.induct pairs with
  | case1 => rfl
  | case2 u =>
    by_cases hu : u = 0
    · subst hu
      rfl
    · rw [hcons u [] hu, codePoints, List.takeWhile_cons_of_pos (by simpa using hnat u hu)]
      rfl
  | case3 u u1 src h ih =>
    have hne : ∀ v : UInt16, isHigh v = true ∨ isLow v = true → v ≠ 0 := by
      rintro v hv rfl
      revert hv
      decide
    rw [codePoints, if_pos h, List.takeWhile_cons_of_pos (by simp), ih]
    simp only [Bool.and_eq_true] at h
    rw [hcons u _ (hne u (Or.inl h.1.2)), hcons u1 _ (hne u1 (Or.inr h.2)), codePoints]
    simp [h]
  | case4 u u1 src h ih =>
    rw [codePoints, if_neg h]
    by_cases hu : u = 0
    · subst hu
      rfl
    · rw [List.takeWhile_cons_of_pos (by simpa using hnat u hu), ih, hcons u _ hu]
      by_cases hu1 : u1 = 0
      · subst hu1
        rfl
      · rw [hcons u1 _ hu1, codePoints, if_neg h]

theorem cString_toCStringLen2 (str : JSString) (cesu8 : Bool) :
    cString (toCStringLen2 str cesu8) =
      (codePoints (!cesu8) (beforeNul str.units)).flatMap unicodeToUtf8 := by
  rw [toCStringLen2_eq, cString_flatMap (codePoints_le _ _), codePoints_beforeNul]

theorem unicodeToUtf8_ne_nil {c : Nat} (hc : c ≤ 0x10ffff) : unicodeToUtf8 c ≠ [] := by
  obtain ⟨b, l, heq⟩ := unicodeToUtf8_eq (c := c) (by omega)
  rw [heq]
  exact List.cons_ne_nil _ _

/-- What one read takes off, all code points of a string are read as. -/
theorem readAll_codePoints {next : List UInt8 → List UInt16 × List UInt8}
    (hnext : ∀ c ≤ 0x10ffff, ∀ rest, next (unicodeToUtf8 c ++ rest) = (utf16 c, rest)) (pairs : Bool)
    (s : List UInt16) :
    readAll next ((codePoints pairs s).flatMap unicodeToUtf8).length
      ((codePoints pairs s).flatMap unicodeToUtf8) = s := by
  have hc := codePoints_le pairs s
  have hread : readAll next ((codePoints pairs s).flatMap unicodeToUtf8).length
      ((codePoints pairs s).flatMap unicodeToUtf8) = (codePoints pairs s).flatMap utf16 := by
    apply readAll_flatMap (fun _ => True)
    · exact fun c hcs => unicodeToUtf8_ne_nil (hc c hcs)
    · trivial
    · exact fun _ _ _ => trivial
    · exact fun c hcs rest _ => hnext c (hc c hcs) rest
    · exact Nat.le_refl _
  rw [hread, flatMap_codePoints pairs utf16 (fun u => [u]) utf16_unit (fun u u1 => utf16_pair),
    List.flatMap_singleton']

/-- **Within the engine**: what a C string is made of is what it gives again, up to the first NUL, and
whether or not surrogate pairs were written as one code point. -/
theorem newString_toCStringLen2 (str : JSString) (cesu8 : Bool) :
    (newString (toCStringLen2 str cesu8)).units = beforeNul str.units := by
  unfold newString
  rw [cString_toCStringLen2, newStringLen_units]
  apply readAll_codePoints
  intro c hc rest
  exact nextChar_of_decoded (unicodeFromUtf8_toUtf8 (by omega) rest) hc

/-! ## To Java -/

theorem nextModified_unicodeToUtf8 {c : Nat} (hc : c ≤ 0x10ffff) (rest : List UInt8) :
    nextModified (unicodeToUtf8 c ++ rest) = (utf16 c, rest) := by
  have htail : ∀ x : Nat, (tail x).toNat &&& 0x3f = x % 64 := by
    intro x
    rw [and_low, tail_toNat]
    omega
  have hlow : ∀ x : Nat, x % 64 < 64 := fun x => Nat.mod_lt _ (by decide)
  have hnot : ∀ b : UInt8, 0x80 ≤ b.toNat → ¬ b < 0x80 := by
    intro b hb
    rw [UInt8.lt_iff_toNat_lt]
    exact Nat.not_lt.2 hb
  unfold unicodeToUtf8
  split
  next h =>
    have hn : (UInt8.ofNat c).toNat = c := by
      rw [UInt8.toNat_ofNat']
      omega
    have hlt : UInt8.ofNat c < 0x80 := by
      rw [UInt8.lt_iff_toNat_lt, hn]
      exact h
    rw [List.singleton_append]
    unfold nextModified
    dsimp only
    rw [if_pos hlt, ← ofNat_toNat, hn, utf16, if_pos (by omega)]
  split
  next h =>
    have hb : (UInt8.ofNat (c >>> 6 ||| 0xc0)).toNat = 0xc0 + c >>> 6 :=
      marked_toNat (i := 5) (k := 6) (by omega) (by omega)
    have hbits : ∀ x < 32, (0xc0 + x) &&& 0x20 = 0 ∧ (0xc0 + x) &&& 0x1f = x := by decide
    obtain ⟨h20, h1f⟩ := hbits (c >>> 6) (by omega)
    show nextModified (_ :: tail c :: rest) = _
    unfold nextModified
    dsimp only
    rw [if_neg (hnot _ (by omega)), hb, if_pos h20, h1f, htail, shift_or (hlow c)]
    congr 2
    omega
  split
  next h =>
    have hb : (UInt8.ofNat (c >>> 12 ||| 0xe0)).toNat = 0xe0 + c >>> 12 :=
      marked_toNat (i := 4) (k := 14) (by omega) (by omega)
    have hbits : ∀ x < 16, (0xe0 + x) &&& 0x20 ≠ 0 ∧ (0xe0 + x) &&& 0x10 = 0 ∧ (0xe0 + x) &&& 0xf = x := by
      decide
    obtain ⟨h20, h10, hf⟩ := hbits (c >>> 12) (by omega)
    show nextModified (_ :: tail (c >>> 6) :: tail c :: rest) = _
    unfold nextModified
    dsimp only
    rw [if_neg (hnot _ (by omega)), hb, if_neg h20, if_pos h10, hf, htail, htail, shift_or (hlow _),
      shift_or (hlow _)]
    congr 2
    omega
  split
  next h =>
    have hb : (UInt8.ofNat (c >>> 18 ||| 0xf0)).toNat = 0xf0 + c >>> 18 :=
      marked_toNat (i := 3) (k := 30) (by omega) (by omega)
    have hbits : ∀ x < 8, (0xf0 + x) &&& 0x20 ≠ 0 ∧ (0xf0 + x) &&& 0x10 ≠ 0 ∧ (0xf0 + x) &&& 0x7 = x := by
      decide
    obtain ⟨h20, h10, h7⟩ := hbits (c >>> 18) (by omega)
    show nextModified (_ :: tail (c >>> 12) :: tail (c >>> 6) :: tail c :: rest) = _
    unfold nextModified
    dsimp only
    rw [if_neg (hnot _ (by omega)), hb, if_neg h20, if_neg h10, h7, htail, htail, htail,
      shift_or (hlow _), shift_or (hlow _), shift_or (hlow _)]
    congr 2
    omega
  next => omega

/-- **From the engine to Java**: Java gets the units up to the first NUL. -/
theorem toJava_eq (str : JSString) : toJava str = beforeNul str.units := by
  unfold toJava newStringUTF toCString
  rw [cString_toCStringLen2]
  exact readAll_codePoints (fun c hc => nextModified_unicodeToUtf8 hc) _ _

/-! ## There and back -/

theorem beforeNul_eq_self {s : List UInt16} (h : 0 ∉ s) : beforeNul s = s := by
  apply List.takeWhile_eq_self_iff.2
  intro u hu
  rw [decide_eq_true_iff]
  exact fun h0 => h (h0 ▸ hu)

/-- **Java strings through the engine**: a string that Java sets and reads back, and the engine has in
between, is the same but for U+0000, each of which has become U+FFFD. -/
theorem java_roundTrip (pairs : Bool) (s : List UInt16) :
    (fromJava pairs s).units = s.map (fun u => if u = 0 then 0xfffd else u) ∧
      toJava (fromJava pairs s) = s.map (fun u => if u = 0 then 0xfffd else u) ∧
      (toJava (fromJava pairs s) = s ↔ 0 ∉ s) := by
  have hnone : 0 ∉ s.map fun u => if u = 0 then 0xfffd else u := by
    intro hmem
    obtain ⟨u, -, hu⟩ := List.mem_map.1 hmem
    split at hu
    next => exact absurd hu (by decide)
    next h => exact h hu
  have hback : toJava (fromJava pairs s) = s.map fun u => if u = 0 then 0xfffd else u := by
    rw [toJava_eq, fromJava_units]
    exact beforeNul_eq_self hnone
  refine ⟨fromJava_units pairs s, hback, ?_⟩
  rw [hback]
  constructor
  · intro heq
    rw [heq] at hnone
    exact hnone
  · intro hmem
    rw [List.map_congr_left (g := id), List.map_id]
    intro u hu
    apply if_neg
    rintro rfl
    exact hmem hu

/-- **Strings of the engine as C strings**: read back by the engine, or by Java, a string is the same
up to its first NUL, lone surrogates included, in whichever way it is represented. -/
theorem engine_roundTrip (str : JSString) (cesu8 : Bool) :
    (newString (toCStringLen2 str cesu8)).units = beforeNul str.units ∧
      toJava str = beforeNul str.units ∧ (toJava str = str.units ↔ 0 ∉ str.units) := by
  refine ⟨newString_toCStringLen2 str cesu8, toJava_eq str, ?_⟩
  rw [toJava_eq]
  constructor
  · intro heq hmem
    have hall := List.takeWhile_eq_self_iff.1 heq 0 hmem
    exact absurd hall (by decide)
  · exact beforeNul_eq_self

/-! ## Eight bits or sixteen -/

theorem isWideChar_foldl_putc16 (l : List UInt16) (b : JSString) :
    (l.foldl JSString.putc16 b).isWideChar = (b.isWideChar || l.any (0x100 ≤ ·)) := by
  induction l generalizing b with
  | nil => exact (Bool.or_false _).symm
  | cons c l ih =>
    rw [List.foldl_cons, ih, List.any_cons, ← Bool.or_assoc]
    rfl

/-- A string is made wide only where it has to be. -/
theorem newStringLen_isWideChar (buf : List UInt8) :
    (newStringLen buf).isWideChar = true ↔ ∃ u ∈ (newStringLen buf).units, 0x100 ≤ u := by
  constructor
  · intro hwide
    unfold newStringLen at hwide ⊢
    dsimp only at hwide ⊢
    split at hwide
    next => cases hwide
    next hp =>
      rw [if_neg hp, units_foldl_putc16]
      rw [isWideChar_foldl_putc16] at hwide
      obtain ⟨u, hu, hle⟩ := List.any_eq_true.1 ((Bool.or_eq_true_iff.1 hwide).resolve_left Bool.false_ne_true)
      exact ⟨u, List.mem_append_right _ hu, of_decide_eq_true hle⟩
  · rintro ⟨u, hu, hle⟩
    by_contra hwide
    have hlt := (newStringLen buf).narrow (Bool.not_eq_true _ ▸ hwide) u hu
    exact absurd hle (UInt16.not_le.2 hlt)

end HybridStack.QuickJs.Strings
