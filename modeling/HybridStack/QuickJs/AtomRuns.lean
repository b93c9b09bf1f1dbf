import HybridStack.Lib.Transition
import HybridStack.QuickJs.AtomNames
import Mathlib.Logic.Function.Basic

/-!
# The atoms of a runtime

A runtime begins with the names of `quickjs-atom.h`, whose numbers are constants of the engine. From
then on the engine makes atoms, and keeps count of its references to them.

| here | there |
| --- | --- |
| `jsAtomInit` | `js_atom_init`, quickjs-atom.h |
| `initAtoms` | `JS_InitAtoms`, quickjs.c:2586-2613 |
| `Action.newAtomLen`, `Action.newAtomStr` | `JS_NewAtomLen`, `JS_NewAtomStr`, quickjs.c:2939-2966 |
| `Action.newSymbol` | `JS_NewSymbol`, quickjs.c:3006-3014 |
| `Action.dupAtom`, `Action.freeAtom` | `JS_DupAtom`, `JS_FreeAtom`, quickjs.c:2626-2636, 3246-3250 |

An atom is a `uint32_t`. The engine gives back no reference that it has not got.

- **`atoms_kept`**: the names keep their numbers, no string has two atoms, and the table has just the
  atoms that are held.
- **`interned_iff`**: two strings get the same atom if and only if they have the same units, however
  much later the second asks.
- **`newAtomLen_iff`**: which names in UTF-8 are read right.
- `newAtomLen_misread`: the name "é" gets the atom of "Ã©".
-/

namespace HybridStack.QuickJs.Atoms

open Strings Transition
open Atoms.Runtime (isConst isDigit storedType)

/-! ## The atoms a runtime begins with -/

/-- A name of `quickjs-atom.h`, with the type that its place in the file gives it. -/
abbrev Definition := List UInt8 × AtomType

/-- The loop of `JS_InitAtoms`; `none` when it returns -1. -/
def initLoop (predefined : Nat) : Runtime → List Definition → Option Runtime
  | rt, [] => some rt
  | rt, d :: defs =>
    let r := rt.newAtom predefined (newString8 d.1) d.2
    if r.2 = 0 then none else initLoop predefined r.1 defs

def initAtoms (defs : List Definition) : Option Runtime :=
  initLoop defs.length Runtime.initial defs

def bytes (s : String) : List UInt8 := s.toList.map fun c => .ofNat c.toNat

/-- The names of the file, with `CONFIG_BIGNUM` and `CONFIG_ATOMICS`, up to that of the brand. -/
def names : List String :=
  ["null", "false", "true", "if", "else", "return", "var", "this", "delete", "void", "typeof",
    "new", "in", "instanceof", "do", "while", "for", "break", "continue", "switch", "case",
    "default", "throw", "try", "catch", "finally", "function", "debugger", "with", "class", "const",
    "enum", "export", "extends", "import", "super", "implements", "interface", "let", "package",
    "private", "protected", "public", "static", "yield", "await", "", "length", "fileName",
    "lineNumber", "message", "errors", "stack", "name", "toString", "toLocaleString", "valueOf",
    "eval", "prototype", "constructor", "configurable", "writable", "enumerable", "value", "get",
    "set", "of", "__proto__", "undefined", "number", "boolean", "string", "object", "symbol",
    "integer", "unknown", "arguments", "callee", "caller", "<eval>", "<ret>", "<var>", "<arg_var>",
    "<with>", "lastIndex", "target", "index", "input", "defineProperties", "apply", "join",
    "concat", "split", "construct", "getPrototypeOf", "setPrototypeOf", "isExtensible",
    "preventExtensions", "has", "deleteProperty", "defineProperty", "getOwnPropertyDescriptor",
    "ownKeys", "add", "done", "next", "values", "source", "flags", "global", "unicode", "raw",
    "new.target", "this.active_func", "<home_object>", "<computed_field>",
    "<static_computed_field>", "<class_fields_init>", "<brand>", "#constructor", "as", "from",
    "meta", "*default*", "*", "Module", "then", "resolve", "reject", "promise", "proxy", "revoke",
    "async", "exec", "groups", "status", "reason", "globalThis", "bigint", "bigfloat", "bigdecimal",
    "roundingMode", "maximumSignificantDigits", "maximumFractionDigits", "not-equal", "timed-out",
    "ok", "toJSON", "Object", "Array", "Error", "Number", "String", "Boolean", "Symbol",
    "Arguments", "Math", "JSON", "Date", "Function", "GeneratorFunction", "ForInIterator", "RegExp",
    "ArrayBuffer", "SharedArrayBuffer", "Uint8ClampedArray", "Int8Array", "Uint8Array",
    "Int16Array", "Uint16Array", "Int32Array", "Uint32Array", "BigInt64Array", "BigUint64Array",
    "Float32Array", "Float64Array", "DataView", "BigInt", "BigFloat", "BigFloatEnv", "BigDecimal",
    "OperatorSet", "Operators", "Map", "Set", "WeakMap", "WeakSet", "Map Iterator", "Set Iterator",
    "Array Iterator", "String Iterator", "RegExp String Iterator", "Generator", "Proxy", "Promise",
    "PromiseResolveFunction", "PromiseRejectFunction", "AsyncFunction", "AsyncFunctionResolve",
    "AsyncFunctionReject", "AsyncGeneratorFunction", "AsyncGenerator", "EvalError", "RangeError",
    "ReferenceError", "SyntaxError", "TypeError", "URIError", "InternalError"]

/-- The names behind it. -/
def symbols : List String :=
  ["Symbol.toPrimitive", "Symbol.iterator", "Symbol.match", "Symbol.matchAll", "Symbol.replace",
    "Symbol.search", "Symbol.split", "Symbol.toStringTag", "Symbol.isConcatSpreadable",
    "Symbol.hasInstance", "Symbol.species", "Symbol.unscopables", "Symbol.asyncIterator",
    "Symbol.operatorSet"]

def jsAtomInit : List Definition :=
  names.map (fun s => (bytes s, .string)) ++ (bytes "<brand>", .privateSymbol) ::
    symbols.map fun s => (bytes s, .symbol)

/-- What the file has to be like: no two names that are found by name are the same, and none begins
with a digit. -/
structure Predefined (defs : List Definition) : Prop where
  distinct : (defs.filter fun d => d.2.hashed).Nodup
  numbers : ∀ d ∈ defs, d.1.head?.any isDigit = false
  size : defs.length ≤ 2 ^ 29

/-- The bytes of a name as one number. -/
def key (d : Definition) : Nat := d.1.foldl (fun n b => n * 256 + b.toNat) 0

theorem predefined_jsAtomInit : Predefined jsAtomInit where
  distinct := List.Nodup.of_map key (by decide +kernel)
  numbers := by decide +kernel
  size := by decide +kernel

namespace Runtime

variable {rt rt' : Runtime} {predefined i : Nat}

/-- `i` atoms have been made, and none freed. -/
structure Fresh (rt : Runtime) (i : Nat) : Prop where
  size : rt.atomArray = [] ∧ i = 0 ∨ i < rt.atomArray.length
  index : rt.atomFreeIndex = if i + 1 < rt.atomArray.length then i + 1 else 0
  slots : ∀ k, i < k → k < rt.atomArray.length →
    rt.atomArray[k]? = some (.free (if k = rt.atomArray.length - 1 then 0 else k + 1))

theorem Fresh.grow (h : rt.Fresh i) (hi : i < 2 ^ 29) : ∃ rt', rt.grow = some rt' ∧
    rt'.Fresh i ∧ rt'.atomFreeIndex = i + 1 ∧ i + 1 < rt'.atomArray.length := by
  unfold Runtime.grow
  by_cases hfree : rt.atomFreeIndex ≠ 0
  · rw [if_pos hfree]
    have hindex := h.index
    split at hindex
    next hlt => exact ⟨rt, rfl, h, hindex, hlt⟩
    next => exact absurd hindex hfree
  · rw [if_neg hfree]
    have hlen : rt.atomArray = [] ∧ i = 0 ∨ rt.atomArray ≠ [] ∧ rt.atomArray.length = i + 1 := by
      rcases h.size with hnil | hlt
      · exact Or.inl hnil
      · have hindex := h.index
        refine Or.inr ⟨List.ne_nil_of_length_pos (by omega), ?_⟩
        split at hindex
        next => omega
        next => omega
    dsimp only
    generalize hslots : (if rt.atomArray = [] then [Slot.used nullAtom] else rt.atomArray) = slots
    generalize hsize : max 211 (rt.atomArray.length * 3 / 2) = newSize
    have hslen : slots.length = i + 1 ∧ i + 1 < newSize ∧ newSize ≤ atomMax := by
      unfold atomMax
      rcases hlen with ⟨hnil, rfl⟩ | ⟨hne, hlen⟩
      · rw [if_pos hnil] at hslots
        rw [← hslots, ← hsize, hnil]
        decide
      · rw [if_neg hne] at hslots
        rw [← hslots, ← hsize]
        omega
    rw [if_neg (Nat.not_lt.2 hslen.2.2)]
    have hnew : (newSlots slots newSize).length = newSize := length_newSlots (by omega)
    refine ⟨_, rfl, ⟨Or.inr ?_, ?_, ?_⟩, hslen.1, ?_⟩
    · show i < (newSlots slots newSize).length
      omega
    · show slots.length = if i + 1 < (newSlots slots newSize).length then i + 1 else 0
      rw [if_pos (by omega), hslen.1]
    · intro k hk hlt
      show (newSlots slots newSize)[k]? =
        some (.free (if k = (newSlots slots newSize).length - 1 then 0 else k + 1))
      rw [hnew]
      exact newSlots_new (by omega) (hnew ▸ hlt)
    · show i + 1 < (newSlots slots newSize).length
      omega

theorem Fresh.fill (h : rt.Fresh i) (hindex : rt.atomFreeIndex = i + 1)
    (hlt : i + 1 < rt.atomArray.length) (p : AtomStruct) : (rt.fill p).Fresh (i + 1) := by
  have hlen : (rt.fill p).atomArray.length = rt.atomArray.length := List.length_set
  refine ⟨Or.inr (hlen ▸ hlt), ?_, ?_⟩
  · show rt.freeNext rt.atomFreeIndex = _
    rw [hlen]
    unfold freeNext
    rw [hindex, h.slots (i + 1) (Nat.lt_succ_self i) hlt]
    show (if i + 1 = rt.atomArray.length - 1 then 0 else i + 1 + 1) = _
    split
    next => rw [if_neg (by omega)]
    next => rw [if_pos (by omega)]
  · intro k hk hklt
    rw [hlen] at hklt ⊢
    show (rt.atomArray.set rt.atomFreeIndex (.used p))[k]? = _
    rw [hindex, List.getElem?_set_ne (by omega)]
    exact h.slots k (by omega) hklt

theorem Fresh.addAtom (h : rt.Fresh i) (hi : i < 2 ^ 29) (p : AtomStruct) :
    (rt.addAtom p).2 = i + 1 ∧ (rt.addAtom p).1.Fresh (i + 1) := by
  obtain ⟨rt', hgrow, hfresh, hindex, hlt⟩ := h.grow hi
  unfold Runtime.addAtom
  rw [hgrow]
  have hfill := hfresh.fill hindex hlt p
  refine ⟨hindex, ?_⟩
  unfold use
  dsimp only
  split
  next => exact hfill
  next =>
    split
    next => exact ⟨hfill.size, hfill.index, hfill.slots⟩
    next => exact ⟨hfill.size, hfill.index, hfill.slots⟩

/-- The definitions `made` have become the atoms 1, 2, ..., and nothing else is in the table. -/
structure Made (rt : Runtime) (made : List Definition) : Prop where
  inv : rt.Inv
  fresh : rt.Fresh made.length
  atoms : ∀ j d, made[j]? = some d → ∃ p, rt.atom? (j + 1) = some p ∧
    p.string.units = d.1.map UInt8.toUInt16 ∧ p.atomType = storedType d.2
  hashed : ∀ k p, rt.atom? k = some p → p.atomType.hashed = true → ∃ d ∈ made,
    p.atomType = d.2 ∧ p.string.units = d.1.map UInt8.toUInt16
  bound : ∀ k p, rt.atom? k = some p → k ≤ made.length

theorem initial_made : initial.Made [] where
  inv := initial_inv
  fresh := ⟨Or.inl ⟨rfl, rfl⟩, rfl, fun k _ hk => absurd hk (Nat.not_lt_zero k)⟩
  atoms j d hd := by cases hd
  hashed k p hp := by cases hp
  bound k p hp := by cases hp

theorem map_toUInt16_injective {l l' : List UInt8} (h : l.map UInt8.toUInt16 = l'.map UInt8.toUInt16) :
    l = l' := by
  refine List.map_injective_iff.2 (fun a b hab => ?_) h
  rw [← UInt8.toNat_inj, ← UInt8.toNat_toUInt16, hab, UInt8.toNat_toUInt16]

theorem isNumString_name {d : Definition} (h : d.1.head?.any isDigit = false) :
    isNumString (newString8 d.1).units = none := by
  apply isNumString_none
  intro c hc hdigit
  obtain ⟨b, hb, rfl⟩ : ∃ b, d.1.head? = some b ∧ b.toUInt16 = c := by
    show ∃ b, d.1.head? = some b ∧ b.toUInt16 = c
    rw [← Option.map_eq_some_iff, ← List.head?_map]
    exact hc
  unfold Digit at hdigit
  rw [UInt8.toNat_toUInt16] at hdigit
  rw [hb] at h
  have hnot : ¬ (48 ≤ b ∧ b ≤ 57) := of_decide_eq_false h
  exact hnot ⟨UInt8.le_iff_toNat_le.2 hdigit.1, UInt8.le_iff_toNat_le.2 hdigit.2⟩

/-- A name that is not there yet is added. -/
theorem newAtom_added (h : rt.Inv) {str : JSString} {type : AtomType}
    (hnumbers : isNumString str.units = none)
    (hnot : type.hashed = true → ∀ i q, rt.atom? i = some q → q.atomType = type →
      q.string.units ≠ str.units) :
    ∃ p, rt.newAtom predefined str type = rt.addAtom p ∧ rt.Fits p ∧ p.string = str ∧
      p.atomType = storedType type := by
  unfold newAtom storedType
  by_cases hh : type.hashed = true
  · rw [if_pos hh, if_pos hh]
    dsimp only
    rcases lookup_spec h (hashString str.units type.code) fun q =>
      decide (q.hash = hashString str.units type.code ∧ q.atomType = type ∧ q.string.units = str.units)
      with ⟨hzero, -⟩ | ⟨-, p, hp, htest⟩
    · rw [if_neg (not_not_intro hzero)]
      refine ⟨_, rfl, ⟨⟨Or.inl hh, Nat.one_pos⟩, fun _ => rfl, hnot, ?_⟩, rfl, rfl⟩
      intro n _ hn
      rw [show isNumString str.units = some n from hn] at hnumbers
      cases hnumbers
    · obtain ⟨-, htype, hunits⟩ := of_decide_eq_true htest
      exact absurd hunits (hnot hh _ p hp htype)
  · rw [if_neg hh, if_neg hh]
    refine ⟨_, rfl, ⟨⟨Or.inr rfl, Nat.one_pos⟩, ?_, ?_, ?_⟩, rfl, rfl⟩
    · exact fun hsymbol => Bool.noConfusion hsymbol
    · exact fun hsymbol => Bool.noConfusion hsymbol
    · exact fun n hsymbol => AtomType.noConfusion hsymbol

theorem Made.newAtom {made : List Definition} {d : Definition} (h : rt.Made made)
    (hdistinct : d.2.hashed = true → d ∉ made) (hname : d.1.head?.any isDigit = false)
    (hsize : made.length < 2 ^ 29) :
    (rt.newAtom predefined (newString8 d.1) d.2).2 = made.length + 1 ∧
      (rt.newAtom predefined (newString8 d.1) d.2).1.Made (made ++ [d]) := by
  have hnot : d.2.hashed = true → ∀ i q, rt.atom? i = some q → q.atomType = d.2 →
      q.string.units ≠ (newString8 d.1).units := by
    intro hh i q hq htype hunits
    obtain ⟨d', hd', htype', hunits'⟩ := h.hashed i q hq (htype ▸ hh)
    have hbytes := map_toUInt16_injective (hunits'.symm.trans hunits)
    have heq : d' = d := Prod.ext hbytes (htype'.symm.trans htype)
    exact hdistinct hh (heq ▸ hd')
  obtain ⟨p, heq, hfits, hs, ht⟩ : ∃ p, rt.newAtom predefined (newString8 d.1) d.2 = rt.addAtom p ∧ _ :=
    newAtom_added h.inv (isNumString_name hname) hnot
  rw [heq]
  obtain ⟨hindex, hfresh⟩ := h.fresh.addAtom hsize p
  obtain ⟨hinv, hkeeps, hnew, hold⟩ := addAtom_spec h.inv hfits
  have hsome := (hnew (by omega)).2
  rw [hindex] at hsome hold
  have hcase : ∀ k q, (rt.addAtom p).1.atom? k = some q →
      k = 0 ∨ k = made.length + 1 ∧ q = p ∨ rt.atom? k = some q := by
    intro k q hq
    by_cases h0 : k = 0
    · exact Or.inl h0
    · by_cases hk : k = made.length + 1
      · subst hk
        rw [hsome] at hq
        exact Or.inr (Or.inl ⟨rfl, (Option.some.inj hq).symm⟩)
      · rw [hold k h0 hk] at hq
        exact Or.inr (Or.inr hq)
  have hunits : p.string.units = d.1.map UInt8.toUInt16 := by
    rw [hs]
    rfl
  refine ⟨hindex, hinv, ?_, ?_, ?_, ?_⟩
  · rw [List.length_append]
    exact hfresh
  · intro j e hj
    by_cases hlt : j < made.length
    · rw [List.getElem?_append_left hlt] at hj
      obtain ⟨q, hq, hqu, hqt⟩ := h.atoms j e hj
      obtain ⟨q', hq', hs', ht'⟩ := hkeeps _ q hq
      exact ⟨q', hq', (congrArg JSString.units hs').trans hqu, ht'.trans hqt⟩
    · have hlen := (List.getElem?_eq_some_iff.1 hj).1
      rw [List.length_append, List.length_singleton] at hlen
      have hj' : j = made.length := by omega
      subst hj'
      rw [List.getElem?_concat_length] at hj
      obtain rfl := Option.some.inj hj
      exact ⟨p, hsome, hunits, ht⟩
  · intro k q hq hh
    rcases hcase k q hq with rfl | ⟨-, rfl⟩ | hq
    · exact absurd rfl (hinv.holds.ne_zero ⟨q, hq, hh⟩)
    · refine ⟨d, List.mem_append_right _ (List.mem_singleton_self d), ?_, hunits⟩
      rw [ht] at hh ⊢
      unfold storedType at hh ⊢
      split at hh
      next hd => rw [if_pos hd]
      next => cases hh
    · obtain ⟨e, he, het, heu⟩ := h.hashed k q hq hh
      exact ⟨e, List.mem_append_left _ he, het, heu⟩
  · intro k q hq
    rw [List.length_append, List.length_singleton]
    rcases hcase k q hq with rfl | ⟨rfl, -⟩ | hq
    · exact Nat.zero_le _
    · exact Nat.le_refl _
    · exact (h.bound k q hq).trans (Nat.le_succ _)

theorem initLoop_made {made defs : List Definition} (h : rt.Made made)
    (hdefs : Predefined (made ++ defs)) :
    ∃ rt', initLoop predefined rt defs = some rt' ∧ rt'.Made (made ++ defs) := by
  induction defs generalizing rt made with
  | nil => exact ⟨rt, rfl, by rwa [List.append_nil]⟩
  | cons d defs ih =>
    have hsize := hdefs.size
    rw [List.length_append, List.length_cons] at hsize
    have hdistinct : d.2.hashed = true → d ∉ made := by
      intro hh hmem
      have hnodup := hdefs.distinct
      rw [List.filter_append, List.filter_cons, if_pos hh] at hnodup
      have hdisjoint := (List.nodup_append.1 hnodup).2.2
      exact hdisjoint d (List.mem_filter.2 ⟨hmem, hh⟩) d List.mem_cons_self rfl
    obtain ⟨hindex, hmade⟩ : (rt.newAtom predefined (newString8 d.1) d.2).2 = _ ∧ _ :=
      h.newAtom hdistinct (hdefs.numbers d (List.mem_append_right _ List.mem_cons_self)) (by omega)
    have hsplit : made ++ d :: defs = (made ++ [d]) ++ defs := by
      rw [List.append_assoc, List.singleton_append]
    rw [hsplit] at hdefs ⊢
    rw [initLoop, if_neg (by omega)]
    exact ih hmade hdefs

/-- **A runtime begins** with each name at its number. -/
theorem initAtoms_made {defs : List Definition} (hdefs : Predefined defs) :
    ∃ rt, initAtoms defs = some rt ∧ rt.Made defs :=
  initLoop_made initial_made hdefs

/-- `JS_ATOM_length` is 48. -/
example : ∃ rt p, initAtoms jsAtomInit = some rt ∧ rt.atom? 48 = some p ∧
    p.string.units = (bytes "length").map UInt8.toUInt16 := by
  obtain ⟨rt, hrt, hmade⟩ := initAtoms_made predefined_jsAtomInit
  obtain ⟨p, hp, hunits, -⟩ := hmade.atoms 47 (bytes "length", .string) (by decide +kernel)
  exact ⟨rt, p, hrt, hp, hunits⟩

end Runtime

/-! ## The engine -/

/-- A runtime, with the references that the engine has to each atom. -/
structure State where
  rt : Runtime
  held : Nat → Nat := fun _ => 0

inductive Action
  | newAtomLen (str : List UInt8)
  | newAtomStr (str : JSString)
  /-- `JS_NewSymbol`, of any type but that of names. -/
  | newSymbol (description : JSString) (type : AtomType)
  | dupAtom (a : Nat)
  | freeAtom (a : Nat)

namespace State

variable (s : State) (predefined : Nat)

/-- The engine may use the atom. -/
def Live (a : Nat) : Prop := isConst predefined a = true ∨ 0 < s.held a

instance (a : Nat) : Decidable (s.Live predefined a) := inferInstanceAs (Decidable (_ ∨ _))

/-- The engine has got an atom, unless it is `JS_ATOM_NULL`. -/
def got (r : Runtime × Nat) : State where
  rt := r.1
  held := if r.2 = 0 then s.held else Function.update s.held r.2 (s.held r.2 + 1)

end State

/-- The engine gives back only what it has. -/
def step (predefined : Nat) (s : State) : Action → Option State
  | .newAtomLen str => some (s.got (s.rt.newAtomLen predefined str))
  | .newAtomStr str => some (s.got (s.rt.newAtomStr predefined str))
  | .newSymbol description type =>
    if type = .string then none else some (s.got (s.rt.newAtom predefined description type))
  | .dupAtom a =>
    if s.Live predefined a then
      some ⟨s.rt.dupAtom predefined a, Function.update s.held a (s.held a + 1)⟩
    else none
  | .freeAtom a =>
    if s.Live predefined a then
      some ⟨s.rt.freeAtom predefined a, Function.update s.held a (s.held a - 1)⟩
    else none

/-- The names have their numbers, and an atom of another number is there as long as somebody has it. -/
structure State.Inv (defs : List Definition) (s : State) : Prop where
  rt : s.rt.Inv
  names : ∀ j d, defs[j]? = some d → ∃ p, s.rt.atom? (j + 1) = some p ∧
    p.string.units = d.1.map UInt8.toUInt16 ∧ p.atomType = storedType d.2
  counted : ∀ a, isConst defs.length a = false → s.rt.refs a = s.held a

namespace State

variable {defs : List Definition} {s s' : State}

theorem inv_start {rt : Runtime} (h : rt.Made defs) : ({ rt } : State).Inv defs where
  rt := h.inv
  names := h.atoms
  counted a ha := by
    unfold Runtime.refs
    cases hp : rt.atom? a with
    | none => rfl
    | some p =>
      have hle := h.bound a p hp
      unfold isConst at ha
      have hnot := of_decide_eq_false ha
      omega

theorem isConst_name {j : Nat} {d : Definition} (hd : defs[j]? = some d) :
    isConst defs.length (j + 1) = true := by
  have hlt := (List.getElem?_eq_some_iff.1 hd).1
  unfold isConst
  exact decide_eq_true (Or.inl (Nat.succ_lt_succ hlt))

namespace Inv

theorem got (h : s.Inv defs) {r : Runtime × Nat} (hinv : r.1.Inv) (hkeeps : s.rt.Keeps r.1)
    (hgains : Runtime.Gains defs.length s.rt r.1 r.2) : (s.got r).Inv defs where
  rt := hinv
  names j d hd := by
    obtain ⟨p, hp, hunits, htype⟩ := h.names j d hd
    obtain ⟨p', hp', hs, ht⟩ := hkeeps _ p hp
    exact ⟨p', hp', (congrArg JSString.units hs).trans hunits, ht.trans htype⟩
  counted a ha := by
    have h0 := Runtime.ne_zero_of_not_const ha
    show r.1.refs a = (if r.2 = 0 then s.held else Function.update s.held r.2 (s.held r.2 + 1)) a
    rw [hgains a ha, h.counted a ha]
    by_cases hr : r.2 = 0
    · rw [if_pos hr, hr, if_neg h0, Nat.add_zero]
    · rw [if_neg hr]
      by_cases har : a = r.2
      · rw [if_pos har, har, Function.update_self]
      · rw [if_neg har, Function.update_of_ne har, Nat.add_zero]

theorem dupAtom (h : s.Inv defs) {a : Nat} (hlive : s.Live defs.length a) :
    State.Inv defs ⟨s.rt.dupAtom defs.length a, Function.update s.held a (s.held a + 1)⟩ := by
  by_cases hconst : isConst defs.length a = true
  · have heq : s.rt.dupAtom defs.length a = s.rt := if_pos hconst
    rw [heq]
    refine ⟨h.rt, h.names, ?_⟩
    intro b hb
    have hne : b ≠ a := by
      rintro rfl
      rw [hconst] at hb
      cases hb
    show s.rt.refs b = Function.update s.held a (s.held a + 1) b
    rw [Function.update_of_ne hne]
    exact h.counted b hb
  · have hheld := hlive.resolve_left hconst
    rw [← h.counted a (Bool.eq_false_iff.2 hconst), h.rt.refs_pos_iff] at hheld
    obtain ⟨p, hp⟩ := hheld
    obtain ⟨hinv, hkeeps, hgains⟩ : (s.rt.dupAtom defs.length a).Inv ∧ _ ∧ _ :=
      Runtime.dupAtom_spec h.rt hp
    have hgot := h.got (r := (_, a)) hinv hkeeps hgains
    unfold State.got at hgot
    rw [if_neg (Runtime.ne_zero_of_not_const (Bool.eq_false_iff.2 hconst))] at hgot
    exact hgot

/-- Who has an atom does not lose it to a reference given back. -/
theorem freeAtom_value (h : s.Inv defs) {a b : Nat} {units : List UInt16}
    (hlive : State.Live ⟨s.rt.freeAtom defs.length a, Function.update s.held a (s.held a - 1)⟩
      defs.length b) (hb : s.rt.atomToValue b = some units) :
    (s.rt.freeAtom defs.length a).atomToValue b = some units := by
  obtain ⟨hinv, -, hkeeps⟩ : (s.rt.freeAtom defs.length a).Inv ∧ _ ∧ _ :=
    Runtime.freeAtom_spec h.rt a
  rcases Runtime.atomToValue_cases hb with ⟨n, rfl, rfl⟩ | ⟨p, hp, htype, rfl⟩
  · exact Runtime.atomToValue_int n
  · have hstays : isConst defs.length b = true ∨ b ≠ a ∨ 1 < p.refCount := by
      rcases hlive with hconst | hheld
      · exact Or.inl hconst
      · by_cases hconst : isConst defs.length b = true
        · exact Or.inl hconst
        · refine Or.inr ?_
          by_cases hba : b = a
          · right
            subst hba
            have hcount := h.counted b (Bool.eq_false_iff.2 hconst)
            unfold Runtime.refs at hcount
            rw [hp] at hcount
            have hmore : 0 < Function.update s.held b (s.held b - 1) b := hheld
            rw [Function.update_self, ← hcount] at hmore
            have hrefs : 0 < p.refCount - 1 := hmore
            omega
          · exact Or.inl hba
    obtain ⟨p', hp', hs, ht⟩ := hkeeps b p hp hstays
    rw [Runtime.atomToValue_of_atom? hinv hp' (ht.trans htype), hs]

theorem freeAtom (h : s.Inv defs) (a : Nat) :
    State.Inv defs ⟨s.rt.freeAtom defs.length a, Function.update s.held a (s.held a - 1)⟩ := by
  obtain ⟨hinv, hrefs, hkeeps⟩ : (s.rt.freeAtom defs.length a).Inv ∧ _ ∧ _ :=
    Runtime.freeAtom_spec h.rt a
  refine ⟨hinv, ?_, ?_⟩
  · intro j d hd
    obtain ⟨p, hp, hunits, htype⟩ := h.names j d hd
    obtain ⟨p', hp', hs, ht⟩ := hkeeps _ p hp (Or.inl (isConst_name hd))
    exact ⟨p', hp', (congrArg JSString.units hs).trans hunits, ht.trans htype⟩
  · intro b hb
    show (s.rt.freeAtom defs.length a).refs b = Function.update s.held a (s.held a - 1) b
    rw [hrefs b hb, h.counted b hb]
    by_cases hba : b = a
    · rw [if_pos hba, hba, Function.update_self]
    · rw [if_neg hba, Function.update_of_ne hba, Nat.sub_zero]

end Inv

/-- What a step makes of the table, and of one's own references. -/
theorem Inv.step {action : Action} (h : s.Inv defs) (hs : Atoms.step defs.length s action = some s') :
    s'.Inv defs ∧ ∀ a units, s'.Live defs.length a → s.rt.atomToValue a = some units →
      s'.rt.atomToValue a = some units := by
  cases action with
  | newAtomLen str =>
    obtain rfl := Option.some.inj hs
    obtain ⟨hnew, hold⟩ : (_ → Runtime.Interned defs.length _ _ _) ∧ (_ → _ → _ ∧ _) :=
      Runtime.newAtomLen_interned h.rt str
    by_cases hlatin : str.head?.any isDigit = true ∨ ¬ s.rt.HasBytes str
    · have hi := hnew hlatin
      exact ⟨h.got hi.inv hi.keeps hi.gains, fun a units _ => hi.keeps.atomToValue⟩
    · rw [not_or, Bool.not_eq_true, not_not] at hlatin
      have hi := (hold hlatin.1 hlatin.2).1
      exact ⟨h.got hi.inv hi.keeps hi.gains, fun a units _ => hi.keeps.atomToValue⟩
  | newAtomStr str =>
    obtain rfl := Option.some.inj hs
    have hi : Runtime.Interned defs.length _ _ _ := Runtime.newAtomStr_interned h.rt str
    exact ⟨h.got hi.inv hi.keeps hi.gains, fun a units _ => hi.keeps.atomToValue⟩
  | newSymbol description type =>
    obtain ⟨htype, hs⟩ := Option.ite_none_left_eq_some.1 hs
    obtain rfl := Option.some.inj hs
    obtain ⟨hinv, hkeeps, hgains, -⟩ :
        (s.rt.newAtom defs.length description type).1.Inv ∧ s.rt.Keeps _ ∧ _ ∧ _ :=
      Runtime.newAtom_spec h.rt fun n hstring => absurd hstring htype
    exact ⟨h.got hinv hkeeps hgains, fun a units _ => hkeeps.atomToValue⟩
  | dupAtom a =>
    obtain ⟨hlive, hs⟩ := Option.ite_none_right_eq_some.1 hs
    obtain rfl := Option.some.inj hs
    exact ⟨h.dupAtom hlive, fun b units _ => (h.rt.dupAtom_keeps a).atomToValue⟩
  | freeAtom a =>
    obtain ⟨-, hs⟩ := Option.ite_none_right_eq_some.1 hs
    obtain rfl := Option.some.inj hs
    exact ⟨h.freeAtom a, fun b units => h.freeAtom_value⟩

theorem inv_of_reaches {P : State → Action → Prop} {rt : Runtime} (hdefs : Predefined defs)
    (hrt : initAtoms defs = some rt) (h : Reaches (Atoms.step defs.length) P { rt } s) :
    s.Inv defs := by
  obtain ⟨rt', hrt', hmade⟩ := Runtime.initAtoms_made hdefs
  rw [hrt] at hrt'
  obtain rfl := Option.some.inj hrt'
  exact h.invariant (State.Inv defs) (inv_start hmade) fun s a s' hi _ hs => (hi.step hs).1

end State

section

variable {defs : List Definition} {rt : Runtime} {s s' : State} {P : State → Action → Prop}

/-- **The table**, in every state that a runtime comes to: the names of `quickjs-atom.h` have their
numbers, no string has two atoms, and an atom that is no name is in the table with as many references
as the engine has to it. -/
theorem atoms_kept (hdefs : Predefined defs) (hrt : initAtoms defs = some rt)
    (h : Reaches (step defs.length) P { rt } s) :
    (∀ j d, defs[j]? = some d → ∃ p, s.rt.atom? (j + 1) = some p ∧
      p.string.units = d.1.map UInt8.toUInt16 ∧ p.atomType = storedType d.2) ∧
    (∀ a b units, a < 2 ^ 32 → b < 2 ^ 32 → s.rt.atomToValue a = some units →
      s.rt.atomToValue b = some units → a = b) ∧
    ∀ a, isConst defs.length a = false → s.rt.refs a = s.held a := by
  have hi := State.inv_of_reaches hdefs hrt h
  exact ⟨hi.names, fun a b units ha hb hva hvb => Runtime.atomToValue_injective hi.rt hva hvb ha hb,
    hi.counted⟩

/-- **Interning**: as long as the engine has the atom that a string got, that is the atom that a
string gets, whenever it asks, if and only if it has the same units. -/
theorem interned_iff (hdefs : Predefined defs) (hrt : initAtoms defs = some rt)
    (h : Reaches (step defs.length) P { rt } s) (str : JSString) {a : Nat}
    (ha : (s.rt.newAtomStr defs.length str).2 = a) (h0 : a ≠ 0)
    (h' : Reaches (step defs.length) (fun t _ => t.Live defs.length a)
      (s.got (s.rt.newAtomStr defs.length str)) s') (hlive : s'.Live defs.length a)
    (str' : JSString) : (s'.rt.newAtomStr defs.length str').2 = a ↔ str'.units = str.units := by
  have hi := State.inv_of_reaches hdefs hrt h
  have hnew : Runtime.Interned defs.length _ _ _ := Runtime.newAtomStr_interned hi.rt str
  have hlt := hnew.lt
  have hvalue := hnew.value (ha ▸ h0)
  rw [ha] at hlt hvalue
  have hkept : s'.Inv defs ∧
      (s'.Live defs.length a → s'.rt.atomToValue a = some str.units) := by
    induction h' with
    | refl => exact ⟨hi.got hnew.inv hnew.keeps hnew.gains, fun _ => hvalue⟩
    | tail _ hlive' hs ih =>
      obtain ⟨hi', hvalue'⟩ := ih hlive'
      obtain ⟨hi'', hkeeps⟩ := hi'.step hs
      exact ⟨hi'', fun hlive'' => hkeeps a _ hlive'' (hvalue' hlive')⟩
  obtain ⟨hi', hvalue'⟩ := hkept
  have hstr' : Runtime.Interned defs.length _ _ _ := Runtime.newAtomStr_interned hi'.rt str'
  constructor
  · intro heq
    have hvalue'' := hstr'.value (heq ▸ h0)
    rw [heq, hstr'.keeps.atomToValue (hvalue' hlive)] at hvalue''
    exact (Option.some.inj hvalue'').symm
  · intro hunits
    exact Runtime.newAtomStr_found hi'.rt (hunits ▸ hvalue' hlive) hlt

/-- **A name in UTF-8** is read right if and only if it is ASCII, begins with a digit, or none of the
atoms is an 8 bit string that has its bytes for units. -/
theorem newAtomLen_iff (hdefs : Predefined defs) (hrt : initAtoms defs = some rt)
    (h : Reaches (step defs.length) P { rt } s) (str : List UInt8)
    (h0 : (s.rt.newAtomLen defs.length str).2 ≠ 0) :
    (s.rt.newAtomLen defs.length str).1.atomToValue (s.rt.newAtomLen defs.length str).2 =
        some (newStringLen str).units ↔
      (∀ b ∈ str, b < 0x80) ∨ str.head?.any isDigit = true ∨ ¬ s.rt.HasBytes str := by
  have hi := State.inv_of_reaches hdefs hrt h
  obtain ⟨hnew, hold⟩ : (_ → Runtime.Interned defs.length _ _ _) ∧ (_ → _ → _ ∧ _) :=
    Runtime.newAtomLen_interned hi.rt str
  by_cases hright : str.head?.any isDigit = true ∨ ¬ s.rt.HasBytes str
  · exact iff_of_true ((hnew hright).value h0) (Or.inr hright)
  · have hlatin := hright
    rw [not_or, Bool.not_eq_true, not_not] at hlatin
    have hvalue := (hold hlatin.1 hlatin.2).1.value h0
    rw [hvalue, or_iff_left hright, Option.some.injEq, eq_comm]
    exact newStringLen_units_eq_iff str

end

/-- One name of each kind. -/
def sampleAtoms : List Definition :=
  [(bytes "length", .string), (bytes "Symbol.for", .globalSymbol), (bytes "<brand>", .privateSymbol),
    (bytes "Symbol.iterator", .symbol)]

theorem predefined_sampleAtoms : Predefined sampleAtoms := ⟨by decide, by decide, by decide⟩

/-- "x" is made, had twice, and given back once. -/
def sampleRun : List Action :=
  [.newAtomLen (bytes "x"), .newAtomStr (newString8 (bytes "x")), .newAtomStr (newString8 (bytes "7")),
    .freeAtom 5]

theorem atoms_kept_sample : ∃ rt s, initAtoms sampleAtoms = some rt ∧
    run (step 4) { rt } sampleRun = some s ∧ s.held 5 = 1 ∧ s.rt.refs 5 = 1 := by
  obtain ⟨rt, hrt, -⟩ := Runtime.initAtoms_made predefined_sampleAtoms
  have hrun : ((initAtoms sampleAtoms).bind fun rt => (run (step 4) { rt } sampleRun).map
      fun s => s.held 5) = some 1 := by decide +kernel
  rw [hrt] at hrun
  obtain ⟨s, hs, hheld⟩ := Option.map_eq_some_iff.1 hrun
  refine ⟨rt, s, hrt, hs, hheld, ?_⟩
  rw [(atoms_kept predefined_sampleAtoms hrt (reaches_of_run hs (meets_true _ _))).2.2 5 (by decide)]
  exact hheld

/-- The same character with 16 bits. -/
def wideX : JSString := ⟨true, [120], fun h => Bool.noConfusion h⟩

/-- Others come and go, "x" is had twice for a while. -/
def laterRun : List Action :=
  [.newAtomLen (bytes "y"), .dupAtom 5, .freeAtom 6, .freeAtom 5, .newAtomLen (bytes "z")]

theorem interned_iff_sample : ∃ rt s, initAtoms sampleAtoms = some rt ∧
    run (step 4) (State.got { rt } (rt.newAtomStr 4 (newString8 (bytes "x")))) laterRun = some s ∧
    (s.rt.newAtomStr 4 wideX).2 = 5 := by
  obtain ⟨rt, hrt, -⟩ := Runtime.initAtoms_made predefined_sampleAtoms
  have hrun : (initAtoms sampleAtoms).map (fun rt =>
      let s := State.got { rt } (rt.newAtomStr 4 (newString8 (bytes "x")))
      ((rt.newAtomStr 4 (newString8 (bytes "x"))).2,
        decide (Meets (step 4) (fun t _ => t.Live 4 5) s laterRun),
        (run (step 4) s laterRun).map fun s => decide (s.Live 4 5))) =
      some (5, true, some true) := by decide +kernel
  rw [hrt, Option.map_some, Option.some.injEq, Prod.mk.injEq, Prod.mk.injEq] at hrun
  obtain ⟨hx, hmeets, hlive⟩ := hrun
  obtain ⟨s, hs, hlive⟩ := Option.map_eq_some_iff.1 hlive
  refine ⟨rt, s, hrt, hs, (interned_iff predefined_sampleAtoms hrt .refl (P := fun _ _ => True)
    (newString8 (bytes "x")) hx (by decide) (reaches_of_run hs (of_decide_eq_true hmeets))
    (of_decide_eq_true hlive) wideX).2 ?_⟩
  decide

/-- **"é" in UTF-8** has the bytes that "Ã©" has for units: there is an atom of that one, and the name
gets it. -/
theorem newAtomLen_misread : ∃ rt s, initAtoms sampleAtoms = some rt ∧
    run (step 4) { rt } [.newAtomStr (newString8 [0xc3, 0xa9])] = some s ∧
    (s.rt.newAtomLen 4 [0xc3, 0xa9]).1.atomToValue (s.rt.newAtomLen 4 [0xc3, 0xa9]).2 ≠
      some (newStringLen [0xc3, 0xa9]).units ∧ s.rt.HasBytes [0xc3, 0xa9] := by
  obtain ⟨rt, hrt, -⟩ := Runtime.initAtoms_made predefined_sampleAtoms
  have hrun : ((initAtoms sampleAtoms).bind fun rt =>
      (run (step 4) { rt } [.newAtomStr (newString8 [0xc3, 0xa9])]).map fun s =>
        ((s.rt.newAtomLen 4 [0xc3, 0xa9]).2,
          (s.rt.newAtomLen 4 [0xc3, 0xa9]).1.atomToValue (s.rt.newAtomLen 4 [0xc3, 0xa9]).2)) =
      some (5, some [0xc3, 0xa9]) := by decide +kernel
  rw [hrt, Option.bind_some] at hrun
  obtain ⟨s, hs, hvalue⟩ := Option.map_eq_some_iff.1 hrun
  obtain ⟨h5, hvalue⟩ := Prod.mk.inj hvalue
  have hne : (s.rt.newAtomLen 4 [0xc3, 0xa9]).1.atomToValue (s.rt.newAtomLen 4 [0xc3, 0xa9]).2 ≠
      some (newStringLen [0xc3, 0xa9]).units := by
    rw [hvalue]
    decide +kernel
  have hiff := newAtomLen_iff predefined_sampleAtoms hrt (reaches_of_run hs (meets_true _ _))
    [0xc3, 0xa9] (by rw [show sampleAtoms.length = 4 from rfl, h5]; decide)
  refine ⟨rt, s, hrt, hs, hne, ?_⟩
  by_contra hno
  exact hne (hiff.2 (Or.inr (Or.inr hno)))

end HybridStack.QuickJs.Atoms
