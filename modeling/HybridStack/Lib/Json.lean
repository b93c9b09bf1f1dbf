import Mathlib.Data.List.Basic
import Mathlib.Data.List.Perm.Basic

/-!
# JSON documents

Values with 32-bit integers for numbers. The members of an object are a list in the order of the
text, which two equal objects need not share: `Same` is equality of documents.

Main results:
- `Json.induct`: induction over the elements of arrays and the members of objects.
- `Same.nullFree_iff`: equal documents both have a null somewhere, or neither has.
-/

inductive Json
  | null
  | bool (b : Bool)
  | int (i : Int32)
  | str (s : String)
  | arr (items : List Json)
  | obj (members : List (String × Json))
  deriving Repr, Inhabited

namespace Json

/-- The cases of an induction. -/
theorem induct {P : Json → Prop} (null : P .null) (bool : ∀ b, P (.bool b)) (int : ∀ i, P (.int i))
    (str : ∀ s, P (.str s)) (arr : ∀ items, (∀ j ∈ items, P j) → P (.arr items))
    (obj : ∀ members, (∀ m ∈ members, P m.2) → P (.obj members)) : ∀ j, P j
  | .null => null
  | .bool b => bool b
  | .int i => int i
  | .str s => str s
  | .arr items => arr items fun j _ => induct null bool int str arr obj j
  | .obj members => obj members fun m _ => induct null bool int str arr obj m.2
termination_by j => sizeOf j
decreasing_by
  · have := List.sizeOf_lt_of_mem ‹j ∈ items›
    simp only [Json.arr.sizeOf_spec]
    omega
  · have hm := List.sizeOf_lt_of_mem ‹m ∈ members›
    obtain ⟨k, v⟩ := m
    simp only [Json.obj.sizeOf_spec, Prod.mk.sizeOf_spec] at hm ⊢
    omega

def isNull : Json → Bool
  | .null => true
  | _ => false

/-- An array or an object. -/
def isContainer : Json → Bool
  | .arr _ | .obj _ => true
  | _ => false

/-- No object has a key twice. -/
inductive WellFormed : Json → Prop
  | null : WellFormed .null
  | bool (b : Bool) : WellFormed (.bool b)
  | int (i : Int32) : WellFormed (.int i)
  | str (s : String) : WellFormed (.str s)
  | arr {items : List Json} : (∀ j ∈ items, WellFormed j) → WellFormed (.arr items)
  | obj {members : List (String × Json)} : (members.map Prod.fst).Nodup →
      (∀ m ∈ members, WellFormed m.2) → WellFormed (.obj members)

/-- There is no null in it. -/
inductive NullFree : Json → Prop
  | bool (b : Bool) : NullFree (.bool b)
  | int (i : Int32) : NullFree (.int i)
  | str (s : String) : NullFree (.str s)
  | arr {items : List Json} : (∀ j ∈ items, NullFree j) → NullFree (.arr items)
  | obj {members : List (String × Json)} : (∀ m ∈ members, NullFree m.2) → NullFree (.obj members)

/-- The same keys, the same lengths, and each element at its index. -/
inductive Same : Json → Json → Prop
  | null : Same .null .null
  | bool (b : Bool) : Same (.bool b) (.bool b)
  | int (i : Int32) : Same (.int i) (.int i)
  | str (s : String) : Same (.str s) (.str s)
  | arr {xs ys : List Json} : xs.length = ys.length →
      (∀ (i : Nat) (x y : Json), xs[i]? = some x → ys[i]? = some y → Same x y) →
        Same (.arr xs) (.arr ys)
  | obj {es fs : List (String × Json)} : (es.map Prod.fst).Perm (fs.map Prod.fst) →
      (∀ (k : String) (x y : Json), (k, x) ∈ es → (k, y) ∈ fs → Same x y) → Same (.obj es) (.obj fs)

theorem NullFree.isNull {j : Json} (h : NullFree j) : j.isNull = false := by
  cases h <;> rfl

theorem Same.symm {a b : Json} (h : Same a b) : Same b a := by
  induction h with
  | null => exact .null
  | bool b => exact .bool b
  | int i => exact .int i
  | str s => exact .str s
  | arr hlen _ ih => exact .arr hlen.symm fun i x y hx hy => ih i y x hy hx
  | obj hkeys _ ih => exact .obj hkeys.symm fun k x y hx hy => ih k y x hy hx

theorem Same.nullFree {a b : Json} (h : Same a b) (ha : NullFree a) : NullFree b := by
  induction h with
  | null => exact ha
  | bool b => exact .bool b
  | int i => exact .int i
  | str s => exact .str s
  | arr hlen _ ih =>
    cases ha with
    | arr hxs =>
      refine .arr fun y hy => ?_
      obtain ⟨i, hi⟩ := List.mem_iff_getElem?.1 hy
      have hlt := hlen ▸ (List.getElem?_eq_some_iff.1 hi).1
      have hx := List.getElem?_eq_getElem hlt
      exact ih i _ y hx hi (hxs _ (List.mem_of_getElem? hx))
  | obj hkeys _ ih =>
    cases ha with
    | obj hes =>
      refine .obj fun m hm => ?_
      obtain ⟨e, he, hek⟩ := List.mem_map.1 (hkeys.mem_iff.2 (List.mem_map_of_mem hm))
      obtain ⟨k, y⟩ := m
      obtain ⟨k', x⟩ := e
      obtain rfl : k' = k := hek
      exact ih k' x y he hm (hes _ he)

theorem Same.nullFree_iff {a b : Json} (h : Same a b) : NullFree a ↔ NullFree b :=
  ⟨h.nullFree, h.symm.nullFree⟩

end Json
