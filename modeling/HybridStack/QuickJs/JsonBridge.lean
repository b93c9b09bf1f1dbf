import HybridStack.Lib.Json
import HybridStack.Lib.LinkedMap
import Mathlib.Data.List.ReduceOption

/-!
# JSON through the engine

A document is copied into objects of the engine by `append` and back by `toJSONObject` and
`toJSONArray`, each skipping the values it does not recognise.

| here | there |
| --- | --- |
| `convert` | the chains of `instanceof` in JSObject.append and JSArray.append (JSObject.java:41-55, JSArray.java:27-41) with the constructors they call |
| `appendObject`, `appendArray` | the loops around them |
| `toJSON` | the chains in toJSONObject and toJSONArray (JSObject.java:283-306, JSArray.java:148-158) |
| `Heap.set`, `Heap.push`, `Heap.keys` | `_set`, `_arrayAdd`, `_getKeys`, quickjs-jni.cpp |

Objects and arrays are cells of a heap and are handed around by their address. Properties and
elements read back as they were set; the order in which the engine enumerates the keys of an object
is a parameter. Numbers are 32-bit integers.

- **`readBack_same_iff`**: what comes back is the document if and only if there is no null in it.
- `load_readBack`: what comes back, whatever the document.
- `null_shifts`: an array with a null in the middle.
-/

namespace HybridStack.QuickJs.JsonBridge

/-! ## The engine -/

abbrev Addr := Nat

/-- What `get` hands to Java. -/
inductive Value
  | undefined
  | null
  | bool (b : Bool)
  | int (i : Int32)
  | str (s : String)
  | object (a : Addr)
  | array (a : Addr)
  | function (a : Addr)
  deriving DecidableEq, Repr

inductive Cell
  | object (properties : LinkedMap String Value)
  | array (items : List Value)

abbrev Heap := List Cell

/-- The order in which keys are enumerated. -/
structure KeyOrder where
  sort : List String → List String
  perm : ∀ keys, (sort keys).Perm keys

def Heap.properties (h : Heap) (a : Addr) : LinkedMap String Value :=
  match h[a]? with
  | some (.object properties) => properties
  | _ => .empty

def Heap.items (h : Heap) (a : Addr) : List Value :=
  match h[a]? with
  | some (.array items) => items
  | _ => []

def Heap.set (h : Heap) (a : Addr) (key : String) (v : Value) : Heap :=
  h.modify a fun
    | .object properties => .object (properties.put key v)
    | cell => cell

def Heap.push (h : Heap) (a : Addr) (v : Value) : Heap :=
  h.modify a fun
    | .array items => .array (items ++ [v])
    | cell => cell

def Heap.get (h : Heap) (a : Addr) (key : String) : Value :=
  ((h.properties a).get key).getD .undefined

def Heap.keys (order : KeyOrder) (h : Heap) (a : Addr) : List String :=
  order.sort (h.properties a).keys

/-! ## In -/

mutual

/-- What is set or pushed for a value of a document, `none` when no branch takes it. -/
def convert : Json → Heap → Option Value × Heap
  | .str s, h => (some (.str s), h)
  | .int i, h => (some (.int i), h)
  | .bool b, h => (some (.bool b), h)
  | .obj members, h =>
    (some (.object h.length), appendObject h.length members (h ++ [.object .empty]))
  | .arr items, h => (some (.array h.length), appendArray h.length items (h ++ [.array []]))
  | .null, h => (none, h)

def appendObject (a : Addr) : List (String × Json) → Heap → Heap
  | [], h => h
  | (key, obj) :: rest, h =>
    match convert obj h with
    | (some v, h) => appendObject a rest (h.set a key v)
    | (none, h) => appendObject a rest h

def appendArray (a : Addr) : List Json → Heap → Heap
  | [], h => h
  | obj :: rest, h =>
    match convert obj h with
    | (some v, h) => appendArray a rest (h.push a v)
    | (none, h) => appendArray a rest h

end

/-! ## Out -/

/-- What is put for a value of the engine, `none` inside when nothing is; `none` when objects nest
deeper than the fuel. No key is enumerated twice, so each `put` is of a new key. -/
def toJSON (order : KeyOrder) (h : Heap) : Nat → Value → Option (Option Json)
  | _, .undefined | _, .function _ | _, .null => some none
  | _, .int i => some (some (.int i))
  | _, .str s => some (some (.str s))
  | _, .bool b => some (some (.bool b))
  | 0, .array _ | 0, .object _ => none
  | fuel + 1, .array a =>
    ((h.items a).mapM (toJSON order h fuel)).map fun js => some (.arr js.reduceOption)
  | fuel + 1, .object a =>
    ((h.keys order a).mapM fun key => (toJSON order h fuel (h.get a key)).map (·.map (key, ·))).map
      fun members => some (.obj members.reduceOption)

/-- The argument of `new JSObject(context, doc)` or `new JSArray(context, arr)`. -/
structure Document where
  json : Json
  isContainer : json.isContainer = true
  wellFormed : json.WellFormed

/-- What `toJSONObject` or `toJSONArray` of the new object gives. -/
def readBack (order : KeyOrder) (doc : Document) (h : Heap) (fuel : Nat) : Option Json :=
  match convert doc.json h with
  | (some v, h) => (toJSON order h fuel v).join
  | (none, _) => none

/-! ## What comes back -/

/-- `r` is `j` without the nulls in it. -/
inductive Kept : Json → Json → Prop
  | bool (b : Bool) : Kept (.bool b) (.bool b)
  | int (i : Int32) : Kept (.int i) (.int i)
  | str (s : String) : Kept (.str s) (.str s)
  | arr {rs items : List Json} : rs.length = (items.filter fun j => !j.isNull).length →
      (∀ (i : Nat) (r j : Json), rs[i]? = some r → (items.filter fun j => !j.isNull)[i]? = some j →
        Kept r j) → Kept (.arr rs) (.arr items)
  | obj {rs members : List (String × Json)} :
      (rs.map Prod.fst).Perm ((members.filter fun m => !m.2.isNull).map Prod.fst) →
      (∀ (k : String) (r j : Json), (k, r) ∈ rs → (k, j) ∈ members → j.isNull = false → Kept r j) →
        Kept (.obj rs) (.obj members)

theorem Kept.nullFree {r j : Json} (h : Kept r j) : r.NullFree := by
  induction h with
  | bool b => exact .bool b
  | int i => exact .int i
  | str s => exact .str s
  | arr hlen _ ih =>
    refine .arr fun r hr => ?_
    obtain ⟨i, hi⟩ := List.mem_iff_getElem?.1 hr
    have hlt := hlen ▸ (List.getElem?_eq_some_iff.1 hi).1
    exact ih i r _ hi (List.getElem?_eq_getElem hlt)
  | obj hkeys _ ih =>
    refine .obj fun e he => ?_
    obtain ⟨k, r⟩ := e
    obtain ⟨m, hm, hk⟩ := List.mem_map.1 (hkeys.mem_iff.1 (List.mem_map_of_mem he))
    obtain ⟨k', j⟩ := m
    obtain rfl : k' = k := hk
    obtain ⟨hm, hj⟩ := List.mem_filter.1 hm
    exact ih k' r j he hm (by simpa using hj)

/-- Without a null there is nothing to leave out. -/
theorem Kept.same {r j : Json} (h : Kept r j) (hj : j.NullFree) : r.Same j := by
  induction h with
  | bool b => exact .bool b
  | int i => exact .int i
  | str s => exact .str s
  | @arr rs items hlen _ ih =>
    cases hj with
    | arr hitems =>
      have hall : (items.filter fun j => !j.isNull) = items :=
        List.filter_eq_self.2 fun j hj => by rw [(hitems j hj).isNull]; rfl
      rw [hall] at hlen ih
      exact .arr hlen fun i x y hx hy => ih i x y hx hy (hitems y (List.mem_of_getElem? hy))
  | @obj rs members hkeys _ ih =>
    cases hj with
    | obj hmembers =>
      have hall : (members.filter fun m => !m.2.isNull) = members :=
        List.filter_eq_self.2 fun m hm => by rw [(hmembers m hm).isNull]; rfl
      rw [hall] at hkeys
      exact .obj hkeys fun k x y hx hy => ih k x y hx hy (hmembers _ hy).isNull (hmembers _ hy)

theorem Kept.same_iff {r j : Json} (h : Kept r j) : r.Same j ↔ j.NullFree :=
  ⟨fun hsame => hsame.nullFree h.nullFree, h.same⟩

/-! ## Reading -/

/-- Every element is converted and put. -/
theorem mapM_reduceOption {α β : Type} {f : α → Option (Option β)} {l : List α} {ys : List β}
    (h : List.Forall₂ (fun x y => f x = some (some y)) l ys) :
    (l.mapM f).map List.reduceOption = some ys := by
  induction h with
  | nil => rfl
  | cons hx _ ih =>
    obtain ⟨zs, hzs, rfl⟩ := Option.map_eq_some_iff.1 ih
    rw [List.mapM_cons, hx, hzs]
    rfl

theorem exists_bound {α : Type} (n : α → Nat) : ∀ l : List α, ∃ N, ∀ x ∈ l, n x ≤ N
  | [] => ⟨0, nofun⟩
  | x :: l => by
    obtain ⟨N, hN⟩ := exists_bound n l
    refine ⟨max (n x) N, List.forall_mem_cons.2 ⟨Nat.le_max_left _ _, fun y hy => ?_⟩⟩
    exact Nat.le_trans (hN y hy) (Nat.le_max_right _ _)

variable (order : KeyOrder)

/-- With enough fuel `v` reads as `j` without its nulls, in every heap with the cells of `h` from
`lo` on. -/
def Readable (h : Heap) (lo : Nat) (v : Value) (j : Json) : Prop :=
  ∃ r n, Kept r j ∧ ∀ h' : Heap, (∀ b, lo ≤ b → b < h.length → h'[b]? = h[b]?) →
    ∀ fuel ≥ n, toJSON order h' fuel v = some (some r)

variable {order}

theorem Readable.mono {h h' : Heap} {lo lo' : Nat} {v : Value} {j : Json}
    (hv : Readable order h lo v j) (hlo : lo' ≤ lo) (hlen : h.length ≤ h'.length)
    (hcells : ∀ b, lo ≤ b → b < h.length → h'[b]? = h[b]?) : Readable order h' lo' v j := by
  obtain ⟨r, n, hkept, hread⟩ := hv
  refine ⟨r, n, hkept, fun h'' hcells' fuel hfuel => hread h'' (fun b hb hlt => ?_) fuel hfuel⟩
  rw [hcells' b (Nat.le_trans hlo hb) (Nat.lt_of_lt_of_le hlt hlen), hcells b hb hlt]

/-- The results of a list of values, with one bound for the fuel. -/
theorem forall₂_readable {h : Heap} {lo : Nat} {vs : List Value} {js : List Json}
    (hvs : List.Forall₂ (Readable order h lo) vs js) :
    ∃ rs n, List.Forall₂ Kept rs js ∧
      ∀ h' : Heap, (∀ b, lo ≤ b → b < h.length → h'[b]? = h[b]?) → ∀ fuel ≥ n,
        List.Forall₂ (fun v r => toJSON order h' fuel v = some (some r)) vs rs := by
  induction hvs with
  | nil => exact ⟨[], 0, .nil, fun _ _ _ _ => .nil⟩
  | cons hv _ ih =>
    obtain ⟨r, n, hkept, hread⟩ := hv
    obtain ⟨rs, N, hkepts, hreads⟩ := ih
    refine ⟨r :: rs, max n N, .cons hkept hkepts, fun h' hcells fuel hfuel => .cons ?_ ?_⟩
    · exact hread h' hcells fuel (Nat.le_trans (Nat.le_max_left _ _) hfuel)
    · exact hreads h' hcells fuel (Nat.le_trans (Nat.le_max_right _ _) hfuel)

theorem readable_array {h : Heap} {a : Addr} {vs : List Value} {items : List Json}
    (ha : h[a]? = some (.array vs))
    (hvs : List.Forall₂ (Readable order h (a + 1)) vs (items.filter fun j => !j.isNull)) :
    Readable order h a (.array a) (.arr items) := by
  obtain ⟨rs, n, hkepts, hreads⟩ := forall₂_readable hvs
  have hlt : a < h.length := (List.getElem?_eq_some_iff.1 ha).1
  refine ⟨.arr rs, n + 1, .arr hkepts.length_eq fun i r j hr hj => ?_, fun h' hcells fuel hfuel => ?_⟩
  · obtain ⟨hi, rfl⟩ := List.getElem?_eq_some_iff.1 hr
    obtain ⟨hi', rfl⟩ := List.getElem?_eq_some_iff.1 hj
    exact hkepts.get hi hi'
  · obtain ⟨fuel, rfl⟩ := Nat.exists_eq_add_of_le' (Nat.le_trans (Nat.le_add_left 1 n) hfuel)
    have hitems : h'.items a = vs := by rw [Heap.items, hcells a (Nat.le_refl a) hlt, ha]
    have hmap := mapM_reduceOption (hreads h' (fun b hb => hcells b (Nat.le_of_succ_le hb)) fuel (by omega))
    obtain ⟨zs, hzs, rfl⟩ := Option.map_eq_some_iff.1 hmap
    rw [toJSON, hitems, hzs, Option.map_some]

section

variable {h : Heap} {a : Addr} {properties : LinkedMap String Value} {members : List (String × Json)}

theorem keys_eq_of_readable {lo : Nat}
    (hvs : List.Forall₂ (fun e m => e.1 = m.1 ∧ Readable order h lo e.2 m.2)
      properties.entries (members.filter fun m => !m.2.isNull)) :
    properties.keys = (members.filter fun m => !m.2.isNull).map Prod.fst := by
  have hfst : List.Forall₂ (· = ·) (properties.entries.map Prod.fst)
      ((members.filter fun m => !m.2.isNull).map Prod.fst) := by
    rw [List.forall₂_map_left_iff, List.forall₂_map_right_iff]
    exact hvs.imp fun _ _ hem => hem.1
  rwa [List.forall₂_eq_eq_eq] at hfst

/-- The reading of a key, and the member it is kept of. -/
theorem readable_key (ha : h[a]? = some (.object properties)) (hnd : (members.map Prod.fst).Nodup)
    (hvs : List.Forall₂ (fun e m => e.1 = m.1 ∧ Readable order h (a + 1) e.2 m.2)
      properties.entries (members.filter fun m => !m.2.isNull)) {k : String}
    (hk : k ∈ properties.keys) :
    ∃ r n, (∀ j, (k, j) ∈ members → j.isNull = false → Kept r j) ∧
      ∀ h' : Heap, (∀ b, a ≤ b → b < h.length → h'[b]? = h[b]?) → ∀ fuel ≥ n,
        toJSON order h' fuel (h'.get a k) = some (some r) := by
  have hlt : a < h.length := (List.getElem?_eq_some_iff.1 ha).1
  obtain ⟨e, he, rfl⟩ := List.mem_map.1 hk
  obtain ⟨i, hi, rfl⟩ := List.mem_iff_getElem.1 he
  obtain ⟨hfst, r, n, hkept, hread⟩ := hvs.get hi (hvs.length_eq ▸ hi)
  have hm := (List.mem_filter.1 (List.get_mem (members.filter fun m => !m.2.isNull)
    ⟨i, hvs.length_eq ▸ hi⟩)).1
  refine ⟨r, n, fun j hj _ => ?_, fun h' hcells fuel hfuel => ?_⟩
  · rw [← List.inj_on_of_nodup_map hnd hj hm hfst] at hkept
    exact hkept
  · have hget : h'.get a properties.entries[i].1 = properties.entries[i].2 := by
      rw [Heap.get, Heap.properties, hcells a (Nat.le_refl a) hlt, ha]
      simp only [LinkedMap.mem_entries_iff.1 (show (properties.entries[i].1, properties.entries[i].2) ∈
        properties.entries from he), Option.getD_some]
    rw [hget]
    exact hread h' (fun b hb => hcells b (Nat.le_of_succ_le hb)) fuel hfuel

theorem readable_object (ha : h[a]? = some (.object properties))
    (hnd : (members.map Prod.fst).Nodup)
    (hvs : List.Forall₂ (fun e m => e.1 = m.1 ∧ Readable order h (a + 1) e.2 m.2)
      properties.entries (members.filter fun m => !m.2.isNull)) :
    Readable order h a (.object a) (.obj members) := by
  have hlt : a < h.length := (List.getElem?_eq_some_iff.1 ha).1
  have hkeys := keys_eq_of_readable hvs
  have hkey := fun k (hk : k ∈ properties.keys) => readable_key ha hnd hvs hk
  choose! r n hkept hread using hkey
  obtain ⟨N, hN⟩ := exists_bound n properties.keys
  refine ⟨.obj ((order.sort properties.keys).map fun k => (k, r k)), N + 1, .obj ?_ ?_,
    fun h' hcells fuel hfuel => ?_⟩
  · rw [List.map_map, ← hkeys]
    exact (List.map_id _).symm ▸ order.perm properties.keys
  · intro k r' j hr hj hnull
    obtain ⟨k', hk', heq⟩ := List.mem_map.1 hr
    obtain ⟨rfl, rfl⟩ := Prod.mk.inj heq
    exact hkept k' ((order.perm _).mem_iff.1 hk') j hj hnull
  · obtain ⟨fuel, rfl⟩ := Nat.exists_eq_add_of_le' (Nat.le_trans (Nat.le_add_left 1 N) hfuel)
    have hproperties : h'.keys order a = order.sort properties.keys := by
      rw [Heap.keys, Heap.properties, hcells a (Nat.le_refl a) hlt, ha]
    have hmap : List.Forall₂ (fun k m => (toJSON order h' fuel (h'.get a k)).map (·.map (k, ·)) =
        some (some m)) (order.sort properties.keys)
          ((order.sort properties.keys).map fun k => (k, r k)) := by
      rw [List.forall₂_map_right_iff, List.forall₂_same]
      intro k hk
      have hk := (order.perm _).mem_iff.1 hk
      rw [hread k hk h' hcells fuel (by have := hN k hk; omega)]
      rfl
    obtain ⟨zs, hzs, hred⟩ := Option.map_eq_some_iff.1 (mapM_reduceOption hmap)
    rw [toJSON, hproperties, hzs, Option.map_some, hred]

end

/-! ## Writing -/

/-- The heap has grown, and of the old cells only that of `a` has changed. -/
def Grows (a : Addr) (h h' : Heap) : Prop :=
  h.length ≤ h'.length ∧ ∀ b < h.length, b ≠ a → h'[b]? = h[b]?

theorem Grows.refl (a : Addr) (h : Heap) : Grows a h h := ⟨Nat.le_refl _, fun _ _ _ => rfl⟩

theorem Grows.trans {a : Addr} {h h' h'' : Heap} (hg : Grows a h h') (hg' : Grows a h' h'') :
    Grows a h h'' :=
  ⟨Nat.le_trans hg.1 hg'.1, fun b hb hne =>
    (hg'.2 b (Nat.lt_of_lt_of_le hb hg.1) hne).trans (hg.2 b hb hne)⟩

theorem grows_modify (a : Addr) (h : Heap) (f : Cell → Cell) : Grows a h (h.modify a f) :=
  ⟨Nat.le_of_eq (by rw [List.length_modify]), fun _ _ hne => List.getElem?_modify_ne _ _ (Ne.symm hne)⟩

/-- A value that lies above `a` reads the same after. -/
theorem Readable.grows {h h' : Heap} {a lo : Addr} {v : Value} {j : Json}
    (hv : Readable order h lo v j) (hlo : a < lo) (hg : Grows a h h') :
    Readable order h' (a + 1) v j :=
  hv.mono hlo hg.1 fun b hb hlt => hg.2 b hlt (Nat.ne_of_gt (Nat.lt_of_lt_of_le hlo hb))

/-- A new cell, and what was done to it, leaves the old ones. -/
theorem Grows.alloc {h h' : Heap} {c : Cell} (hg : Grows h.length (h ++ [c]) h') :
    h.length ≤ h'.length ∧ ∀ b < h.length, h'[b]? = h[b]? := by
  refine ⟨Nat.le_trans (by simp) hg.1, fun b hb => ?_⟩
  exact (hg.2 b (by simp; omega) (Nat.ne_of_lt hb)).trans (List.getElem?_append_left hb)

theorem convert_eq {j : Json} {h : Heap} {o : Option Value} (ho : (convert j h).1 = o) :
    convert j h = (o, (convert j h).2) := Prod.ext ho rfl

/-- Converting `j` adds cells, and gives a value that reads as `j` unless `j` is null. -/
structure Converted (order : KeyOrder) (j : Json) (h : Heap) : Prop where
  length : h.length ≤ (convert j h).2.length
  cells : ∀ b < h.length, (convert j h).2[b]? = h[b]?
  null : j.isNull = true → (convert j h).1 = none
  value : j.isNull = false →
    ∃ v, (convert j h).1 = some v ∧ Readable order (convert j h).2 h.length v j

theorem Converted.grows {j : Json} {h : Heap} (hc : Converted order j h) (a : Addr) :
    Grows a h (convert j h).2 :=
  ⟨hc.length, fun b hb _ => hc.cells b hb⟩

theorem appendArray_spec {items : List Json} (hitems : ∀ j ∈ items, ∀ h, Converted order j h)
    {a : Addr} : ∀ {h : Heap} {vs : List Value}, h[a]? = some (.array vs) →
      Grows a h (appendArray a items h) ∧ ∃ added,
        (appendArray a items h)[a]? = some (.array (vs ++ added)) ∧
        List.Forall₂ (Readable order (appendArray a items h) (a + 1)) added
          (items.filter fun j => !j.isNull) := by
  induction items with
  | nil => exact fun ha => ⟨Grows.refl a _, [], by simpa [appendArray] using ha, .nil⟩
  | cons j items ih =>
    intro h vs ha
    obtain ⟨hj, hrest⟩ := List.forall_mem_cons.1 hitems
    have hlt : a < h.length := (List.getElem?_eq_some_iff.1 ha).1
    have hc := hj h
    have ha' : (convert j h).2[a]? = some (.array vs) := (hc.cells a hlt).trans ha
    cases hnull : j.isNull with
    | true =>
      have happend : appendArray a (j :: items) h = appendArray a items (convert j h).2 := by
        rw [appendArray, convert_eq (hc.null hnull)]
      obtain ⟨hg, added, hadded, hread⟩ := ih hrest ha'
      rw [happend, List.filter_cons_of_neg (by simp [hnull])]
      exact ⟨(hc.grows a).trans hg, added, hadded, hread⟩
    | false =>
      obtain ⟨v, hv, hread⟩ := hc.value hnull
      have happend : appendArray a (j :: items) h =
          appendArray a items ((convert j h).2.push a v) := by
        rw [appendArray, convert_eq hv]
      have hpush : ((convert j h).2.push a v)[a]? = some (.array (vs ++ [v])) := by
        rw [Heap.push, List.getElem?_modify_eq, ha']
        rfl
      have hg₁ : Grows a (convert j h).2 ((convert j h).2.push a v) := grows_modify a _ _
      obtain ⟨hg, added, hadded, hreads⟩ := ih hrest hpush
      rw [happend, List.filter_cons_of_pos (by simp [hnull])]
      refine ⟨(hc.grows a).trans (hg₁.trans hg), v :: added, ?_, .cons ?_ hreads⟩
      · rw [hadded, List.append_assoc, List.singleton_append]
      · exact hread.grows hlt (hg₁.trans hg)

/-- The key of the first member is not one of the others. -/
theorem notMem_keys_put {properties : LinkedMap String Value} {key : String} {v : Value}
    {members : List (String × Json)} (hnewkey : key ∉ properties.keys)
    (hkey : key ∉ members.map Prod.fst) (hnew : ∀ m ∈ members, m.1 ∉ properties.keys) :
    ∀ m ∈ members, m.1 ∉ (properties.put key v).keys := by
  intro m hm hmem
  rw [LinkedMap.keys_put, if_neg hnewkey, List.mem_append, List.mem_singleton] at hmem
  rcases hmem with hmem | hmem
  · exact hnew m hm hmem
  · apply hkey
    rw [← hmem]
    exact List.mem_map_of_mem hm

theorem appendObject_spec {members : List (String × Json)}
    (hmembers : ∀ m ∈ members, ∀ h, Converted order m.2 h)
    (hnd : (members.map Prod.fst).Nodup) {a : Addr} :
    ∀ {h : Heap} {properties : LinkedMap String Value}, h[a]? = some (.object properties) →
      (∀ m ∈ members, m.1 ∉ properties.keys) →
      Grows a h (appendObject a members h) ∧ ∃ properties' added,
        (appendObject a members h)[a]? = some (.object properties') ∧
        properties'.entries = properties.entries ++ added ∧
        List.Forall₂ (fun e m => e.1 = m.1 ∧
          Readable order (appendObject a members h) (a + 1) e.2 m.2) added
            (members.filter fun m => !m.2.isNull) := by
  induction members with
  | nil =>
    intro h properties ha _
    exact ⟨Grows.refl a _, properties, [], by simpa [appendObject] using ha, by simp, .nil⟩
  | cons m members ih =>
    intro h properties ha hnew
    obtain ⟨key, j⟩ := m
    obtain ⟨hj, hrest⟩ := List.forall_mem_cons.1 hmembers
    obtain ⟨hkey, hnd⟩ := List.nodup_cons.1 hnd
    obtain ⟨hnewkey, hnew⟩ := List.forall_mem_cons.1 hnew
    have hlt : a < h.length := (List.getElem?_eq_some_iff.1 ha).1
    have hc := hj h
    have ha' : (convert j h).2[a]? = some (.object properties) := (hc.cells a hlt).trans ha
    cases hnull : j.isNull with
    | true =>
      have happend : appendObject a ((key, j) :: members) h =
          appendObject a members (convert j h).2 := by
        rw [appendObject, convert_eq (hc.null hnull)]
      obtain ⟨hg, properties', added, hadded, hentries, hread⟩ := ih hrest hnd ha' hnew
      rw [happend, List.filter_cons_of_neg (by simp [hnull])]
      exact ⟨(hc.grows a).trans hg, properties', added, hadded, hentries, hread⟩
    | false =>
      obtain ⟨v, hv, hread⟩ := hc.value hnull
      have happend : appendObject a ((key, j) :: members) h =
          appendObject a members ((convert j h).2.set a key v) := by
        rw [appendObject, convert_eq hv]
      have hset : ((convert j h).2.set a key v)[a]? = some (.object (properties.put key v)) := by
        rw [Heap.set, List.getElem?_modify_eq, ha']
        rfl
      have hg₁ : Grows a (convert j h).2 ((convert j h).2.set a key v) := grows_modify a _ _
      obtain ⟨hg, properties', added, hadded, hentries, hreads⟩ :=
        ih hrest hnd hset (notMem_keys_put hnewkey hkey hnew)
      rw [happend, List.filter_cons_of_pos (by simp [hnull])]
      refine ⟨(hc.grows a).trans (hg₁.trans hg), properties', (key, v) :: added, hadded, ?_,
        .cons ⟨rfl, hread.grows hlt (hg₁.trans hg)⟩ hreads⟩
      rw [hentries, LinkedMap.entries_put hnewkey, List.append_assoc, List.singleton_append]

/-- A value that is its own document adds nothing. -/
theorem converted_scalar {j : Json} {v : Value} {h : Heap} (hconvert : convert j h = (some v, h))
    (hkept : Kept j j) (hread : ∀ h' fuel, toJSON order h' fuel v = some (some j)) :
    Converted order j h := by
  have hnull : j.isNull = false := by
    cases j with
    | null => simp [convert] at hconvert
    | _ => rfl
  refine ⟨Nat.le_of_eq (by rw [hconvert]), fun b _ => by rw [hconvert], fun htrue => ?_, fun _ => ?_⟩
  · rw [hnull] at htrue
    cases htrue
  · rw [hconvert]
    exact ⟨v, rfl, j, 0, hkept, fun h' _ fuel _ => hread h' fuel⟩

/-- What is converted reads as the document without its nulls. -/
theorem converted (order : KeyOrder) {j : Json} (hj : j.WellFormed) : ∀ h, Converted order j h := by
  induction hj with
  | null => exact fun h => ⟨Nat.le_refl _, fun _ _ => rfl, fun _ => rfl, fun hnull => Bool.noConfusion hnull⟩
  | bool b => exact fun h => converted_scalar rfl (.bool b) fun _ _ => by rw [toJSON]
  | int i => exact fun h => converted_scalar rfl (.int i) fun _ _ => by rw [toJSON]
  | str s => exact fun h => converted_scalar rfl (.str s) fun _ _ => by rw [toJSON]
  | arr _ ih =>
    intro h
    have ha : (h ++ [Cell.array []])[h.length]? = some (.array []) := by simp
    obtain ⟨hg, added, hadded, hreads⟩ := appendArray_spec ih ha
    exact ⟨hg.alloc.1, hg.alloc.2, fun hnull => Bool.noConfusion hnull, fun _ =>
      ⟨.array h.length, rfl, readable_array hadded hreads⟩⟩
  | obj hnd _ ih =>
    intro h
    have ha : (h ++ [Cell.object .empty])[h.length]? = some (.object .empty) := by simp
    obtain ⟨hg, properties, added, hadded, hentries, hreads⟩ :=
      appendObject_spec ih hnd ha fun _ _ => List.not_mem_nil
    rw [LinkedMap.empty, List.nil_append] at hentries
    exact ⟨hg.alloc.1, hg.alloc.2, fun hnull => Bool.noConfusion hnull, fun _ =>
      ⟨.object h.length, rfl, readable_object hadded hnd (hentries ▸ hreads)⟩⟩

/-! ## Round trip -/

/-- What comes back is the document without its nulls, when the fuel suffices for its depth. -/
theorem load_readBack (order : KeyOrder) (doc : Document) (h : Heap) :
    ∃ r n, Kept r doc.json ∧ ∀ fuel ≥ n, readBack order doc h fuel = some r := by
  have hnull : doc.json.isNull = false := by
    have hcontainer := doc.isContainer
    cases hj : doc.json <;> simp_all [Json.isContainer, Json.isNull]
  obtain ⟨v, hv, r, n, hkept, hread⟩ := (converted order doc.wellFormed h).value hnull
  refine ⟨r, n, hkept, fun fuel hfuel => ?_⟩
  rw [readBack, convert_eq hv]
  simp only [hread _ (fun _ _ _ => rfl) fuel hfuel, Option.join_some]

/-- **A document survives the trip** if and only if there is no null in it. -/
theorem readBack_same_iff (order : KeyOrder) (doc : Document) (h : Heap) :
    (∃ r n, (∀ fuel ≥ n, readBack order doc h fuel = some r) ∧ r.Same doc.json) ↔
      doc.json.NullFree := by
  obtain ⟨r, n, hkept, hread⟩ := load_readBack order doc h
  constructor
  · rintro ⟨r', n', hread', hsame⟩
    have heq := (hread' (max n n') (Nat.le_max_right _ _)).symm.trans
      (hread (max n n') (Nat.le_max_left _ _))
    obtain rfl := Option.some.inj heq
    exact hkept.same_iff.1 hsame
  · exact fun hj => ⟨r, n, hread, hkept.same hj⟩

def insertionOrder : KeyOrder := ⟨id, fun _ => .refl _⟩

/-- `[1, null, 2]`. -/
def nullInside : Document where
  json := .arr [.int 1, .null, .int 2]
  isContainer := rfl
  wellFormed := .arr (by simp [Json.WellFormed.int, Json.WellFormed.null])

example : readBack insertionOrder nullInside [] 1 = some (.arr [.int 1, .int 2]) := rfl

/-- **The elements after a null move up.** -/
theorem null_shifts : ¬ ∀ (order : KeyOrder) (doc : Document) (h : Heap),
    ∃ r n, (∀ fuel ≥ n, readBack order doc h fuel = some r) ∧ r.Same doc.json := by
  intro h
  obtain ⟨r, n, hread, hsame⟩ := h insertionOrder nullInside []
  obtain ⟨r', n', hkept, hread'⟩ := load_readBack insertionOrder nullInside []
  have heq := (hread (max n n') (Nat.le_max_left _ _)).symm.trans
    (hread' (max n n') (Nat.le_max_right _ _))
  obtain rfl := Option.some.inj heq
  cases hsame with
  | arr hlen _ =>
    cases hkept with
    | arr hlen' _ => exact absurd (hlen.symm.trans hlen') (by decide)

end HybridStack.QuickJs.JsonBridge
