import Mathlib.Data.List.Basic
import Mathlib.Data.List.Induction
import Mathlib.Data.List.Nodup
import Mathlib.Data.List.Perm.Basic

/-!
# Maps that remember the order of insertion

A `LinkedMap` is the list of its entries, no key twice. `put` overwrites the value of a key it
holds, in place, and appends one it does not.

Main results:
- `get_put`, `get_putAll`, `get_ofList_eq_some_iff`: the last value put under a key is the one found.
- **`keys_ofList_perm_iff`**: a list of pairs becomes a map with one key for each pair if and only
  if no two pairs have the same key.
- `entries_eq_map`, `flatMap_filter_perm`: a list grouped by a key is a permutation of it, the groups
  in the order in which their keys came first.
-/

structure LinkedMap (K V : Type) where
  entries : List (K × V)
  nodup : (entries.map Prod.fst).Nodup

namespace LinkedMap

variable {K V : Type} [DecidableEq K]

/-- Overwrite the entry of `k`, or append one. -/
def putEntry (k : K) (v : V) : List (K × V) → List (K × V)
  | [] => [(k, v)]
  | e :: es => if e.1 = k then (k, v) :: es else e :: putEntry k v es

theorem keys_putEntry (k : K) (v : V) : ∀ es : List (K × V),
    (putEntry k v es).map Prod.fst =
      if k ∈ es.map Prod.fst then es.map Prod.fst else es.map Prod.fst ++ [k]
  | [] => rfl
  | e :: es => by
    have ih := keys_putEntry k v es
    by_cases hk : e.1 = k
    · simp [putEntry, hk]
    · simp only [putEntry, if_neg hk, List.map_cons, ih, List.mem_cons, Ne.symm hk, false_or]
      split_ifs <;> rfl

def empty : LinkedMap K V := ⟨[], by simp⟩

def put (m : LinkedMap K V) (k : K) (v : V) : LinkedMap K V where
  entries := putEntry k v m.entries
  nodup := by
    rw [keys_putEntry]
    split_ifs with hk
    · exact m.nodup
    · exact List.nodup_append.2 ⟨m.nodup, by simp, by
        rintro a ha b hb rfl
        exact hk (List.mem_singleton.1 hb ▸ ha)⟩

def get (m : LinkedMap K V) (k : K) : Option V := (m.entries.find? fun e => e.1 = k).map Prod.snd

def keys (m : LinkedMap K V) : List K := m.entries.map Prod.fst

def values (m : LinkedMap K V) : List V := m.entries.map Prod.snd

/-- All pairs put in their order. -/
def putAll (m : LinkedMap K V) (l : List (K × V)) : LinkedMap K V :=
  l.foldl (fun m e => m.put e.1 e.2) m

def ofList (l : List (K × V)) : LinkedMap K V := empty.putAll l

/-! ## Lookup -/

@[simp] theorem get_empty (k : K) : (empty : LinkedMap K V).get k = none := rfl

theorem get_put (m : LinkedMap K V) (k : K) (v : V) (k' : K) :
    (m.put k v).get k' = if k' = k then some v else m.get k' := by
  obtain ⟨es, hes⟩ := m
  simp only [get, put]
  clear hes
  induction es with
  | nil => by_cases hk : k' = k <;> simp [putEntry, hk, eq_comm]
  | cons e es ih =>
    by_cases he : e.1 = k
    · by_cases hk : k' = k
      · simp [putEntry, he, hk]
      · simp [putEntry, he, Ne.symm hk, hk]
    · by_cases hk : e.1 = k'
      · have hne : k' ≠ k := fun h => he (hk.trans h)
        simp [putEntry, hk, hne]
      · simp only [putEntry, if_neg he, List.find?_cons, hk, decide_false]
        exact ih

@[simp] theorem putAll_nil (m : LinkedMap K V) : m.putAll [] = m := rfl

@[simp] theorem putAll_cons (m : LinkedMap K V) (e : K × V) (l : List (K × V)) :
    m.putAll (e :: l) = (m.put e.1 e.2).putAll l := rfl

/-- The last pair put under a key wins over the ones before it and over the map. -/
theorem get_putAll (k : K) : ∀ (l : List (K × V)) (m : LinkedMap K V),
    (m.putAll l).get k = ((l.reverse.find? fun e => e.1 = k).map Prod.snd).or (m.get k)
  | [], m => rfl
  | e :: l, m => by
    rw [putAll_cons, get_putAll k l, get_put, List.reverse_cons, List.find?_append, List.find?_cons]
    cases l.reverse.find? fun e => e.1 = k with
    | some x => rfl
    | none =>
      by_cases hk : e.1 = k
      · simp [hk]
      · simp [hk, Ne.symm hk]

theorem get_ofList (l : List (K × V)) (k : K) :
    (ofList l).get k = (l.reverse.find? fun e => e.1 = k).map Prod.snd := by
  rw [ofList, get_putAll, get_empty, Option.or_none]

theorem ofList_concat (l : List (K × V)) (e : K × V) : ofList (l ++ [e]) = (ofList l).put e.1 e.2 :=
  List.foldl_append

/-- What is found under a key is in the last pair that has it. -/
theorem get_ofList_eq_some_iff {l : List (K × V)} {k : K} {v : V} :
    (ofList l).get k = some v ↔
      ∃ before after, l = before ++ (k, v) :: after ∧ ∀ e ∈ after, e.1 ≠ k := by
  rw [get_ofList, Option.map_eq_some_iff]
  constructor
  · rintro ⟨⟨k', v'⟩, hfind, rfl⟩
    obtain ⟨hk, after, before, hl, hafter⟩ := List.find?_eq_some_iff_append.1 hfind
    obtain rfl : k' = k := of_decide_eq_true hk
    refine ⟨before.reverse, after.reverse, ?_, fun e he => ?_⟩
    · rw [← List.reverse_reverse l, hl]
      simp
    · simpa using hafter e (List.mem_reverse.1 he)
  · rintro ⟨before, after, rfl, hafter⟩
    refine ⟨(k, v), List.find?_eq_some_iff_append.2 ⟨decide_eq_true rfl, after.reverse, before.reverse,
      by simp, fun e he => ?_⟩, rfl⟩
    simpa using hafter e (List.mem_reverse.1 he)

/-! ## Keys and values -/

theorem mem_entries_iff {m : LinkedMap K V} {k : K} {v : V} :
    (k, v) ∈ m.entries ↔ m.get k = some v := by
  obtain ⟨es, hes⟩ := m
  simp only [get]
  induction es with
  | nil => simp
  | cons e es ih =>
    obtain ⟨hne, hnd⟩ := List.nodup_cons.1 hes
    obtain ⟨x, y⟩ := e
    by_cases hk : x = k
    · subst hk
      have hnot : (x, v) ∉ es := fun h => hne (List.mem_map.2 ⟨_, h, rfl⟩)
      simp [hnot, eq_comm]
    · simp [hk, Ne.symm hk, ih hnd]

theorem mem_values_iff {m : LinkedMap K V} {v : V} : v ∈ m.values ↔ ∃ k, m.get k = some v := by
  simp only [values, List.mem_map, ← mem_entries_iff]
  constructor
  · rintro ⟨e, he, hv⟩
    exact ⟨e.1, hv ▸ he⟩
  · rintro ⟨k, h⟩
    exact ⟨_, h, rfl⟩

theorem mem_keys_iff {m : LinkedMap K V} {k : K} : k ∈ m.keys ↔ ∃ v, m.get k = some v := by
  simp only [keys, List.mem_map, ← mem_entries_iff]
  constructor
  · rintro ⟨e, he, hk⟩
    exact ⟨e.2, hk ▸ he⟩
  · rintro ⟨v, h⟩
    exact ⟨_, h, rfl⟩

/-- A new key comes last. -/
theorem entries_put {m : LinkedMap K V} {k : K} {v : V} (hk : k ∉ m.keys) :
    (m.put k v).entries = m.entries ++ [(k, v)] := by
  have hput : ∀ es : List (K × V), k ∉ es.map Prod.fst → putEntry k v es = es ++ [(k, v)] := by
    intro es
    induction es with
    | nil => exact fun _ => rfl
    | cons x es ih =>
      intro hx
      simp only [List.map_cons, List.mem_cons, not_or] at hx
      rw [putEntry, if_neg (Ne.symm hx.1), ih hx.2, List.cons_append]
  exact hput m.entries hk

/-- A map from new keys keeps every pair. -/
theorem entries_putAll : ∀ (l : List (K × V)) (m : LinkedMap K V),
    (m.keys ++ l.map Prod.fst).Nodup → (m.putAll l).entries = m.entries ++ l
  | [], m, _ => by simp
  | e :: l, m, h => by
    have hnot : e.1 ∉ m.keys := fun hm =>
      (List.nodup_append.1 h).2.2 _ hm _ List.mem_cons_self rfl
    have hput : (m.put e.1 e.2).entries = m.entries ++ [e] := entries_put hnot
    rw [putAll_cons, entries_putAll l, hput]
    · simp
    · simpa [keys, hput] using h

theorem entries_ofList {l : List (K × V)} (h : (l.map Prod.fst).Nodup) : (ofList l).entries = l :=
  entries_putAll l empty (by simpa [keys, empty] using h)

theorem get_ofList_of_mem {l : List (K × V)} (h : (l.map Prod.fst).Nodup) {k : K} {v : V}
    (hm : (k, v) ∈ l) : (ofList l).get k = some v := by
  rw [← mem_entries_iff, entries_ofList h]
  exact hm

/-- Putting and changing the values commute. -/
theorem map_entries_putAll {W : Type} (f : V → W) : ∀ (l : List (K × V)) (m : LinkedMap K V)
    (n : LinkedMap K W), m.entries.map (Prod.map id f) = n.entries →
      (m.putAll l).entries.map (Prod.map id f) = (n.putAll (l.map (Prod.map id f))).entries
  | [], _, _, h => h
  | e :: l, m, n, h => by
    refine map_entries_putAll f l _ _ ?_
    have hput : ∀ es : List (K × V),
        (putEntry e.1 e.2 es).map (Prod.map id f) = putEntry e.1 (f e.2) (es.map (Prod.map id f)) := by
      intro es
      induction es with
      | nil => rfl
      | cons x es ih =>
        have hfst : (Prod.map id f x).1 = x.1 := rfl
        by_cases hx : x.1 = e.1
        · simp only [putEntry, List.map_cons, hfst, if_pos hx]
          rfl
        · simp only [putEntry, List.map_cons, hfst, if_neg hx, ih]
    simp only [put, hput, h]
    rfl

theorem map_values_ofList {W : Type} (f : V → W) (l : List (K × V)) :
    (ofList l).values.map f = (ofList (l.map (Prod.map id f))).values := by
  have h := map_entries_putAll f l empty empty rfl
  rw [values, values, ofList, ofList, ← h, List.map_map, List.map_map]
  rfl

/-- **One key for each pair, if and only if no key comes twice.** -/
theorem keys_ofList_perm_iff (l : List (K × V)) :
    (ofList l).keys.Perm (l.map Prod.fst) ↔ (l.map Prod.fst).Nodup := by
  constructor
  · exact fun h => h.nodup_iff.1 (ofList l).nodup
  · intro h
    rw [keys, entries_ofList h]

/-! ## Grouping -/

theorem keys_put (m : LinkedMap K V) (k : K) (v : V) :
    (m.put k v).keys = if k ∈ m.keys then m.keys else m.keys ++ [k] :=
  keys_putEntry k v m.entries

theorem eraseDups_concat (ks : List K) (k : K) :
    (ks ++ [k]).eraseDups = if k ∈ ks then ks.eraseDups else ks.eraseDups ++ [k] := by
  rw [List.eraseDups_append]
  split_ifs with hk <;> simp [List.removeAll, hk, List.eraseDups_cons]

theorem nodup_eraseDups (ks : List K) : ks.eraseDups.Nodup := by
  induction ks using List.reverseRecOn with
  | nil => simp
  | append_singleton ks k ih =>
    rw [eraseDups_concat]
    split_ifs with hk
    · exact ih
    · refine List.nodup_append.2 ⟨ih, List.nodup_singleton k, ?_⟩
      rintro a ha b hb rfl
      exact hk (List.mem_eraseDups.1 (List.mem_singleton.1 hb ▸ ha))

/-- Putting keeps the keys in the order in which they came first. -/
theorem keys_put_eraseDups {m : LinkedMap K V} {ks : List K} (h : m.keys = ks.eraseDups) (k : K)
    (v : V) : (m.put k v).keys = (ks ++ [k]).eraseDups := by
  rw [keys_put, h, eraseDups_concat]
  simp only [List.mem_eraseDups]

/-- A map is its keys with what is found under them. -/
theorem entries_eq_map {m : LinkedMap K V} {f : K → V} (h : ∀ k ∈ m.keys, m.get k = some (f k)) :
    m.entries = m.keys.map fun k => (k, f k) := by
  have hpair : ∀ e ∈ m.entries, (e.1, f e.1) = e := fun e he => by
    have hget := mem_entries_iff.1 (show (e.1, e.2) ∈ m.entries from he)
    have hf := h e.1 (mem_keys_iff.2 ⟨e.2, hget⟩)
    rw [hget, Option.some.injEq] at hf
    rw [← hf]
  rw [keys, List.map_map]
  exact (List.map_id'' (fun e => rfl) _).symm.trans (List.map_congr_left fun e he => (hpair e he).symm)

/-- Grouped by a list of keys that has every key once, nothing is lost and nothing doubled. -/
theorem flatMap_filter_perm {α : Type} (key : α → K) : ∀ {ks : List K} {l : List α}, ks.Nodup →
    (∀ x ∈ l, key x ∈ ks) → (ks.flatMap fun k => l.filter fun x => key x = k).Perm l
  | [], l, _, h => by
    have hl : l = [] := List.eq_nil_iff_forall_not_mem.2 fun x hx => by simpa using h x hx
    simp [hl]
  | k :: ks, l, hnd, h => by
    obtain ⟨hk, hnd⟩ := List.nodup_cons.1 hnd
    have hrest : (ks.flatMap fun k' => l.filter fun x => key x = k') =
        ks.flatMap fun k' => (l.filter fun x => !decide (key x = k)).filter fun x => key x = k' := by
      refine List.flatMap_congr fun k' hk' => ?_
      rw [List.filter_filter]
      refine List.filter_congr fun x _ => ?_
      by_cases hx : key x = k'
      · have hne : key x ≠ k := fun h => hk (h ▸ hx ▸ hk')
        simp [hx ▸ hne, hx]
      · simp [hx]
    have hmem : ∀ x ∈ l.filter fun x => !decide (key x = k), key x ∈ ks := fun x hx => by
      simp only [List.mem_filter, Bool.not_eq_true', decide_eq_false_iff_not] at hx
      exact (List.mem_cons.1 (h x hx.1)).resolve_left hx.2
    rw [List.flatMap_cons, hrest]
    exact (List.Perm.append_left _ (flatMap_filter_perm key hnd hmem)).trans (List.filter_append_perm _ l)

end LinkedMap
