import Mathlib.Data.List.Basic

/-!
# The last element of a key

Lists whose elements carry a key that several of them may share. A selection takes the last element
of a key, a removal takes the first element that equals the one given.

Main results:
- `mapLasts_eq_map_iff`: changing the last element of every key changes every element that has to
  change exactly when the others need no change.
- `find?_reverse_eq_some_iff`: what a search from the end finds.
- `lastAfter_erase`: a removal of the last element of a key, seen from the list before it.
-/

namespace LastOfKey

variable {α κ : Type*} [DecidableEq κ] {key : α → κ}

/-- The last element of key `k`. -/
def lastOf (key : α → κ) (k : κ) (l : List α) : Option α := (l.filter fun a => key a = k).getLast?

theorem lastOf_eq_none_iff {k : κ} {l : List α} : lastOf key k l = none ↔ ∀ a ∈ l, key a ≠ k := by
  simp [lastOf]

theorem mem_of_lastOf {k : κ} {l : List α} {t : α} (h : lastOf key k l = some t) :
    t ∈ l ∧ key t = k := by
  simpa using List.mem_filter.1 (List.mem_of_getLast? h)

/-- No element after the last one has its key. -/
theorem lastOf_eq_some {k : κ} {t : α} : ∀ {l : List α}, lastOf key k l = some t →
    ∃ s e, l = s ++ t :: e ∧ key t = k ∧ ∀ a ∈ e, key a ≠ k
  | [], h => by simp [lastOf] at h
  | a :: l, h => by
    cases hl : lastOf key k l with
    | none =>
      have hnil : (l.filter fun b => key b = k) = [] := List.getLast?_eq_none_iff.1 hl
      by_cases hk : key a = k
      · have : a = t := by simpa [lastOf, hk, hnil] using h
        subst this
        exact ⟨[], l, rfl, hk, lastOf_eq_none_iff.1 hl⟩
      · simp [lastOf, hk, hnil] at h
    | some u =>
      have hu : (l.filter fun b => key b = k).getLast? = some u := hl
      have : u = t := by
        by_cases hk : key a = k
        · simpa [lastOf, hk, List.getLast?_cons, hu] using h
        · simpa [lastOf, hk, hu] using h
      subst this
      obtain ⟨s, e, rfl, hkt, he⟩ := lastOf_eq_some hl
      exact ⟨a :: s, e, rfl, hkt, he⟩

theorem lastOf_map {β : Type*} (f : β → α) (k : κ) (l : List β) :
    lastOf key k (l.map f) = (lastOf (key ∘ f) k l).map f := by
  simp only [lastOf, List.filter_map, List.getLast?_map]
  rfl

/-- `x` is the last of its key, and `before` is in front of it. -/
def IsLast (key : α → κ) (l before : List α) (x : α) : Prop :=
  ∃ after, l = before ++ x :: after ∧ ∀ a ∈ after, key a ≠ key x

omit [DecidableEq κ] in
theorem IsLast.mem {l before : List α} {x : α} (h : IsLast key l before x) : x ∈ l := by
  obtain ⟨after, rfl, -⟩ := h
  exact List.mem_append_right _ List.mem_cons_self

omit [DecidableEq κ] in
/-- Whatever has the key of the last element is in front of it, or is it. -/
theorem IsLast.mem_cases {l before : List α} {x a : α} (h : IsLast key l before x) (ha : a ∈ l)
    (hk : key a = key x) : a ∈ before ∨ a = x := by
  obtain ⟨after, rfl, hafter⟩ := h
  rcases List.mem_append.1 ha with ha | ha
  · exact Or.inl ha
  · rcases List.mem_cons.1 ha with rfl | ha
    · exact Or.inr rfl
    · exact absurd hk (hafter a ha)

omit [DecidableEq κ] in
/-- Where no key comes twice, none is in front of its last element. -/
theorem IsLast.ne_of_nodup {l before : List α} {x a : α} (h : IsLast key l before x)
    (hnodup : (l.map key).Nodup) (ha : a ∈ before) : key a ≠ key x := by
  obtain ⟨after, rfl, -⟩ := h
  rw [List.map_append, List.map_cons] at hnodup
  exact (List.nodup_append.1 hnodup).2.2 (key a) (List.mem_map_of_mem ha) (key x) List.mem_cons_self

theorem find?_reverse_eq_some_iff {k : κ} {l : List α} {x : α} :
    (l.reverse.find? fun a => key a = k) = some x ↔ key x = k ∧ ∃ before, IsLast key l before x := by
  rw [List.find?_eq_some_iff_append]
  simp only [decide_eq_true_eq, Bool.not_eq_true', decide_eq_false_iff_not]
  constructor
  · rintro ⟨rfl, as, bs, hl, has⟩
    refine ⟨rfl, bs.reverse, as.reverse, ?_, fun a ha => has a (List.mem_reverse.1 ha)⟩
    rw [← List.reverse_reverse l, hl, List.reverse_append, List.reverse_cons, List.append_assoc,
      List.singleton_append]
  · rintro ⟨rfl, before, after, rfl, hafter⟩
    refine ⟨rfl, after.reverse, before.reverse, ?_, fun a ha => hafter a (List.mem_reverse.1 ha)⟩
    rw [List.reverse_append, List.reverse_cons, List.append_assoc, List.singleton_append]

theorem exists_isLast {l : List α} {a : α} (ha : a ∈ l) :
    ∃ before x, IsLast key l before x ∧ key x = key a := by
  cases hf : l.reverse.find? fun b => key b = key a with
  | none =>
    have hne := List.find?_eq_none.1 hf a (List.mem_reverse.2 ha)
    exact absurd (decide_eq_true rfl) hne
  | some x =>
    obtain ⟨hk, before, hx⟩ := find?_reverse_eq_some_iff.1 hf
    exact ⟨before, x, hx, hk⟩

/-! ## A change of the last elements -/

/-- `f` on the last element of every key. -/
def mapLasts (key : α → κ) (f : α → α) : List α → List α
  | [] => []
  | a :: l => (if key a ∈ l.map key then a else f a) :: mapLasts key f l

theorem mapLasts_of_fixed {f : α → α} : ∀ {l : List α}, (∀ a ∈ l, f a = a) → mapLasts key f l = l
  | [], _ => rfl
  | a :: l, h => by
    rw [mapLasts, h a (by simp), ite_self, mapLasts_of_fixed fun b hb => h b (by simp [hb])]

/-- An `f` that changes elements of one key only changes the last of them. -/
theorem mapLasts_split {f : α → α} {k : κ} {t : α} {e : List α} (hf : ∀ a, key a ≠ k → f a = a)
    (ht : key t = k) (he : ∀ a ∈ e, key a ≠ k) :
    ∀ s : List α, mapLasts key f (s ++ t :: e) = s ++ f t :: e
  | [] => by
    have hne : key t ∉ e.map key := by
      rw [List.mem_map]
      rintro ⟨a, ha, hk⟩
      exact he a ha (hk.trans ht)
    rw [List.nil_append, mapLasts, if_neg hne, mapLasts_of_fixed fun a ha => hf a (he a ha)]
    rfl
  | a :: s => by
    rw [List.cons_append, mapLasts, mapLasts_split hf ht he s]
    by_cases ha : key a = k
    · rw [if_pos (by simp [ha, ht])]
      rfl
    · rw [hf a ha, ite_self]
      rfl

@[simp] theorem map_key_mapLasts {f : α → α} (hf : ∀ a, key (f a) = key a) :
    ∀ l : List α, (mapLasts key f l).map key = l.map key
  | [] => rfl
  | a :: l => by
    rw [mapLasts, List.map_cons, map_key_mapLasts hf l]
    split_ifs
    · rfl
    · rw [hf, List.map_cons]

theorem mapLasts_mapLasts {f g : α → α} (hf : ∀ a, key (f a) = key a) :
    ∀ l : List α, mapLasts key g (mapLasts key f l) = mapLasts key (g ∘ f) l
  | [] => rfl
  | a :: l => by
    rw [mapLasts, mapLasts, map_key_mapLasts hf, mapLasts_mapLasts hf l, mapLasts]
    by_cases h : key a ∈ l.map key
    · simp only [if_pos h]
    · simp only [if_neg h, hf, Function.comp_apply]

/-- What a predicate on keys keeps, the last elements are the same. -/
theorem filter_mapLasts {f : α → α} (hf : ∀ a, key (f a) = key a) (p : κ → Bool) :
    ∀ l : List α, (mapLasts key f l).filter (fun a => p (key a)) =
      mapLasts key f (l.filter fun a => p (key a))
  | [] => rfl
  | a :: l => by
    have hkey : key (if key a ∈ l.map key then a else f a) = key a := by
      split_ifs
      · rfl
      · exact hf a
    rw [mapLasts, List.filter_cons, hkey, filter_mapLasts hf p l, List.filter_cons]
    by_cases hp : p (key a) = true
    · have hmem : key a ∈ (l.filter fun b => p (key b)).map key ↔ key a ∈ l.map key := by
        simp only [List.mem_map, List.mem_filter]
        constructor
        · rintro ⟨b, ⟨hb, -⟩, hk⟩
          exact ⟨b, hb, hk⟩
        · rintro ⟨b, hb, hk⟩
          exact ⟨b, ⟨hb, by rw [hk, hp]⟩, hk⟩
      simp only [if_pos hp, mapLasts, hmem]
    · simp only [if_neg hp]

theorem mapLasts_eq_map_iff {f : α → α} : ∀ {l : List α}, mapLasts key f l = l.map f ↔
    ∀ s a e, l = s ++ a :: e → (∃ b ∈ e, key b = key a) → f a = a
  | [] => by simp [mapLasts]
  | a :: l => by
    rw [mapLasts, List.map_cons, List.cons.injEq, mapLasts_eq_map_iff]
    constructor
    · rintro ⟨ha, hl⟩ (_ | ⟨c, s⟩) b e heq hlater
      · obtain ⟨rfl, rfl⟩ := List.cons.inj heq
        rw [if_pos (by simpa using hlater)] at ha
        exact ha.symm
      · exact hl s b e (List.cons.inj heq).2 hlater
    · intro h
      refine ⟨?_, fun s b e heq => h (a :: s) b e (by rw [heq]; rfl)⟩
      split_ifs with hmem
      · exact (h [] a l rfl (by simpa using hmem)).symm
      · rfl

/-! ## Removals -/

variable [DecidableEq α]

theorem filter_erase_of_ne {k : κ} {t : α} (ht : key t ≠ k) (l : List α) :
    (l.erase t).filter (fun a => key a = k) = l.filter fun a => key a = k := by
  rw [← List.erase_filter, List.erase_of_not_mem (by simp [ht])]

theorem countP_erase_of_mem {p : α → Bool} {t : α} {l : List α} (ht : t ∈ l) :
    (l.erase t).countP p = l.countP p - if p t then 1 else 0 := by
  rw [List.countP_eq_length_filter, ← List.erase_filter, List.length_erase,
    List.countP_eq_length_filter]
  by_cases hp : p t = true
  · rw [if_pos (List.mem_filter.2 ⟨ht, hp⟩), if_pos hp]
  · rw [if_neg fun h => hp (List.mem_filter.1 h).2, if_neg hp, Nat.sub_zero]

/-- The last element after the last one was removed `n` times. -/
def lastAfter : Nat → List α → Option α
  | 0, l => l.getLast?
  | n + 1, l => l.getLast?.bind fun t => lastAfter n (l.erase t)

@[simp] theorem lastAfter_nil : ∀ n, lastAfter n ([] : List α) = none
  | 0 => rfl
  | _ + 1 => rfl

theorem mem_of_lastAfter {t : α} : ∀ {n : Nat} {l : List α}, lastAfter n l = some t → t ∈ l
  | 0, _, h => List.mem_of_getLast? h
  | n + 1, l, h => by
    obtain ⟨u, -, hu⟩ := Option.bind_eq_some_iff.1 h
    exact List.mem_of_mem_erase (mem_of_lastAfter hu)

theorem lastAfter_erase {k : κ} {l : List α} {t : α} (h : lastOf key k l = some t) (n : Nat) :
    lastAfter n ((l.erase t).filter fun a => key a = k) =
      lastAfter (n + 1) (l.filter fun a => key a = k) := by
  have ht : (l.filter fun a => key a = k).getLast? = some t := h
  rw [← List.erase_filter, lastAfter, ht]
  rfl

end LastOfKey
