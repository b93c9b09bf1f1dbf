import Mathlib.Data.List.Perm.Basic

/-!
# Pairwise sweep of a list

`sweep dom` compares every element of a list with every element after it and deletes the dominated
one; an element deleted early takes no part in later comparisons. When `dom` is a strict order on
the list nothing is missed for it: `sweep_eq_undominated` — what is left is exactly the elements
that nothing of the list dominates, in order.

No order is needed for `sweep_filter`: a group that nothing outside the group dominates is swept
as if it were alone.
-/

namespace Sweep

variable {α : Type*} (dom : α → α → Bool)

/-- Compare `a` with every element of the list: delete those `a` dominates, stop at the first one
left that dominates `a`. The flag says whether `a` survives. -/
def scan (a : α) : List α → Bool × List α
  | [] => (true, [])
  | b :: ys =>
    if dom a b then scan a ys
    else if dom b a then (false, b :: ys)
    else ((scan a ys).1, b :: (scan a ys).2)

theorem scan_sublist (a : α) : ∀ ys : List α, (scan dom a ys).2.Sublist ys
  | [] => .slnil
  | b :: ys => by
    have ih := scan_sublist a ys
    simp only [scan]
    split
    · exact ih.cons b
    · split
      · exact .refl _
      · exact ih.cons_cons b

/-- Scan with each element in turn. -/
def sweep : List α → List α
  | [] => []
  | a :: xs =>
    if (scan dom a xs).1 then a :: sweep (scan dom a xs).2 else sweep (scan dom a xs).2
termination_by xs => xs.length
decreasing_by all_goals exact Nat.lt_succ_of_le (scan_sublist dom a xs).length_le

theorem sweep_cons (a : α) (xs : List α) : sweep dom (a :: xs) =
    if (scan dom a xs).1 then a :: sweep dom (scan dom a xs).2 else sweep dom (scan dom a xs).2 := by
  rw [sweep]

/-! ## Domination -/

/-- `e` is dominated by some element of the list. -/
def Dominated (l : List α) (e : α) : Prop := ∃ x ∈ l, dom x e = true

instance (l : List α) : DecidablePred (Dominated dom l) := fun e =>
  inferInstanceAs (Decidable (∃ x ∈ l, dom x e = true))

/-- The elements of `l` that no element of `l` dominates. -/
def undominated (l : List α) : List α := l.filter fun e => ¬ Dominated dom l e

@[simp] theorem mem_undominated {l : List α} {e : α} :
    e ∈ undominated dom l ↔ e ∈ l ∧ ¬ Dominated dom l e := by
  simp [undominated]

theorem undominated_perm {l m : List α} (hp : l.Perm m) :
    (undominated dom l).Perm (undominated dom m) := by
  have hdom : ∀ e, Dominated dom l e ↔ Dominated dom m e := fun e => by
    simp only [Dominated, hp.mem_iff]
  have hcongr : undominated dom m = m.filter fun e => ¬ Dominated dom l e :=
    List.filter_congr fun e _ => by simp only [hdom e]
  rw [hcongr]
  exact hp.filter _

/-- Domination is a strict order on the elements of `l`. -/
structure StrictOn (l : List α) : Prop where
  irrefl : ∀ a ∈ l, dom a a = false
  trans : ∀ a ∈ l, ∀ b ∈ l, ∀ c ∈ l, dom a b = true → dom b c = true → dom a c = true

variable {dom}

theorem StrictOn.subset {l m : List α} (h : StrictOn dom l) (hm : ∀ e ∈ m, e ∈ l) :
    StrictOn dom m where
  irrefl a ha := h.irrefl a (hm a ha)
  trans a ha b hb c hc := h.trans a (hm a ha) b (hm b hb) c (hm c hc)

theorem StrictOn.asymm {l : List α} (h : StrictOn dom l) {a b : α} (ha : a ∈ l) (hb : b ∈ l)
    (hab : dom a b = true) : dom b a = false := by
  by_contra hba
  have haa := h.trans a ha b hb a ha hab (by simpa using hba)
  simp [h.irrefl a ha] at haa

/-- In a strict order on a finite list, a dominated element is dominated by an undominated one. -/
theorem StrictOn.exists_undominated {l : List α} (h : StrictOn dom l) {e : α} (he : e ∈ l)
    (hd : Dominated dom l e) : ∃ x ∈ undominated dom l, dom x e = true := by
  -- the elements above a dominator are fewer than those above what it dominates
  suffices H : ∀ (n : Nat) (e : α), e ∈ l → (l.filter fun x => dom x e).length = n →
      Dominated dom l e → ∃ x ∈ undominated dom l, dom x e = true from H _ e he rfl hd
  intro n
  induction n using Nat.strongRecOn with
  | _ n ih =>
  rintro e he hn ⟨x, hx, hxe⟩
  by_cases hxd : Dominated dom l x
  · have hsub : ((l.filter fun y => dom y e).filter fun y => dom y x) = l.filter fun y => dom y x := by
      rw [List.filter_filter]
      exact List.filter_congr fun y hy => by
        by_cases hyx : dom y x = true
        · simp [hyx, h.trans y hy x hx e he hyx hxe]
        · simp [hyx]
    have hlt : (l.filter fun y => dom y x).length < n := by
      rw [← hn, ← hsub]
      exact List.length_filter_lt_length_iff_exists.2
        ⟨x, by simp [hx, hxe], by simp [h.irrefl x hx]⟩
    obtain ⟨y, hy, hyx⟩ := ih _ hlt x hx rfl hxd
    exact ⟨y, hy, h.trans y ((mem_undominated dom).1 hy).1 x hx e he hyx hxe⟩
  · exact ⟨x, by simp [hx, hxd], hxe⟩

/-! ## What one scan does -/

/-- A scan keeps every element that `a` does not dominate. -/
theorem scan_keeps (a : α) : ∀ ys : List α,
    (scan dom a ys).2.filter (fun e => !dom a e) = ys.filter fun e => !dom a e
  | [] => rfl
  | b :: ys => by
    have ih := scan_keeps a ys
    simp only [scan]
    split
    next hab => simp [hab, ih]
    next hab =>
      split
      · rfl
      · simp [hab, ih]

theorem mem_scan (a : α) {ys : List α} {e : α} (he : e ∈ ys) (hae : dom a e = false) :
    e ∈ (scan dom a ys).2 := by
  have hf : e ∈ ys.filter fun e => !dom a e := by simp [he, hae]
  rw [← scan_keeps] at hf
  exact List.mem_of_mem_filter hf

/-- When `a` survives, nothing that it dominates is left. -/
theorem scan_clears (a : α) : ∀ ys : List α, (scan dom a ys).1 = true →
    ∀ e ∈ (scan dom a ys).2, dom a e = false
  | [], _, e, he => by simp [scan] at he
  | b :: ys, h, e, he => by
    simp only [scan] at h he
    split at h
    next hab =>
      simp only [hab, if_true] at he
      exact scan_clears a ys h e he
    next hab =>
      split at h
      · simp at h
      next hba =>
        simp only [hab, hba, if_false, List.mem_cons, Bool.false_eq_true] at he
        rcases he with rfl | he
        · simpa using hab
        · exact scan_clears a ys h e he

/-- `a` survives its scan exactly when nothing dominates it. -/
theorem scan_survives (a : α) : ∀ ys : List α, (∀ b ∈ ys, dom b a = true → dom a b = false) →
    ((scan dom a ys).1 = true ↔ ¬ Dominated dom ys a)
  | [], _ => by simp [scan, Dominated]
  | b :: ys, h => by
    simp only [List.mem_cons, forall_eq_or_imp] at h
    have ih := scan_survives a ys h.2
    simp only [scan]
    by_cases hba : dom b a = true
    · simp [hba, h.1 hba, Dominated]
    · have hd : Dominated dom (b :: ys) a ↔ Dominated dom ys a := by simp [Dominated, hba]
      simp only [hba, hd, ← ih]
      split <;> simp

/-! ## The sweep keeps exactly the undominated -/

/-- After the scan of `a`, the rest of the list is dominated from within exactly where it was
dominated before, `a` included. -/
theorem scan_dominated {a : α} {ys : List α} (h : StrictOn dom (a :: ys)) {e : α}
    (he : e ∈ (scan dom a ys).2) :
    Dominated dom (scan dom a ys).2 e ↔ Dominated dom (a :: ys) e := by
  have hsub := (scan_sublist dom a ys).subset
  have hmem : ∀ x ∈ ys, x ∈ a :: ys := fun x hx => List.mem_cons_of_mem a hx
  have hall := hmem e (hsub he)
  -- an `e` still there although `a` dominates it: then `a` itself was dominated, by what is left
  have hleft : dom a e = true → Dominated dom (scan dom a ys).2 e := by
    intro hae
    have hdead : ¬ (scan dom a ys).1 = true := fun hs => by
      simp [scan_clears a ys hs e he] at hae
    rw [scan_survives a ys fun b hb => h.asymm (hmem b hb) List.mem_cons_self, not_not] at hdead
    obtain ⟨b, hb, hba⟩ := hdead
    have hab := h.asymm (hmem b hb) List.mem_cons_self hba
    exact ⟨b, mem_scan a hb hab,
      h.trans b (hmem b hb) a List.mem_cons_self e hall hba hae⟩
  constructor
  · rintro ⟨x, hx, hxe⟩
    exact ⟨x, hmem x (hsub hx), hxe⟩
  · rintro ⟨x, hx, hxe⟩
    rcases List.mem_cons.1 hx with rfl | hx
    · exact hleft hxe
    · by_cases hax : dom a x = true
      · exact hleft (h.trans a List.mem_cons_self x (hmem x hx) e hall hax hxe)
      · exact ⟨x, mem_scan a hx (by simpa using hax), hxe⟩

/-- The rest of the list, restricted to what stays, is the same before and after the scan. -/
theorem scan_undominated {a : α} {ys : List α} (h : StrictOn dom (a :: ys)) :
    (ys.filter fun e => ¬ Dominated dom (a :: ys) e) = undominated dom (scan dom a ys).2 := by
  have hnot : ∀ {e : α}, ¬ Dominated dom (a :: ys) e → dom a e = false := fun hd => by
    by_contra hae
    exact hd ⟨a, List.mem_cons_self, by simpa using hae⟩
  have hand : ∀ l : List α, (l.filter fun e => ¬ Dominated dom (a :: ys) e) =
      (l.filter fun e => !dom a e).filter fun e => ¬ Dominated dom (a :: ys) e := fun l => by
    rw [List.filter_filter]
    exact List.filter_congr fun e _ => by
      by_cases hd : Dominated dom (a :: ys) e <;> simp [hd, hnot]
  calc (ys.filter fun e => ¬ Dominated dom (a :: ys) e)
      = (scan dom a ys).2.filter fun e => ¬ Dominated dom (a :: ys) e := by
        rw [hand ys, ← scan_keeps a ys, ← hand]
    _ = undominated dom (scan dom a ys).2 :=
        List.filter_congr fun e he => by simp only [scan_dominated h he]

theorem sweep_eq_undominated : ∀ {xs : List α}, StrictOn dom xs → sweep dom xs = undominated dom xs
  | [], _ => by simp [sweep, undominated]
  | a :: xs, h => by
    have hsub : ∀ e ∈ (scan dom a xs).2, e ∈ a :: xs := fun e he =>
      List.mem_cons_of_mem a ((scan_sublist dom a xs).subset he)
    have ih := sweep_eq_undominated (h.subset hsub)
    have hhead : (scan dom a xs).1 = true ↔ ¬ Dominated dom (a :: xs) a := by
      rw [scan_survives a xs fun b hb => h.asymm (List.mem_cons_of_mem a hb) List.mem_cons_self]
      simp [Dominated, h.irrefl a List.mem_cons_self]
    have htail := scan_undominated h
    rw [sweep_cons, ih, ← htail]
    by_cases hs : (scan dom a xs).1 = true
    · simp [hs, undominated, hhead.1 hs]
    · have hd : Dominated dom (a :: xs) a := by simpa [hhead] using hs
      simp [hs, undominated, hd]
termination_by xs => xs.length
decreasing_by exact Nat.lt_succ_of_le (scan_sublist dom a xs).length_le

/-! ## Groups that do not interact -/

/-- Scanning with a member of the group: only the group matters. -/
theorem scan_filter (p : α → Bool) {a : α} (ha : p a = true) : ∀ ys : List α,
    (∀ b ∈ ys, p b = false → dom b a = false) →
      (scan dom a ys).1 = (scan dom a (ys.filter p)).1 ∧
        (scan dom a ys).2.filter p = (scan dom a (ys.filter p)).2
  | [], _ => by simp [scan]
  | b :: ys, h => by
    simp only [List.mem_cons, forall_eq_or_imp] at h
    obtain ⟨ih1, ih2⟩ := scan_filter p ha ys h.2
    cases hp : p b with
    | true =>
      simp only [List.filter_cons, hp, if_true, scan]
      split
      · exact ⟨ih1, ih2⟩
      · split
        · simp [hp]
        · simp [hp, ih1, ih2]
    | false =>
      simp only [List.filter_cons, hp, scan, h.1 hp, Bool.false_eq_true, if_false]
      split
      · exact ⟨ih1, ih2⟩
      · simp [hp, ih1, ih2]

/-- Scanning with an outsider leaves the group alone. -/
theorem scan_filter_outside (p : α → Bool) {a : α} : ∀ ys : List α,
    (∀ b ∈ ys, p b = true → dom a b = false) → (scan dom a ys).2.filter p = ys.filter p
  | [], _ => rfl
  | b :: ys, h => by
    simp only [List.mem_cons, forall_eq_or_imp] at h
    have ih := scan_filter_outside p ys h.2
    simp only [scan]
    split
    next hab =>
      have hpb : p b = false := by
        cases hpb : p b with
        | true => simp [h.1 hpb] at hab
        | false => rfl
      simp [hpb, ih]
    next hab =>
      split
      · rfl
      · simp [List.filter_cons, ih]

/-- A group that no outsider dominates is swept as if it were alone. -/
theorem sweep_filter (p : α → Bool) : ∀ {xs : List α},
    (∀ a ∈ xs, ∀ b ∈ xs, p a = false → p b = true → dom a b = false) →
      (sweep dom xs).filter p = sweep dom (xs.filter p)
  | [], _ => by simp [sweep]
  | a :: xs, h => by
    have hsub : ∀ e ∈ (scan dom a xs).2, e ∈ a :: xs := fun e he =>
      List.mem_cons_of_mem a ((scan_sublist dom a xs).subset he)
    have ih := sweep_filter p fun x hx y hy => h x (hsub x hx) y (hsub y hy)
    rw [sweep_cons]
    cases hp : p a with
    | true =>
      obtain ⟨h1, h2⟩ := scan_filter p hp xs fun b hb hpb =>
        h b (List.mem_cons_of_mem a hb) a List.mem_cons_self hpb hp
      simp only [List.filter_cons, hp, if_true, sweep_cons]
      rw [← h1, ← h2]
      split <;> simp [hp, ih]
    | false =>
      have h2 := scan_filter_outside p xs fun b hb hpb =>
        h a List.mem_cons_self b (List.mem_cons_of_mem a hb) hp hpb
      rw [h2] at ih
      simp only [List.filter_cons, hp, Bool.false_eq_true, if_false]
      split <;> simp [hp, ih]
termination_by xs => xs.length
decreasing_by exact Nat.lt_succ_of_le (scan_sublist dom a xs).length_le

end Sweep
