import HybridStack.Lib.Ancestry
import HybridStack.Lib.Sweep
import HybridStack.Pisces.MetaData
import Mathlib.Data.List.ReduceOption

/-!
# `remove` / `removeParent` (MetaDataExt.kt:103-148)

`remove` runs two nested index loops over a list whose slots it sets to `null` on the way, then
drops the nulls with an iterator. `remove_eq_sweep` turns the index loops into `Sweep.sweep` over
the live entries, for every delete condition of the two shapes the processors use. For entries whose
`superClasses` are the ancestor chains of one hierarchy the relation behind both conditions is a
strict order, so the loops miss nothing: `removeParent_eq` (the leaves), `removeWidget_eq` (the
widgets no flagged widget of the same name extends).
-/

namespace HybridStack.Pisces

open Sweep

variable {T : Type}

/-! ## The loops -/

/-- `skip?.invoke(item, other) == true`. -/
def skips (skip : Option (T → T → Bool)) (item other : T) : Bool := skip.any fun f => f item other

/-- The inner loop, `for (j in i + 1 until size)`, over the indices still to come. -/
def removeInner (skip : Option (T → T → Bool)) (deleteCondition : Nat → T → Nat → T → Int)
    (i : Nat) (item : T) : List Nat → List (Option T) → List (Option T)
  | [], xs => xs
  | j :: js, xs =>
    match xs[j]? with
    | some (some other) =>
      if skips skip item other then removeInner skip deleteCondition i item js xs
      else
        let pos := deleteCondition i item j other
        if pos ≠ -1 then
          let xs := xs.set pos.toNat none
          -- `if (pos == i) break`
          if pos = i then xs else removeInner skip deleteCondition i item js xs
        else removeInner skip deleteCondition i item js xs
    | _ => removeInner skip deleteCondition i item js xs

/-- The outer loop, `for (i in 0 until size)`. -/
def removeOuter (skip : Option (T → T → Bool)) (deleteCondition : Nat → T → Nat → T → Int) :
    List Nat → List (Option T) → List (Option T)
  | [], xs => xs
  | i :: is, xs =>
    match xs[i]? with
    | some (some item) =>
      removeOuter skip deleteCondition is
        (removeInner skip deleteCondition i item (List.range' (i + 1) (xs.length - (i + 1))) xs)
    | _ => removeOuter skip deleteCondition is xs

/-- `MutableList<T?>.remove`: the loops, then the iterator that drops the nulls. -/
def remove (skip : Option (T → T → Bool)) (deleteCondition : Nat → T → Nat → T → Int)
    (xs : List (Option T)) : List (Option T) :=
  (removeOuter skip deleteCondition (List.range xs.length) xs).filter Option.isSome

/-- `d`, the delete condition of `removeParent` (MetaDataExt.kt:103-110). -/
def d [IsMetaData T] (i : Nat) (item : T) (j : Nat) (other : T) : Int :=
  if (IsMetaData.superClasses item).contains (IsMetaData.classname other) then j
  else if (IsMetaData.superClasses other).contains (IsMetaData.classname item) then i
  else -1

/-- `MutableList<T?>.removeParent`. -/
def removeParent [IsMetaData T] (skip : Option (T → T → Bool)) (xs : List (Option T)) :
    List (Option T) :=
  remove skip d xs

/-! ## From index loops to a sweep -/

/-- `item` deletes `other` when both are live. -/
structure Decides (dom : T → T → Bool) (deleteCondition : Nat → T → Nat → T → Int) : Prop where
  eq : ∀ i item j other, deleteCondition i item j other =
    if dom item other then (j : Int) else if dom other item then (i : Int) else -1

/-- The relation that takes effect: pairs that `skip` passes over are not compared. -/
def guarded (skip : Option (T → T → Bool)) (dom : T → T → Bool) (a b : T) : Bool :=
  !skips skip a b && dom a b

theorem guarded_iff {skip : Option (T → T → Bool)} {dom : T → T → Bool} {a b : T} :
    guarded skip dom a b = true ↔ skips skip a b = false ∧ dom a b = true := by
  simp [guarded]

/-- `skip` does not depend on which of the two comes first. -/
def SkipSymm (skip : Option (T → T → Bool)) : Prop := ∀ a b, skips skip a b = skips skip b a

section
variable {skip : Option (T → T → Bool)} {dom : T → T → Bool}
  {deleteCondition : Nat → T → Nat → T → Int}

theorem getElem?_mid {β : Type} (A : List β) (o : β) (t : List β) :
    (A ++ o :: t)[A.length]? = some o := by
  simp

theorem set_mid {β : Type} (A : List β) (o x : β) (t : List β) :
    (A ++ o :: t).set A.length x = A ++ x :: t := by
  simp

/-- The inner loop on the part of the list it has not reached: its slots become those of a scan,
the slot of `item` is emptied when the scan does not survive, everything before stays. -/
theorem removeInner_eq (hd : Decides dom deleteCondition) (hs : SkipSymm skip)
    (pre : List (Option T)) (item : T) : ∀ (todo done : List (Option T)),
    ∃ todo', todo'.length = todo.length ∧
      todo'.reduceOption = (scan (guarded skip dom) item todo.reduceOption).2 ∧
      removeInner skip deleteCondition pre.length item
          (List.range' (pre.length + 1 + done.length) todo.length) (pre ++ some item :: (done ++ todo)) =
        pre ++ (if (scan (guarded skip dom) item todo.reduceOption).1 then some item else none) ::
          (done ++ todo')
  | [], done => ⟨[], rfl, by simp [scan], by simp [removeInner, scan]⟩
  | o :: todo, done => by
    have hat : pre ++ some item :: (done ++ o :: todo) = (pre ++ some item :: done) ++ o :: todo := by
      simp
    have hlen : pre.length + 1 + done.length = (pre ++ some item :: done).length := by simp; omega
    have hnext : ∀ o', removeInner skip deleteCondition pre.length item
        (List.range' (pre.length + 1 + done.length + 1) todo.length)
          ((pre ++ some item :: done) ++ o' :: todo) =
        removeInner skip deleteCondition pre.length item
          (List.range' (pre.length + 1 + (done ++ [o']).length) todo.length)
            (pre ++ some item :: ((done ++ [o']) ++ todo)) := fun o' => by
      simp [Nat.add_assoc]
    rw [List.length_cons, List.range'_succ, hat]
    cases o with
    | none =>
      obtain ⟨todo', h1, h2, h3⟩ := removeInner_eq hd hs pre item todo (done ++ [none])
      refine ⟨none :: todo', by simp [h1], by simpa using h2, ?_⟩
      rw [removeInner, hlen, getElem?_mid, ← hlen, hnext, h3]
      simp
    | some other =>
      rw [removeInner, hlen, getElem?_mid, ← hlen]
      simp only [List.reduceOption_cons_of_some, scan, guarded, hd.eq]
      by_cases hsk : skips skip item other = true
      · obtain ⟨todo', h1, h2, h3⟩ := removeInner_eq hd hs pre item todo (done ++ [some other])
        have hsk' : skips skip other item = true := by rw [hs]; exact hsk
        refine ⟨some other :: todo', by simp [h1], by simp [hsk, hsk', h2], ?_⟩
        simp only [hsk, if_true]
        rw [hnext, h3]
        simp [hsk']
      · have hsk' : skips skip other item = false := by rw [hs]; simpa using hsk
        simp only [hsk, hsk', Bool.not_false, Bool.true_and, if_false, Bool.false_eq_true]
        by_cases hdom : dom item other = true
        · -- `pos == j`: the slot of `other` is emptied and the loop goes on
          obtain ⟨todo', h1, h2, h3⟩ := removeInner_eq hd hs pre item todo (done ++ [none])
          have hne : ¬ ((pre.length + 1 + done.length : Nat) : Int) = (pre.length : Int) := by omega
          refine ⟨none :: todo', by simp [h1], by simp [hdom, h2], ?_⟩
          simp only [hdom, if_true, hne, if_false]
          rw [if_pos (by omega), Int.toNat_natCast, hlen, set_mid, ← hlen, hnext, h3]
          simp
        · by_cases hdom' : dom other item = true
          · -- `pos == i`: the slot of `item` is emptied and the loop ends
            refine ⟨some other :: todo, by simp, by simp [hdom, hdom'], ?_⟩
            simp only [hdom, hdom', if_true, if_false, Bool.false_eq_true]
            rw [if_pos (by omega), Int.toNat_natCast, List.append_assoc, List.cons_append, set_mid]
          · obtain ⟨todo', h1, h2, h3⟩ := removeInner_eq hd hs pre item todo (done ++ [some other])
            refine ⟨some other :: todo', by simp [h1], by simp [hdom, hdom', h2], ?_⟩
            simp only [hdom, hdom', if_false, Bool.false_eq_true, ne_eq, not_true]
            rw [hnext, h3]
            simp

/-- The outer loop on the part of the list it has not reached. -/
theorem removeOuter_eq (hd : Decides dom deleteCondition) (hs : SkipSymm skip) :
    ∀ (n : Nat) (pre todo : List (Option T)), todo.length = n →
      ∃ todo', todo'.reduceOption = sweep (guarded skip dom) todo.reduceOption ∧
        removeOuter skip deleteCondition (List.range' pre.length n) (pre ++ todo) = pre ++ todo'
  | 0, pre, todo, hn => by
    obtain rfl := List.length_eq_zero_iff.1 hn
    exact ⟨[], by simp [sweep], rfl⟩
  | n + 1, pre, [], hn => by simp at hn
  | n + 1, pre, o :: todo, hn => by
    simp only [List.length_cons, Nat.add_right_cancel_iff] at hn
    have hnext : ∀ o' t', pre ++ o' :: t' = (pre ++ [o']) ++ t' := fun o' t' => by simp
    have hpre : ∀ o' : Option T, pre.length + 1 = (pre ++ [o']).length := fun o' => by simp
    rw [List.range'_succ, removeOuter, getElem?_mid]
    cases o with
    | none =>
      obtain ⟨todo', h1, h2⟩ := removeOuter_eq hd hs n (pre ++ [none]) todo hn
      refine ⟨none :: todo', by simpa using h1, ?_⟩
      simp only
      rw [hnext, hpre none, h2]
      simp
    | some item =>
      obtain ⟨rest, h1, h2, h3⟩ := removeInner_eq hd hs pre item todo []
      simp only [List.nil_append, List.length_nil, Nat.add_zero] at h3
      have hsize : (pre ++ some item :: todo).length - (pre.length + 1) = todo.length := by
        simp; omega
      simp only [hsize, h3, List.reduceOption_cons_of_some, sweep_cons]
      cases hsc : (scan (guarded skip dom) item todo.reduceOption).1 with
      | true =>
        obtain ⟨todo', h4, h5⟩ := removeOuter_eq hd hs n (pre ++ [some item]) rest (by rw [h1, hn])
        refine ⟨some item :: todo', by simp [h4, h2], ?_⟩
        simp only [if_true]
        rw [hnext, hpre (some item), h5]
        simp
      | false =>
        obtain ⟨todo', h4, h5⟩ := removeOuter_eq hd hs n (pre ++ [none]) rest (by rw [h1, hn])
        refine ⟨none :: todo', by simp [h4, h2], ?_⟩
        simp only [if_false, Bool.false_eq_true]
        rw [hnext, hpre none, h5]
        simp

theorem filter_isSome_eq {β : Type} : ∀ l : List (Option β),
    l.filter Option.isSome = l.reduceOption.map some
  | [] => rfl
  | none :: l => by simp [filter_isSome_eq l]
  | some x :: l => by simp [filter_isSome_eq l]

/-- **The index loops are a sweep** of the live entries. -/
theorem remove_eq_sweep (hd : Decides dom deleteCondition) (hs : SkipSymm skip)
    (xs : List (Option T)) :
    remove skip deleteCondition xs = (sweep (guarded skip dom) xs.reduceOption).map some := by
  obtain ⟨xs', h1, h2⟩ := removeOuter_eq hd hs xs.length [] xs rfl
  rw [remove, List.range_eq_range', filter_isSome_eq, ← h1]
  simp only [List.length_nil, List.nil_append] at h2
  rw [h2]

end

/-! ## Entries of one class hierarchy -/

open Ancestry (Hierarchy)

/-- The `superClasses` of `e` are the ancestor chain of its class, as `getSuperclasses`
(Utils.kt:193-201) collects it. -/
def Consistent [IsMetaData T] (H : Hierarchy String) (e : T) : Prop :=
  IsMetaData.superClasses e = H.chain (IsMetaData.classname e)

/-- `item` extends `other`. -/
def extendsB [IsMetaData T] (item other : T) : Bool :=
  (IsMetaData.superClasses item).contains (IsMetaData.classname other)

theorem decides_d [IsMetaData T] : Decides (T := T) extendsB d where
  eq _ _ _ _ := rfl

/-- What is needed of a `skip`: the pairs it lets through form an equivalence. -/
structure SkipOk (skip : Option (T → T → Bool)) : Prop where
  symm : SkipSymm skip
  trans : ∀ a b c, skips skip a b = false → skips skip b c = false → skips skip a c = false

theorem skipOk_none : SkipOk (none : Option (T → T → Bool)) where
  symm _ _ := rfl
  trans _ _ _ _ _ := rfl

/-- `{ item, other -> item.name != other.name }`. -/
theorem skipOk_ne (name : T → String) : SkipOk (some fun a b => name a != name b) where
  symm a b := by simp [skips, bne, BEq.comm]
  trans a b c hab hbc := by
    simp only [skips, Option.any_some, bne_eq_false_iff_eq] at *
    exact hab.trans hbc

section
variable [IsMetaData T] {H : Hierarchy String} {skip : Option (T → T → Bool)}

theorem extendsB_iff {a b : T} (ha : Consistent H a) :
    extendsB a b = true ↔ IsMetaData.classname b ∈ H.chain (IsMetaData.classname a) := by
  rw [extendsB, ha, List.contains_iff_mem]

/-- Extending, between entries that are not skipped, is a strict order. -/
theorem strictOn_extends (hs : SkipOk skip) {l : List T} (hl : ∀ e ∈ l, Consistent H e) :
    StrictOn (guarded skip extendsB) l where
  irrefl a ha := by
    rw [← Bool.not_eq_true, guarded_iff, extendsB_iff (hl a ha)]
    exact fun h => H.chain_irrefl _ h.2
  trans a ha b hb c _ hab hbc := by
    rw [guarded_iff, extendsB_iff (hl _ ‹_›)] at *
    exact ⟨hs.trans a b c hab.1 hbc.1, H.chain_trans hbc.2 hab.2⟩

/-- **`removeParent` keeps the leaves**: the entries that no entry of the list which is not
skipped against them extends. -/
theorem removeParent_eq (hs : SkipOk skip) {xs : List (Option T)}
    (hxs : ∀ e ∈ xs.reduceOption, Consistent H e) :
    removeParent skip xs =
      (undominated (guarded skip extendsB) xs.reduceOption).map some := by
  rw [removeParent, remove_eq_sweep decides_d hs.symm,
    sweep_eq_undominated (strictOn_extends hs hxs)]

end

/-! ## The widget condition (QuickAppMetaDataProcessor.kt:110-118) -/

def widgetDeleteCondition (i : Nat) (item : WidgetMetaData) (j : Nat) (other : WidgetMetaData) : Int :=
  if item.superClasses.contains other.classname && item.needDeleteSuperClasses then j
  else if other.superClasses.contains item.classname && other.needDeleteSuperClasses then i
  else -1

/-- `item` extends `other` and is flagged `needDeleteSuperClasses`. -/
def deletesWidget (item other : WidgetMetaData) : Bool :=
  item.superClasses.contains other.classname && item.needDeleteSuperClasses

theorem decides_widget : Decides deletesWidget widgetDeleteCondition where
  eq _ _ _ _ := rfl

section
variable {H : Hierarchy String} {skip : Option (WidgetMetaData → WidgetMetaData → Bool)}

theorem deletesWidget_iff {a b : WidgetMetaData} :
    deletesWidget a b = true ↔ extendsB a b = true ∧ a.needDeleteSuperClasses = true := by
  simp [deletesWidget, extendsB, IsMetaData.superClasses, IsMetaData.classname]

/-- The flag sits on the descendant only, so a chain of deletions composes whatever flags the
classes in between carry. -/
theorem strictOn_deletesWidget (hs : SkipOk skip) {l : List WidgetMetaData}
    (hl : ∀ e ∈ l, Consistent H e) : StrictOn (guarded skip deletesWidget) l where
  irrefl a ha := by
    rw [← Bool.not_eq_true, guarded_iff, deletesWidget_iff, extendsB_iff (hl a ha)]
    exact fun h => H.chain_irrefl _ h.2.1
  trans a ha b hb c _ hab hbc := by
    rw [guarded_iff, deletesWidget_iff, extendsB_iff (hl _ ‹_›)] at *
    exact ⟨hs.trans a b c hab.1 hbc.1, H.chain_trans hbc.2.1 hab.2.1, hab.2.2⟩

theorem removeWidget_eq (hs : SkipOk skip) {xs : List (Option WidgetMetaData)}
    (hxs : ∀ e ∈ xs.reduceOption, Consistent H e) :
    remove skip widgetDeleteCondition xs =
      (undominated (guarded skip deletesWidget) xs.reduceOption).map some := by
  rw [remove_eq_sweep decides_widget hs.symm,
    sweep_eq_undominated (strictOn_deletesWidget hs hxs)]

end

end HybridStack.Pisces
