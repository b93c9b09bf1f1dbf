import Mathlib.Data.Finset.Card
import Mathlib.Logic.Relation

/-!
# Cycles

Following a relation from `a` ends, whichever way is taken, exactly when it meets no cycle, provided
that only finitely many elements lead anywhere. "Ends" is accessibility, the form in which an
induction uses it.
-/

namespace Acyclic

open Relation (ReflTransGen TransGen)

variable {α : Type*} {R : α → α → Prop}

/-- No element reachable from `a` can be reached from itself. -/
def NoCycle (R : α → α → Prop) (a : α) : Prop := ∀ b, ReflTransGen R a b → ¬ TransGen R b b

/-- Every way from `a` along `R` ends. -/
def Ends (R : α → α → Prop) (a : α) : Prop := Acc (fun y x => R x y) a

theorem Ends.intro {a : α} (h : ∀ b, R a b → Ends R b) : Ends R a := Acc.intro a h

theorem Ends.next {a b : α} (h : Ends R a) (hab : R a b) : Ends R b := Acc.inv h hab

theorem NoCycle.next {a b : α} (h : NoCycle R a) (hab : R a b) : NoCycle R b :=
  fun c hc => h c (ReflTransGen.head hab hc)

theorem NoCycle.mono {S : α → α → Prop} {a : α} (h : NoCycle R a) (hS : ∀ x y, S x y → R x y) :
    NoCycle S a :=
  fun b hb hcycle => h b (ReflTransGen.mono hS _ _ hb) (TransGen.mono hS _ _ hcycle)

theorem Ends.not_cycle {a : α} (h : Ends R a) : ¬ TransGen R a a := by
  induction h with
  | intro a _ ih =>
    intro hcycle
    obtain ⟨b, hab, hba⟩ := TransGen.head'_iff.1 hcycle
    exact ih b hab (TransGen.tail' hba hab)

theorem Ends.noCycle {a : α} (h : Ends R a) : NoCycle R a := by
  intro b hab
  induction hab with
  | refl => exact h.not_cycle
  | @tail b c hab hbc ih =>
    have hb : Ends R b := by
      clear ih hbc
      induction hab with
      | refl => exact h
      | tail _ hbc ih => exact ih.next hbc
    exact (hb.next hbc).not_cycle

open Classical in
/-- A way that ends nowhere would come back, for want of other elements to go on from. -/
theorem NoCycle.ends {dom : Finset α} (hdom : ∀ a b, R a b → a ∈ dom) {a : α} (h : NoCycle R a) :
    Ends R a := by
  -- `S` are the elements on the way to `a`
  suffices H : ∀ (k : Nat) (S : Finset α) (a : α), (dom \ S).card = k → (∀ x ∈ S, TransGen R x a) →
      NoCycle R a → Ends R a from H _ ∅ a rfl (by simp) h
  intro k
  induction k using Nat.strongRecOn with
  | _ k ih =>
  intro S a hcard hS hcycle
  refine Ends.intro fun b hab => ?_
  have hnot : a ∉ S := fun ha => hcycle a .refl (hS a ha)
  have hlt : (dom \ insert a S).card < k := by
    rw [← hcard]
    refine Finset.card_lt_card (Finset.ssubset_iff_of_subset ?_ |>.2 ⟨a, ?_, by simp⟩)
    · exact Finset.sdiff_subset_sdiff (Finset.Subset.refl _) (Finset.subset_insert a S)
    · exact Finset.mem_sdiff.2 ⟨hdom a b hab, hnot⟩
  refine ih _ hlt (insert a S) b rfl (fun x hx => ?_) (hcycle.next hab)
  rcases Finset.mem_insert.1 hx with rfl | hx
  · exact .single hab
  · exact (hS x hx).tail hab

end Acyclic
