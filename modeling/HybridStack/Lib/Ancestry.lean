import HybridStack.Lib.Acyclic
import Mathlib.Data.List.Infix

/-!
# Single-inheritance hierarchies

A class has at most one superclass, and following superclasses ends. `Hierarchy` states both at
once: `chain c` is the list of strict ancestors of `c`, nearest first, and a chain that unfolds
along `superclass` can only exist where there is no cycle.
-/

namespace Ancestry

variable {C : Type*}

/-- An acyclic single-inheritance hierarchy with the ancestor chain of every class. -/
structure Hierarchy (C : Type*) where
  superclass : C → Option C
  chain : C → List C
  chain_eq : ∀ c, chain c = match superclass c with
    | none => []
    | some d => d :: chain d

namespace Hierarchy

variable (H : Hierarchy C)

/-- The hierarchy of a superclass map that ends wherever one starts. -/
noncomputable def ofEnds (superclass : C → Option C)
    (h : ∀ c, Acyclic.Ends (fun a b => superclass a = some b) c) : Hierarchy C where
  superclass := superclass
  chain := WellFounded.fix ⟨h⟩ fun c chain => match hd : superclass c with
    | none => []
    | some d => d :: chain d hd
  chain_eq c := by
    rw [WellFounded.fix_eq]
    split
    next hd => simp only [hd]
    next d hd => simp only [hd]

/-- What follows an ancestor in a chain is that ancestor's own chain. -/
theorem chain_split : ∀ {c d : C} {pre post : List C}, H.chain c = pre ++ d :: post →
    H.chain d = post
  | c, d, [], post, h => by
    rw [H.chain_eq] at h
    split at h
    · simp at h
    · simp only [List.nil_append, List.cons.injEq] at h
      rw [← h.1, h.2]
  | c, d, p :: pre, post, h => by
    rw [H.chain_eq] at h
    split at h
    · simp at h
    · simp only [List.cons_append, List.cons.injEq] at h
      exact chain_split h.2

theorem chain_suffix {c d : C} (h : d ∈ H.chain c) : d :: H.chain d <:+ H.chain c := by
  obtain ⟨pre, post, hc⟩ := List.append_of_mem h
  rw [H.chain_split hc, hc]
  exact List.suffix_append _ _

theorem chain_trans {a b c : C} (hab : a ∈ H.chain b) (hbc : b ∈ H.chain c) : a ∈ H.chain c :=
  (H.chain_suffix hbc).subset (List.mem_cons_of_mem b hab)

theorem chain_irrefl (c : C) : c ∉ H.chain c := fun h => by
  have := (H.chain_suffix h).length_le
  simp only [List.length_cons] at this
  omega

/-- `a` is `b` or one of its ancestors. -/
def IsAncestorOrSelf (a b : C) : Prop := a = b ∨ a ∈ H.chain b

theorem IsAncestorOrSelf.trans {a b c : C} (hab : H.IsAncestorOrSelf a b)
    (hbc : H.IsAncestorOrSelf b c) : H.IsAncestorOrSelf a c := by
  rcases hab with rfl | hab
  · exact hbc
  · rcases hbc with rfl | hbc
    · exact Or.inr hab
    · exact Or.inr (H.chain_trans hab hbc)

/-- What follows `c` in a list. -/
def after [DecidableEq C] (c : C) : List C → List C
  | [] => []
  | x :: xs => if x = c then xs else after c xs

theorem after_sublist [DecidableEq C] (c : C) : ∀ l : List C, (after c l).Sublist l
  | [] => .slnil
  | x :: xs => by
    rw [after]
    split_ifs
    · exact List.sublist_cons_self x xs
    · exact (after_sublist c xs).cons x

theorem after_after [DecidableEq C] {c d : C} {rest : List C} : ∀ {l : List C}, l.Nodup →
    after c l = d :: rest → after d l = rest
  | [], _, h => by simp [after] at h
  | x :: xs, hnd, h => by
    obtain ⟨hx, hxs⟩ := List.nodup_cons.1 hnd
    have hmem : d ∈ xs := by
      rw [after] at h
      split_ifs at h
      · simp [h]
      · exact (after_sublist c xs).subset (h ▸ List.mem_cons_self)
    have hxd : x ≠ d := fun h => hx (h ▸ hmem)
    rw [after, if_neg hxd]
    rw [after] at h
    split_ifs at h
    · rw [h, after, if_pos rfl]
    · exact after_after hxs h

/-- One line of classes, each extending the next. -/
def line [DecidableEq C] (l : List C) (hl : l.Nodup) : Hierarchy C where
  superclass c := (after c l).head?
  chain c := after c l
  chain_eq c := by
    cases h : after c l with
    | nil => rfl
    | cons d rest => simp [after_after hl h]

/-- The nearest strict ancestor that satisfies `p`. -/
def nearest (p : C → Bool) (c : C) : Option C := (H.chain c).find? p

/-- An ancestor passed over on the way to the nearest one has the same nearest one. -/
theorem nearest_of_passed {p : C → Bool} {c d : C} {pre post : List C}
    (hc : H.chain c = pre ++ d :: post) (hpre : ∀ x ∈ pre, p x = false) (hd : p d = false) :
    H.nearest p d = H.nearest p c := by
  have hnone : pre.find? p = none := List.find?_eq_none.2 fun x hx => by simp [hpre x hx]
  simp [nearest, hc, H.chain_split hc, List.find?_append, hnone, hd]

end Hierarchy

end Ancestry
