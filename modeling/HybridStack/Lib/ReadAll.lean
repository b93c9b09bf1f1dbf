import Mathlib.Data.List.Basic

/-!
# Reading a sequence of symbols

A reader takes symbols off the front of a list, one read at a time, each of which may put out several
results. `readAll` reads until nothing is left. `readAll_flatMap` is the rule for a list that was
written symbol by symbol: it is enough that one read takes off one symbol, wherever a symbol is
followed by another or by the end.
-/

namespace ReadAll

variable {α β γ : Type}

/-- With enough fuel for the list. -/
def readAll (next : List β → List γ × List β) : Nat → List β → List γ
  | 0, _ => []
  | _ + 1, [] => []
  | fuel + 1, b :: l => (next (b :: l)).1 ++ readAll next fuel (next (b :: l)).2

theorem readAll_nil (next : List β → List γ × List β) (fuel : Nat) : readAll next fuel [] = [] := by
  cases fuel with
  | zero => rfl
  | succ fuel => rfl

/-- `Start` is true where a symbol may begin. -/
theorem readAll_flatMap {next : List β → List γ × List β} {put : α → List β} {out : α → List γ}
    (Start : List β → Prop) (l : List α) (fuel : Nat) (hput : ∀ a ∈ l, put a ≠ []) (hnil : Start [])
    (hstart : ∀ a ∈ l, ∀ rest, Start (put a ++ rest))
    (hnext : ∀ a ∈ l, ∀ rest, Start rest → next (put a ++ rest) = (out a, rest))
    (hfuel : (l.flatMap put).length ≤ fuel) :
    readAll next fuel (l.flatMap put) = l.flatMap out := by
  induction l generalizing fuel with
  | nil => exact readAll_nil next fuel
  | cons a l ih =>
    have hrest : Start (l.flatMap put) := by
      cases l with
      | nil => exact hnil
      | cons a' l => exact hstart a' (by simp) _
    have hread := hnext a List.mem_cons_self _ hrest
    rw [List.flatMap_cons, List.length_append] at hfuel
    rw [List.flatMap_cons, List.flatMap_cons]
    cases hp : put a with
    | nil => exact absurd hp (hput a List.mem_cons_self)
    | cons b bs =>
      rw [hp] at hread hfuel
      rw [List.length_cons] at hfuel
      cases fuel with
      | zero => omega
      | succ fuel =>
        rw [List.cons_append] at hread ⊢
        rw [readAll, hread]
        rw [ih fuel (fun x hx => hput x (List.mem_cons_of_mem _ hx))
          (fun x hx => hstart x (List.mem_cons_of_mem _ hx))
          (fun x hx => hnext x (List.mem_cons_of_mem _ hx)) (by omega)]

end ReadAll
