/-!
# Runs of a transition system

A system is a partial function `step`: an action is possible in a state where it is `some` state.
`Reaches step P s₀ s` says that a run from `s₀` to `s` exists all of whose steps meet `P`, a
condition on the state before the step and the action. `Reaches.invariant` is the rule for what
holds in every state of such runs; `reaches_of_run` makes one of a list of actions. A state may keep
a history, to which a step adds an entry at the end: `split_concat` says where any entry of it is then.
-/

namespace Transition

variable {S A : Type} {step : S → A → Option S} {P Q : S → A → Prop} {s₀ s s' : S}

inductive Reaches (step : S → A → Option S) (P : S → A → Prop) (s₀ : S) : S → Prop
  | refl : Reaches step P s₀ s₀
  | tail {s s' : S} {a : A} : Reaches step P s₀ s → P s a → step s a = some s' →
      Reaches step P s₀ s'

/-- What holds at first and survives every step that meets `P` holds wherever `P`-runs lead. -/
theorem Reaches.invariant (I : S → Prop) (h : Reaches step P s₀ s) (hinit : I s₀)
    (hstep : ∀ s a s', I s → P s a → step s a = some s' → I s') : I s := by
  induction h with
  | refl => exact hinit
  | tail _ hp hs ih => exact hstep _ _ _ ih hp hs

theorem Reaches.trans (h : Reaches step P s₀ s) (h' : Reaches step P s s') :
    Reaches step P s₀ s' := by
  induction h' with
  | refl => exact h
  | tail _ hp hs ih => exact ih.tail hp hs

/-- The state after a list of actions. -/
def run (step : S → A → Option S) : S → List A → Option S
  | s, [] => some s
  | s, a :: as =>
    match step s a with
    | some s' => run step s' as
    | none => none

theorem run_append {as bs : List A} (h : run step s as = some s') :
    run step s (as ++ bs) = run step s' bs := by
  induction as generalizing s with
  | nil => rw [Option.some.inj h, List.nil_append]
  | cons a as ih =>
    rw [run] at h
    rw [List.cons_append, run]
    cases hs : step s a with
    | none => simp only [hs, reduceCtorEq] at h
    | some t =>
      simp only [hs] at h
      exact ih h

/-- Every step of `run` meets `P`. -/
def Meets (step : S → A → Option S) (P : S → A → Prop) : S → List A → Prop
  | _, [] => True
  | s, a :: as =>
    P s a ∧
      match step s a with
      | some s' => Meets step P s' as
      | none => True

instance decidableMeets [∀ s a, Decidable (P s a)] :
    (s : S) → (as : List A) → Decidable (Meets step P s as)
  | _, [] => .isTrue trivial
  | s, a :: as =>
    haveI : Decidable (match step s a with
        | some s' => Meets step P s' as
        | none => True) :=
      match step s a with
      | some s' => decidableMeets s' as
      | none => .isTrue trivial
    inferInstanceAs (Decidable (P s a ∧ _))

theorem meets_of_forall {as : List A} (h : ∀ a ∈ as, ∀ s, P s a) (s : S) : Meets step P s as := by
  induction as generalizing s with
  | nil => trivial
  | cons a as ih =>
    refine ⟨h a List.mem_cons_self s, ?_⟩
    cases step s a with
    | none => trivial
    | some s' => exact ih (fun b hb => h b (List.mem_cons_of_mem a hb)) s'

theorem meets_true (s : S) (as : List A) : Meets step (fun _ _ => True) s as :=
  meets_of_forall (fun _ _ _ => trivial) s

theorem reaches_of_run {as : List A} (hrun : run step s as = some s') (hmeets : Meets step P s as) :
    Reaches step P s s' := by
  suffices h : ∀ (as : List A) (t : S), Reaches step P s t → run step t as = some s' →
      Meets step P t as → Reaches step P s s' from h as s .refl hrun hmeets
  intro as
  induction as with
  | nil =>
    intro t ht hrun _
    obtain rfl := Option.some.inj hrun
    exact ht
  | cons a as ih =>
    intro t ht hrun hmeets
    rw [run] at hrun
    rw [Meets] at hmeets
    cases hs : step t a with
    | none => simp only [hs, reduceCtorEq] at hrun
    | some t' =>
      simp only [hs] at hrun hmeets
      exact ih t' (ht.tail hmeets.1 hs) hrun hmeets.2

/-- Where an entry stands in a history that has grown by one. -/
theorem split_concat {α : Type} {l before after : List α} {x y : α}
    (h : l ++ [x] = before ++ y :: after) :
    (∃ rest, l = before ++ y :: rest) ∨ before = l ∧ y = x := by
  rcases List.eq_nil_or_concat after with rfl | ⟨after, last, rfl⟩
  · obtain ⟨rfl, hy⟩ := List.append_inj' h rfl
    exact Or.inr ⟨rfl, (List.singleton_inj.1 hy).symm⟩
  · rw [List.concat_eq_append, ← List.cons_append, ← List.append_assoc] at h
    exact Or.inl ⟨after, (List.append_inj' h rfl).1⟩

end Transition
