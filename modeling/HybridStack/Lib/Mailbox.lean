import Mathlib.Data.List.Basic

/-!
# Mailboxes

The calls on an owner that queues them and handles one at a time. `posted` has every call in order,
`taken` those that have been handled and what became of them, `refused` those that were turned away.

- `InOrder`: the calls are handled in the order in which they were made, each once, and only the
  last are turned away.
- `Judged`: what becomes of a call follows a rule about the calls handled before it.
-/

structure Mailbox (E O : Type) where
  posted : List E := []
  queue : List E := []
  taken : List (E × O) := []
  refused : List E := []
  deriving DecidableEq

namespace Mailbox

variable {E O : Type} {b : Mailbox E O} {e : E} {o : O} {refuses refuses' : Bool}

def post (b : Mailbox E O) (refuses : Bool) (e : E) : Mailbox E O :=
  if refuses then { b with posted := b.posted ++ [e], refused := b.refused ++ [e] }
  else { b with posted := b.posted ++ [e], queue := b.queue ++ [e] }

/-- The next call is handled, with the outcome `o`. -/
def take (b : Mailbox E O) (o : O) : Mailbox E O :=
  match b.queue with
  | [] => b
  | e :: queue => { b with queue, taken := b.taken ++ [(e, o)] }

def done (b : Mailbox E O) : List E := b.taken.map Prod.fst

@[simp] theorem done_empty : ({} : Mailbox E O).done = [] := rfl

@[simp] theorem done_post : (b.post refuses e).done = b.done := by
  cases refuses <;> rfl

@[simp] theorem taken_post : (b.post refuses e).taken = b.taken := by
  cases refuses <;> rfl

@[simp] theorem posted_post : (b.post refuses e).posted = b.posted ++ [e] := by
  cases refuses <;> rfl

@[simp] theorem posted_take : (b.take o).posted = b.posted := by
  rw [take]
  split <;> rfl

theorem taken_take {queue : List E} (h : b.queue = e :: queue) :
    (b.take o).taken = b.taken ++ [(e, o)] := by
  rw [take]
  simp only [h]

theorem done_take {queue : List E} (h : b.queue = e :: queue) : (b.take o).done = b.done ++ [e] := by
  rw [done, taken_take h, List.map_append]
  rfl

/-! ## Order -/

/-- `refuses` tells whether a call is turned away now. -/
structure InOrder (b : Mailbox E O) (refuses : Bool) : Prop where
  posted_eq : b.posted = b.done ++ b.queue ++ b.refused
  refused_eq : refuses = false → b.refused = []

namespace InOrder

theorem empty : InOrder ({} : Mailbox E O) refuses := ⟨rfl, fun _ => rfl⟩

theorem post (h : b.InOrder refuses) (e : E) : (b.post refuses e).InOrder refuses := by
  cases refuses with
  | true =>
    refine ⟨?_, fun hr => Bool.noConfusion hr⟩
    rw [posted_post, h.posted_eq, List.append_assoc, done_post]
    rfl
  | false =>
    refine ⟨?_, h.refused_eq⟩
    have hnil := h.refused_eq rfl
    rw [posted_post, h.posted_eq, hnil, List.append_nil, done_post, List.append_assoc]
    show _ = _ ++ (b.queue ++ [e]) ++ b.refused
    rw [hnil, List.append_nil]

theorem take (h : b.InOrder refuses) (o : O) : (b.take o).InOrder refuses := by
  cases hq : b.queue with
  | nil => rwa [Mailbox.take, hq]
  | cons e queue =>
    refine ⟨?_, ?_⟩
    · rw [posted_take, h.posted_eq, done_take hq, hq, Mailbox.take, hq]
      simp
    · rw [Mailbox.take, hq]
      exact h.refused_eq

/-- Calls may be turned away from now on. -/
theorem mono (h : b.InOrder refuses) (hr : refuses = true → refuses' = true) : b.InOrder refuses' :=
  ⟨h.posted_eq, fun hr' => h.refused_eq (Bool.eq_false_iff.2 fun ht => by simp [hr ht] at hr')⟩

theorem mem_posted (h : b.InOrder refuses) (hmem : e ∈ b.done) : e ∈ b.posted := by
  rw [h.posted_eq, List.append_assoc]
  exact List.mem_append_left _ hmem

/-- The call whose turn it is has not been handled yet, where it was only made once. -/
theorem notMem_done [DecidableEq E] {queue : List E} (h : b.InOrder refuses)
    (hq : b.queue = e :: queue) (hone : b.posted.count e ≤ 1) : e ∉ b.done := by
  intro hmem
  have hcount : 1 ≤ b.done.count e := List.count_pos_iff.2 hmem
  rw [h.posted_eq, hq, List.append_assoc, List.count_append, List.cons_append,
    List.count_cons_self] at hone
  omega

end InOrder

/-! ## Outcomes -/

/-- `rule before e o`: a call `e` that comes after the calls `before`, with what became of these, may
have the outcome `o`. -/
def Judged (rule : List (E × O) → E → O → Prop) (b : Mailbox E O) : Prop :=
  ∀ before e o after, b.taken = before ++ (e, o) :: after → rule before e o

namespace Judged

variable {rule : List (E × O) → E → O → Prop}

theorem empty : Judged rule ({} : Mailbox E O) := by
  intro before e o after h
  exact absurd h (by simp)

theorem post (h : b.Judged rule) (e : E) : (b.post refuses e).Judged rule := by
  rw [Judged, taken_post]
  exact h

theorem take {queue : List E} (h : b.Judged rule) (hq : b.queue = e :: queue)
    (ho : rule b.taken e o) : (b.take o).Judged rule := by
  intro before e' o' after hsplit
  rw [taken_take hq] at hsplit
  rcases List.append_eq_append_iff.1 hsplit with ⟨as, rfl, hs⟩ | ⟨cs, htaken, hs⟩
  · cases as with
    | nil =>
      obtain ⟨⟨rfl, rfl⟩, -⟩ : (e = e' ∧ o = o') ∧ _ := by simpa using hs
      rw [List.append_nil]
      exact ho
    | cons a as => simp at hs
  · cases cs with
    | nil =>
      obtain ⟨⟨rfl, rfl⟩, -⟩ : (e' = e ∧ o' = o) ∧ _ := by simpa using hs
      rw [List.append_nil] at htaken
      rw [← htaken]
      exact ho
    | cons c cs =>
      obtain ⟨rfl, -⟩ : (e', o') = c ∧ _ := by simpa using hs
      exact h before e' o' cs htaken

end Judged

end Mailbox
