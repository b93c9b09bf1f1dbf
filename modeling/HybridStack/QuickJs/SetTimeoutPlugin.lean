import HybridStack.Lib.Mailbox
import HybridStack.Lib.Transition
import Mathlib.Data.List.Nodup
import Mathlib.Logic.Function.Basic

/-!
# SetTimeoutPlugin

Each call of `setTimeout` starts a thread that sleeps and then posts an event to the runtime's event
queue. Nothing is kept of it but the thread: a timer can neither be cancelled nor waited for, and
what it finds when it wakes is up to whoever closed the context or the runtime in the meantime.

| here | there |
| --- | --- |
| `Action.setTimeout` | the callback, SetTimeoutPlugin.java:13-16 |
| `State.wake` | its thread, SetTimeoutPlugin.java:17-26 |
| `State.handle` | the handler thread with the next event, EventQueue.java:97-111 |
| `State.closeContext`, `closeRuntime` | JSContext.java:63-84, QuickJS.java:65-81 |

A thread may wake at any time after its delay, and the handler thread may be as late as it likes. A
`Close` is posted by another thread or made by code on the handler thread itself, which has no need
to queue it. A `QuickJS.close` that stops at a null of its array counts as closes of the contexts
before it. Left out are events that neither close anything nor come from a timer, a thread that is
interrupted in its sleep, the half of the guard of `postVoid` that asks for an interrupted handler
thread (`QuickJS.close` interrupts it after the release), and a runtime whose thread has no looper.

- **`timers_called`**: what every call of a timer's function is preceded by.
- **`timers_kept`**: no timer is lost or doubled while its context is there.
-/

namespace HybridStack.QuickJs.SetTimeoutPlugin

open Transition

structure Timer where
  context : Nat
  /-- `args.getObject(0)` is not null. -/
  func : Bool
  delayMillis : Int
  /-- When `setTimeout` was called. -/
  setAt : Nat
  deriving DecidableEq, Repr

/-- The thread need not sleep any longer. -/
def Timer.Due (t : Timer) (now : Nat) : Prop := t.setAt + t.delayMillis ≤ now

instance (t : Timer) (now : Nat) : Decidable (t.Due now) := inferInstanceAs (Decidable (_ ≤ _))

/-- `Thread.sleep` takes the delay, and there is a function to call. -/
def Timer.Valid (t : Timer) : Prop := 0 ≤ t.delayMillis ∧ t.func = true

instance (t : Timer) : Decidable t.Valid := inferInstanceAs (Decidable (_ ∧ _))

inductive Close
  | context (c : Nat)
  | runtime
  deriving DecidableEq, Repr

inductive Event
  | timer (i : Nat)
  | close (x : Close)
  deriving DecidableEq, Repr

inductive Outcome
  | called
  /-- The context has been closed. -/
  | skipped
  /-- The runtime has been released. -/
  | dropped
  | closed
  deriving DecidableEq, Repr

/-- What has happened on the handler thread. -/
inductive Entry
  | called (i time : Nat)
  | closed (c : Nat)
  | released
  deriving DecidableEq, Repr

def Entry.called? : Entry → Option Nat
  | .called i _ => some i
  | _ => none

/-- The timers are numbered in the order of the calls. -/
structure State where
  now : Nat := 0
  timers : List Timer := []
  sleeping : List Nat := []
  events : Mailbox Event Outcome := {}
  closed : Nat → Bool := fun _ => false
  released : Bool := false
  /-- A thread has ended with an exception. -/
  crashed : Bool := false
  log : List Entry := []

inductive Action
  | tick
  | setTimeout (context : Nat) (func : Bool) (delayMillis : Int)
  | wake (i : Nat)
  /-- Another thread closes something. -/
  | post (x : Close)
  /-- The handler thread does. -/
  | close (x : Close)
  | take
  deriving DecidableEq, Repr

namespace State

variable (s : State)

/-- `JSContext.isReleased`. -/
def isReleased (c : Nat) : Bool := s.released || s.closed c

def closeContext (c : Nat) : State :=
  if s.isReleased c then s
  else { s with closed := Function.update s.closed c true, log := s.log ++ [.closed c] }

/-- The contexts are closed first; `isReleased` is true of them anyway. -/
def closeRuntime : State :=
  if s.released then s else { s with released := true, log := s.log ++ [.released] }

def close : Close → State
  | .context c => s.closeContext c
  | .runtime => s.closeRuntime

def post (e : Event) : State := { s with events := s.events.post s.released e }

/-- The thread of the timer `i`. The `IllegalArgumentException` of a negative delay and the
`NullPointerException` of a missing function are not caught; an `InterruptedException` is, and the
event then posted early. -/
def wake (i : Nat) (t : Timer) : Option State :=
  if t.delayMillis < 0 then some { s with crashed := true }
  else if ¬ t.Due s.now then none
  else if t.func then some ({ s with sleeping := s.sleeping.erase i }.post (.timer i))
  else some { s with crashed := true }

/-- The event that was posted for the timer `i`. -/
def handleTimer (i : Nat) : State :=
  match s.timers[i]? with
  | none => { s with events := s.events.take .skipped }
  | some t =>
    if s.isReleased t.context then { s with events := s.events.take .skipped }
    else { s with events := s.events.take .called, log := s.log ++ [.called i s.now] }

def handle (e : Event) : State :=
  if s.released then { s with events := s.events.take .dropped }
  else
    match e with
    | .timer i => s.handleTimer i
    | .close x => { s.close x with events := s.events.take .closed }

end State

def step (s : State) (a : Action) : Option State :=
  if s.crashed then none
  else
    match a with
    | .tick => some { s with now := s.now + 1 }
    | .setTimeout context func delayMillis =>
      if s.isReleased context then none
      else some { s with
        timers := s.timers ++ [⟨context, func, delayMillis, s.now⟩]
        sleeping := s.sleeping ++ [s.timers.length] }
    | .wake i =>
      match s.timers[i]? with
      | none => none
      | some t => if i ∈ s.sleeping then s.wake i t else none
    | .post x => some (s.post (.close x))
    | .close x => some (s.close x)
    | .take =>
      match s.events.queue with
      | [] => none
      | e :: _ => some (s.handle e)

/-! ## What a step can do -/

theorem step_cases {s s' : State} {a : Action} (h : step s a = some s') : s.crashed = false ∧
    (s' = { s with now := s.now + 1 } ∨
    (∃ t : Timer, t.setAt = s.now ∧ s.isReleased t.context = false ∧
      s' = { s with timers := s.timers ++ [t], sleeping := s.sleeping ++ [s.timers.length] }) ∨
    (∃ i t, s.timers[i]? = some t ∧ i ∈ s.sleeping ∧
      (¬ t.Valid ∧ s' = { s with crashed := true } ∨
        t.Valid ∧ t.Due s.now ∧ s' = { s with sleeping := s.sleeping.erase i }.post (.timer i))) ∨
    (∃ x, s' = s.post (.close x)) ∨ (∃ x, s' = s.close x) ∨
    ∃ e queue, s.events.queue = e :: queue ∧ s' = s.handle e) := by
  obtain ⟨hc, h⟩ := Option.ite_none_left_eq_some.1 h
  refine ⟨by simpa using hc, ?_⟩
  cases a with
  | tick => exact Or.inl (Option.some.inj h).symm
  | setTimeout context func delayMillis =>
    obtain ⟨hr, h⟩ := Option.ite_none_left_eq_some.1 h
    refine Or.inr (Or.inl ⟨⟨context, func, delayMillis, s.now⟩, rfl, ?_, (Option.some.inj h).symm⟩)
    simpa using hr
  | wake i =>
    cases ht : s.timers[i]? with
    | none => simp only [ht, reduceCtorEq] at h
    | some t =>
      simp only [ht] at h
      obtain ⟨hi, h⟩ := Option.ite_none_right_eq_some.1 h
      refine Or.inr (Or.inr (Or.inl ⟨i, t, ht, hi, ?_⟩))
      unfold State.wake at h
      split at h
      next hneg =>
        refine Or.inl ⟨?_, (Option.some.inj h).symm⟩
        intro hv
        exact absurd hv.1 (by omega)
      next hneg =>
        split at h
        next => cases h
        next hdue =>
          split at h
          next hf =>
            exact Or.inr ⟨⟨by omega, hf⟩, not_not.1 hdue, (Option.some.inj h).symm⟩
          next hf => exact Or.inl ⟨fun hv => hf hv.2, (Option.some.inj h).symm⟩
  | post x => exact Or.inr (Or.inr (Or.inr (Or.inl ⟨x, (Option.some.inj h).symm⟩)))
  | close x => exact Or.inr (Or.inr (Or.inr (Or.inr (Or.inl ⟨x, (Option.some.inj h).symm⟩))))
  | take =>
    cases hq : s.events.queue with
    | nil => simp only [hq, reduceCtorEq] at h
    | cons e queue =>
      simp only [hq, Option.some.injEq] at h
      exact Or.inr (Or.inr (Or.inr (Or.inr (Or.inr ⟨e, queue, rfl, h.symm⟩))))

/-- What closing changes. -/
theorem State.close_eq (s : State) (x : Close) : s.close x = s ∨
    (∃ c, s.isReleased c = false ∧
      s.close x = { s with closed := Function.update s.closed c true, log := s.log ++ [.closed c] }) ∨
    s.released = false ∧ s.close x = { s with released := true, log := s.log ++ [.released] } := by
  cases x with
  | context c =>
    by_cases hr : s.isReleased c = true
    · exact Or.inl (if_pos hr)
    · exact Or.inr (Or.inl ⟨c, Bool.not_eq_true _ ▸ hr, if_neg hr⟩)
  | runtime =>
    by_cases hr : s.released = true
    · exact Or.inl (if_pos hr)
    · exact Or.inr (Or.inr ⟨Bool.not_eq_true _ ▸ hr, if_neg hr⟩)

theorem State.close_events (s : State) (x : Close) (events : Mailbox Event Outcome) :
    ({ s.close x with events } : State) = ({ s with events } : State).close x := by
  cases x with
  | context c =>
    by_cases hr : (s.released || s.closed c) = true
    · simp only [State.close, State.closeContext, State.isReleased, hr, if_true]
    · simp only [State.close, State.closeContext, State.isReleased, hr, Bool.false_eq_true, if_false]
  | runtime =>
    by_cases hr : s.released = true
    · simp only [State.close, State.closeRuntime, hr, if_true]
    · simp only [State.close, State.closeRuntime, hr, Bool.false_eq_true, if_false]

/-! ## The invariant -/

def State.calls (s : State) : List Nat := s.log.filterMap Entry.called?

def Event.timer? : Event → Option Nat
  | .timer i => some i
  | .close _ => none

/-- The timers whose threads have woken, in that order. -/
def State.woken (s : State) : List Nat := s.events.posted.filterMap Event.timer?

/-- What is true of a call of the function of `i` at `time`, when `before` is what happened before. -/
def Timely (timers : List Timer) (before : List Entry) (i time : Nat) : Prop :=
  ∃ t, timers[i]? = some t ∧ t.Valid ∧ t.Due time ∧ .closed t.context ∉ before ∧ .released ∉ before

structure State.Inv (s : State) : Prop where
  inOrder : s.events.InOrder s.released
  sleeping_lt : ∀ i ∈ s.sleeping, i < s.timers.length
  once : ∀ i < s.timers.length, s.sleeping.count i + s.events.posted.count (.timer i) = 1
  woken : ∀ i, .timer i ∈ s.events.posted → ∃ t, s.timers[i]? = some t ∧ t.Valid ∧ t.Due s.now
  calls_sublist : s.calls.Sublist (s.events.done.filterMap Event.timer?)
  calls_eq : ∀ i t, s.timers[i]? = some t → s.isReleased t.context = false →
    s.calls.count i = s.events.done.count (.timer i)
  closed_iff : ∀ c, s.closed c = true ↔ .closed c ∈ s.log
  released_iff : s.released = true ↔ .released ∈ s.log
  timely : ∀ before i time after, s.log = before ++ .called i time :: after →
    Timely s.timers before i time
  crashed : s.crashed = true → ∃ t ∈ s.timers, ¬ t.Valid

theorem count_timer (i : Nat) (l : List Event) :
    (l.filterMap Event.timer?).count i = l.count (.timer i) := by
  induction l with
  | nil => rfl
  | cons e l ih =>
    cases e with
    | close x =>
      rw [List.filterMap_cons_none rfl, ih, List.count_cons_of_ne (by simp)]
    | timer j =>
      have hcons : (Event.timer j :: l).filterMap Event.timer? = j :: l.filterMap Event.timer? := rfl
      rw [hcons]
      by_cases hj : j = i
      · subst hj
        rw [List.count_cons_self, List.count_cons_self, ih]
      · rw [List.count_cons_of_ne hj, List.count_cons_of_ne (by simpa using hj), ih]

theorem getElem?_concat {α : Type} {l : List α} {i : Nat} {x : α} (h : l[i]? = some x) (y : α) :
    (l ++ [y])[i]? = some x := by
  rw [List.getElem?_append_left (List.getElem?_eq_some_iff.1 h).1]
  exact h

theorem Timely.more {timers : List Timer} {before : List Entry} {i time : Nat} (t : Timer)
    (h : Timely timers before i time) : Timely (timers ++ [t]) before i time := by
  obtain ⟨t', ht, hrest⟩ := h
  exact ⟨t', getElem?_concat ht t, hrest⟩

namespace State.Inv

variable {s : State}

theorem start : ({} : State).Inv where
  inOrder := .empty
  sleeping_lt i h := absurd h List.not_mem_nil
  once i h := absurd h (Nat.not_lt_zero i)
  woken i h := absurd h List.not_mem_nil
  calls_sublist := .slnil
  calls_eq i t h := by simp at h
  closed_iff c := by simp
  released_iff := by simp
  timely before i time after h := by simp at h
  crashed h := Bool.noConfusion h

theorem tick (h : s.Inv) : ({ s with now := s.now + 1 } : State).Inv where
  __ := h
  woken i hi := by
    obtain ⟨t, ht, hv, hd⟩ := h.woken i hi
    refine ⟨t, ht, hv, ?_⟩
    unfold Timer.Due at hd ⊢
    dsimp only
    omega

theorem setTimeout (h : s.Inv) (t : Timer) :
    ({ s with timers := s.timers ++ [t], sleeping := s.sleeping ++ [s.timers.length] } : State).Inv := by
  have hnew : .timer s.timers.length ∉ s.events.posted := by
    intro hmem
    obtain ⟨t', ht', -⟩ := h.woken _ hmem
    simp at ht'
  have hnotsleeping : s.timers.length ∉ s.sleeping := fun hmem => absurd (h.sleeping_lt _ hmem) (Nat.lt_irrefl _)
  refine { h with sleeping_lt := ?_, once := ?_, woken := ?_, calls_eq := ?_, timely := ?_, crashed := ?_ }
  · intro i hi
    rw [List.length_append, List.length_singleton]
    rcases List.mem_append.1 hi with hi | hi
    · exact Nat.lt_succ_of_lt (h.sleeping_lt i hi)
    · rw [List.mem_singleton.1 hi]
      exact Nat.lt_succ_self _
  · intro i hi
    rw [List.length_append, List.length_singleton] at hi
    rw [List.count_append]
    by_cases hlast : i = s.timers.length
    · subst hlast
      rw [List.count_eq_zero.2 hnotsleeping, List.count_eq_zero.2 hnew, List.count_singleton_self]
    · rw [List.count_eq_zero.2 (List.mem_singleton.not.2 hlast), Nat.add_zero]
      exact h.once i (by omega)
  · intro i hi
    obtain ⟨t', ht', hrest⟩ := h.woken i hi
    exact ⟨t', getElem?_concat ht' t, hrest⟩
  · intro i t' ht' hr
    by_cases hlast : i < s.timers.length
    · rw [List.getElem?_append_left hlast] at ht'
      exact h.calls_eq i t' ht' hr
    · -- the new timer has not been called, nor has its thread woken
      have hi : i = s.timers.length := by
        have hlt := (List.getElem?_eq_some_iff.1 ht').1
        rw [List.length_append, List.length_singleton] at hlt
        omega
      subst hi
      have hdone : .timer s.timers.length ∉ s.events.done := fun hmem => hnew (h.inOrder.mem_posted hmem)
      have hcalls : s.timers.length ∉ s.calls := by
        intro hmem
        obtain ⟨e, he, hei⟩ := List.mem_filterMap.1 (h.calls_sublist.subset hmem)
        cases e with
        | close x => cases hei
        | timer j =>
          cases hei
          exact hdone he
      rw [List.count_eq_zero.2 hdone]
      exact List.count_eq_zero.2 hcalls
  · intro before i time after hsplit
    exact (h.timely before i time after hsplit).more t
  · intro hc
    obtain ⟨t', ht', hv⟩ := h.crashed hc
    exact ⟨t', List.mem_append_left _ ht', hv⟩

/-- The thread of a timer is done sleeping. -/
theorem wake {i : Nat} {t : Timer} (h : s.Inv) (ht : s.timers[i]? = some t) (hi : i ∈ s.sleeping)
    (hv : t.Valid) (hd : t.Due s.now) :
    ({ s with sleeping := s.sleeping.erase i }.post (.timer i) : State).Inv := by
  refine { h with inOrder := h.inOrder.post _, sleeping_lt := ?_, once := ?_, woken := ?_,
                  calls_sublist := ?_, calls_eq := ?_ }
  · intro j hj
    exact h.sleeping_lt j (List.mem_of_mem_erase hj)
  · intro j hj
    have hone := h.once j hj
    simp only [State.post, Mailbox.posted_post, List.count_append]
    by_cases hji : j = i
    · subst hji
      have hpos := List.count_pos_iff.2 hi
      rw [List.count_erase_self, List.count_singleton_self]
      omega
    · have hne : (Event.timer i) ≠ .timer j := by simpa using Ne.symm hji
      rw [List.count_erase_of_ne hji, List.count_singleton, if_neg (by simpa using hne)]
      omega
  · intro j hj
    simp only [State.post, Mailbox.posted_post, List.mem_append, List.mem_singleton] at hj
    rcases hj with hj | hj
    · exact h.woken j hj
    · cases hj
      exact ⟨t, ht, hv, hd⟩
  · simp only [State.post, Mailbox.done_post]
    exact h.calls_sublist
  · simp only [State.post, Mailbox.done_post]
    exact h.calls_eq

theorem postClose (h : s.Inv) (x : Close) : (s.post (.close x)).Inv := by
  refine { h with inOrder := h.inOrder.post _, once := ?_, woken := ?_, calls_sublist := ?_,
                  calls_eq := ?_ }
  · intro i hi
    simp only [State.post, Mailbox.posted_post, List.count_append]
    rw [List.count_eq_zero.2 (by simp : Event.timer i ∉ [Event.close x]), Nat.add_zero]
    exact h.once i hi
  · intro i hi
    simp only [State.post, Mailbox.posted_post, List.mem_append, List.mem_singleton, reduceCtorEq,
      or_false] at hi
    exact h.woken i hi
  · simp only [State.post, Mailbox.done_post]
    exact h.calls_sublist
  · simp only [State.post, Mailbox.done_post]
    exact h.calls_eq

/-- No timer is called by an entry that is no call. -/
theorem calls_concat {log : List Entry} {e : Entry} (he : e.called? = none) :
    (log ++ [e]).filterMap Entry.called? = log.filterMap Entry.called? := by
  rw [List.filterMap_append, List.filterMap_cons_none he, List.filterMap_nil, List.append_nil]

theorem close (h : s.Inv) (x : Close) : (s.close x).Inv := by
  rcases s.close_eq x with heq | ⟨c, hc, heq⟩ | ⟨hr, heq⟩
  · rw [heq]
    exact h
  · rw [heq]
    refine { h with calls_sublist := ?_, calls_eq := ?_, closed_iff := ?_, released_iff := ?_,
                    timely := ?_ }
    · rw [State.calls, calls_concat rfl]
      exact h.calls_sublist
    · intro i t ht hrel
      rw [State.calls, calls_concat rfl]
      apply h.calls_eq i t ht
      simp only [State.isReleased, Bool.or_eq_false_iff] at hrel ⊢
      refine ⟨hrel.1, ?_⟩
      by_cases htc : t.context = c
      · rw [htc, Function.update_self] at hrel
        exact Bool.noConfusion hrel.2
      · rw [Function.update_of_ne htc] at hrel
        exact hrel.2
    · intro c'
      by_cases hcc : c' = c
      · simp [hcc]
      · simp [hcc, h.closed_iff]
    · simp [h.released_iff]
    · intro before i time after hsplit
      rcases split_concat hsplit with ⟨rest, hrest⟩ | ⟨-, hy⟩
      · exact h.timely before i time rest hrest
      · cases hy
  · rw [heq]
    refine { h with inOrder := h.inOrder.mono fun _ => rfl, calls_sublist := ?_, calls_eq := ?_,
                    closed_iff := ?_, released_iff := ?_, timely := ?_ }
    · rw [State.calls, calls_concat rfl]
      exact h.calls_sublist
    · intro i t _ hrel
      simp only [State.isReleased, Bool.true_or, reduceCtorEq] at hrel
    · simp [h.closed_iff]
    · simp
    · intro before i time after hsplit
      rcases split_concat hsplit with ⟨rest, hrest⟩ | ⟨-, hy⟩
      · exact h.timely before i time rest hrest
      · cases hy

/-- An event passes without a call, if it is no timer's or its context is gone. -/
theorem pass {e : Event} {queue : List Event} (h : s.Inv) (hq : s.events.queue = e :: queue)
    (o : Outcome)
    (hgone : ∀ i t, e = .timer i → s.timers[i]? = some t → s.isReleased t.context = true) :
    ({ s with events := s.events.take o } : State).Inv := by
  refine { h with inOrder := h.inOrder.take o, once := ?_, woken := ?_, calls_sublist := ?_,
                  calls_eq := ?_ }
  · simpa only [Mailbox.posted_take] using h.once
  · simpa only [Mailbox.posted_take] using h.woken
  · simp only [Mailbox.done_take hq, List.filterMap_append]
    exact h.calls_sublist.trans (List.sublist_append_left _ _)
  · intro i t ht hrel
    have hne : e ≠ .timer i := by
      intro he
      exact Bool.false_ne_true (hrel.symm.trans (hgone i t he ht))
    simp only [Mailbox.done_take hq, List.count_append]
    rw [List.count_singleton, if_neg (by simpa using hne), Nat.add_zero]
    exact h.calls_eq i t ht hrel

theorem call {i : Nat} {t : Timer} {queue : List Event} (h : s.Inv)
    (hq : s.events.queue = .timer i :: queue) (ht : s.timers[i]? = some t)
    (hrel : s.isReleased t.context = false) :
    ({ s with events := s.events.take .called, log := s.log ++ [.called i s.now] } : State).Inv := by
  have hcalls : (s.log ++ [Entry.called i s.now]).filterMap Entry.called? = s.calls ++ [i] := by
    rw [List.filterMap_append]
    rfl
  refine { h with inOrder := h.inOrder.take _, once := ?_, woken := ?_, calls_sublist := ?_,
                  calls_eq := ?_, closed_iff := ?_, released_iff := ?_, timely := ?_ }
  · simpa only [Mailbox.posted_take] using h.once
  · simpa only [Mailbox.posted_take] using h.woken
  · rw [State.calls, hcalls, Mailbox.done_take hq, List.filterMap_append]
    exact h.calls_sublist.append (List.Sublist.refl _)
  · intro j t' ht' hrel'
    rw [State.calls, hcalls, Mailbox.done_take hq, List.count_append, List.count_append,
      h.calls_eq j t' ht' hrel', ← count_timer j [_]]
    rfl
  · simp [h.closed_iff]
  · simp [h.released_iff]
  · intro before j time after hsplit
    rcases split_concat hsplit with ⟨rest, hrest⟩ | ⟨rfl, hy⟩
    · exact h.timely before j time rest hrest
    · obtain ⟨rfl, rfl⟩ := Entry.called.inj hy
      have hposted : .timer j ∈ s.events.posted := by
        rw [h.inOrder.posted_eq, hq]
        simp
      obtain ⟨t', ht', hv, hd⟩ := h.woken j hposted
      obtain rfl := Option.some.inj (ht.symm.trans ht')
      simp only [State.isReleased, Bool.or_eq_false_iff] at hrel
      refine ⟨t, ht, hv, hd, ?_, ?_⟩
      · rw [← h.closed_iff, hrel.2]
        exact Bool.false_ne_true
      · rw [← h.released_iff, hrel.1]
        exact Bool.false_ne_true

theorem handle {e : Event} {queue : List Event} (h : s.Inv) (hq : s.events.queue = e :: queue) :
    (s.handle e).Inv := by
  unfold State.handle
  split
  next hr =>
    apply h.pass hq
    intro i t _ _
    simp only [State.isReleased, hr, Bool.true_or]
  next hr =>
    cases e with
    | timer i =>
      simp only [State.handleTimer]
      split
      next hnone =>
        apply h.pass hq
        intro j t hj ht
        cases hj
        rw [hnone] at ht
        cases ht
      next t ht =>
        split
        next hrel =>
          apply h.pass hq
          intro j t' hj ht'
          cases hj
          obtain rfl := Option.some.inj (ht.symm.trans ht')
          exact hrel
        next hrel => exact h.call hq ht (Bool.not_eq_true _ ▸ hrel)
    | close x =>
      have hpass := h.pass hq .closed (fun i t hi => Event.noConfusion hi)
      show ({ s.close x with events := s.events.take .closed } : State).Inv
      rw [s.close_events x]
      exact hpass.close x

theorem step {s' : State} {a : Action} (h : s.Inv) (hstep : SetTimeoutPlugin.step s a = some s') :
    s'.Inv := by
  obtain ⟨hc, rfl | ⟨t, -, -, rfl⟩ | ⟨i, t, ht, hi, ⟨hv, rfl⟩ | ⟨hv, hd, rfl⟩⟩ | ⟨x, rfl⟩ | ⟨x, rfl⟩ |
    ⟨e, queue, hq, rfl⟩⟩ := step_cases hstep
  · exact h.tick
  · exact h.setTimeout t
  · exact { h with crashed := fun _ => ⟨t, List.mem_of_getElem? ht, hv⟩ }
  · exact h.wake ht hi hv hd
  · exact h.postClose x
  · exact h.close x
  · exact h.handle hq

end State.Inv

theorem inv_of_reaches {s : State} {P : State → Action → Prop} (h : Reaches step P {} s) : s.Inv :=
  h.invariant State.Inv .start fun _ _ _ hs _ hstep => hs.step hstep

/-! ## Calls -/

theorem State.Inv.woken_nodup {s : State} (h : s.Inv) : s.woken.Nodup := by
  rw [List.nodup_iff_count_le_one]
  intro i
  unfold State.woken
  rw [count_timer]
  by_cases hmem : .timer i ∈ s.events.posted
  · obtain ⟨t, ht, -⟩ := h.woken i hmem
    have hone := h.once i (List.getElem?_eq_some_iff.1 ht).1
    omega
  · rw [List.count_eq_zero.2 hmem]
    omega

/-- **Calls of timers.** In any run, whoever closes what and when: a timer's function is called at
most once, never before its delay is over, never behind the close of its context or the release of
the runtime; the calls come in the order in which the threads woke, whatever their delays. Only a
negative delay, or no function, ends the process. -/
theorem timers_called {s : State} (h : Reaches step (fun _ _ => True) {} s) :
    s.calls.Nodup ∧ s.calls.Sublist s.woken ∧
      (∀ before i time after, s.log = before ++ .called i time :: after →
        Timely s.timers before i time) ∧
      (s.crashed = true → ∃ t ∈ s.timers, ¬ t.Valid) := by
  have hinv := inv_of_reaches h
  have hsub : s.calls.Sublist s.woken := by
    apply hinv.calls_sublist.trans
    unfold State.woken
    rw [hinv.inOrder.posted_eq, List.append_assoc, List.filterMap_append]
    exact List.sublist_append_left _ _
  exact ⟨hsub.nodup hinv.woken_nodup, hsub, hinv.timely, hinv.crashed⟩

/-- Two timers, of which the one with the longer delay is called first, and one that the close of
its context is too early for. -/
def lateWakeUp : List Action :=
  [.setTimeout 0 true 1, .setTimeout 0 true 0, .setTimeout 1 true 2, .tick, .wake 0, .wake 1, .tick,
    .take, .close (.context 1), .wake 2, .take, .take]

theorem timers_called_lateWakeUp : ∃ s, run step {} lateWakeUp = some s ∧
    s.log = [.called 0 2, .closed 1, .called 1 2] ∧ s.calls.Nodup := by
  have hrun : (run step {} lateWakeUp).map State.log = some [.called 0 2, .closed 1, .called 1 2] := by
    decide +kernel
  obtain ⟨s, hs, hlog⟩ := Option.map_eq_some_iff.1 hrun
  exact ⟨s, hs, hlog, (timers_called (reaches_of_run hs (meets_true _ _))).1⟩

/-! ## No timer is lost -/

theorem State.Inv.kept {s : State} (h : s.Inv) {i : Nat} {t : Timer} (ht : s.timers[i]? = some t)
    (hrel : s.isReleased t.context = false) :
    s.sleeping.count i + s.events.queue.count (.timer i) + s.calls.count i = 1 := by
  have hone := h.once i (List.getElem?_eq_some_iff.1 ht).1
  have hopen : s.released = false := by
    simp only [State.isReleased, Bool.or_eq_false_iff] at hrel
    exact hrel.1
  rw [h.inOrder.posted_eq, h.inOrder.refused_eq hopen, List.append_nil, List.count_append] at hone
  rw [h.calls_eq i t ht hrel]
  omega

/-- Time passes. -/
theorem reaches_later (s : State) (hc : s.crashed = false) (n : Nat) :
    Reaches step (fun _ _ => True) s { s with now := s.now + n } := by
  induction n with
  | zero => exact .refl
  | succ n ih =>
    apply ih.tail (a := .tick) trivial
    simp only [step, hc, Bool.false_eq_true, if_false]
    rfl

/-- What the event of a timer leaves alone. -/
theorem handle_timer (s : State) (j : Nat) {queue : List Event}
    (hq : s.events.queue = .timer j :: queue) :
    (s.handle (.timer j)).events.queue = queue ∧ (s.handle (.timer j)).timers = s.timers ∧
      (s.handle (.timer j)).sleeping = s.sleeping ∧ (s.handle (.timer j)).crashed = s.crashed ∧
      (s.handle (.timer j)).isReleased = s.isReleased := by
  have htake : ∀ o, (s.events.take o).queue = queue := by
    intro o
    rw [Mailbox.take]
    simp only [hq]
  unfold State.handle
  split
  next => exact ⟨htake _, rfl, rfl, rfl, rfl⟩
  next =>
    simp only [State.handleTimer]
    split
    next => exact ⟨htake _, rfl, rfl, rfl, rfl⟩
    next =>
      split
      next => exact ⟨htake _, rfl, rfl, rfl, rfl⟩
      next => exact ⟨htake _, rfl, rfl, rfl, rfl⟩

/-- The handler thread gets to the end of a queue that has nothing to close in it. -/
theorem reaches_drained : ∀ (queue : List Event) (s : State), s.events.queue = queue →
    s.crashed = false → (∀ x, .close x ∉ queue) →
    ∃ s', Reaches step (fun _ _ => True) s s' ∧ s'.events.queue = [] ∧ s'.timers = s.timers ∧
      s'.sleeping = s.sleeping ∧ s'.isReleased = s.isReleased := by
  intro queue
  induction queue with
  | nil =>
    intro s hq _ _
    exact ⟨s, .refl, hq, rfl, rfl, rfl⟩
  | cons e queue ih =>
    intro s hq hc hno
    cases e with
    | close x => exact absurd List.mem_cons_self (hno x)
    | timer j =>
      obtain ⟨hq', ht, hsl, hc', hrel⟩ := handle_timer s j hq
      have hstep : step s .take = some (s.handle (.timer j)) := by
        simp only [step, hc, Bool.false_eq_true, if_false, hq]
      obtain ⟨s', hs', h1, h2, h3, h4⟩ := ih _ hq' (hc'.trans hc)
        (fun x hx => hno x (List.mem_cons_of_mem _ hx))
      have hfirst : Reaches step (fun _ _ => True) s (s.handle (.timer j)) := .tail .refl trivial hstep
      exact ⟨s', hfirst.trans hs', h1, h2.trans ht, h3.trans hsl, h4.trans hrel⟩

/-- **No timer is lost or doubled**: while its context is open, a timer is asleep, or queued, or has
been called, and only one of these and once. It can still be called as long as no close is queued. -/
theorem timers_kept {s : State} (h : Reaches step (fun _ _ => True) {} s) {i : Nat} {t : Timer}
    (ht : s.timers[i]? = some t) (hrel : s.isReleased t.context = false) :
    s.sleeping.count i + s.events.queue.count (.timer i) + s.calls.count i = 1 ∧
      (t.Valid → s.crashed = false → (∀ x, .close x ∉ s.events.queue) →
        ∃ s', Reaches step (fun _ _ => True) s s' ∧ i ∈ s'.calls) := by
  refine ⟨(inv_of_reaches h).kept ht hrel, ?_⟩
  intro hv hc hno
  -- once the thread is awake, the queue has to be worked off
  have hawake : ∀ s₁ : State, Reaches step (fun _ _ => True) s s₁ → s₁.timers[i]? = some t →
      s₁.isReleased t.context = false → i ∉ s₁.sleeping → s₁.crashed = false →
      (∀ x, .close x ∉ s₁.events.queue) → ∃ s', Reaches step (fun _ _ => True) s s' ∧ i ∈ s'.calls := by
    intro s₁ h₁ ht₁ hrel₁ hsl hc₁ hno₁
    obtain ⟨s', hs', hq', ht', hsl', hrel'⟩ := reaches_drained _ s₁ rfl hc₁ hno₁
    have hall := h₁.trans hs'
    have hone := (inv_of_reaches (h.trans hall)).kept (i := i) (t := t) (by rw [ht', ht₁])
      (by rw [hrel', hrel₁])
    rw [hsl', List.count_eq_zero.2 hsl, hq', List.count_nil] at hone
    refine ⟨s', hall, ?_⟩
    rw [← List.count_pos_iff]
    omega
  by_cases hi : i ∈ s.sleeping
  · have hlater := reaches_later s hc (t.setAt + t.delayMillis).toNat
    have hdue : t.Due (s.now + (t.setAt + t.delayMillis).toNat) := by
      unfold Timer.Due
      omega
    have hneg : ¬ t.delayMillis < 0 := by
      have hle := hv.1
      omega
    have hstep : step { s with now := s.now + (t.setAt + t.delayMillis).toNat } (.wake i) =
        some ({ s with
          now := s.now + (t.setAt + t.delayMillis).toNat
          sleeping := s.sleeping.erase i }.post (.timer i)) := by
      simp only [step, hc, Bool.false_eq_true, if_false, ht, hi, if_true, State.wake, hneg, hdue,
        not_true_eq_false, hv.2]
    have hwoken := hlater.tail (a := .wake i) trivial hstep
    have hopen : s.released = false := by
      simp only [State.isReleased, Bool.or_eq_false_iff] at hrel
      exact hrel.1
    apply hawake _ hwoken ht hrel ?_ hc ?_
    · intro hmem
      have hone := (inv_of_reaches h).once i (List.getElem?_eq_some_iff.1 ht).1
      have hpos : 0 < (s.sleeping.erase i).count i := List.count_pos_iff.2 hmem
      rw [List.count_erase_self] at hpos
      omega
    · intro x hx
      simp only [State.post, hopen, Mailbox.post, Bool.false_eq_true, if_false, List.mem_append,
        List.mem_singleton, reduceCtorEq, or_false] at hx
      exact hno x hx
  · exact hawake s .refl ht hrel hi hc hno

/-- A timer whose event is still queued. -/
theorem timers_kept_lateWakeUp : ∃ s s', run step {} (lateWakeUp.take 8) = some s ∧
    Reaches step (fun _ _ => True) s s' ∧ 1 ∈ s'.calls := by
  have hrun : (run step {} (lateWakeUp.take 8)).map (fun s => (s.timers[1]?, s.released, s.closed 0,
      s.crashed, s.events.queue)) = some (some ⟨0, true, 0, 0⟩, false, false, false, [.timer 1]) := by
    decide +kernel
  obtain ⟨s, hs, heq⟩ := Option.map_eq_some_iff.1 hrun
  simp only [Prod.mk.injEq] at heq
  obtain ⟨ht, hr, hcl, hc, hq⟩ := heq
  have hrel : s.isReleased 0 = false := by
    simp only [State.isReleased, hr, hcl, Bool.or_self]
  obtain ⟨s', hs', hmem⟩ := (timers_kept (reaches_of_run hs (meets_true _ _)) ht hrel).2 (by decide)
    hc (by simp [hq])
  exact ⟨s, s', hs, hs', hmem⟩

end HybridStack.QuickJs.SetTimeoutPlugin
