import HybridStack.Lib.Transition
import HybridStack.QuickJs.WorkerPlugin

/-!
# What becomes of the messages of workers

- `worker_handles`: the calls on a worker are handled in their order, each once, by what has become
  of its close. Behind one that is whole they are dropped, but for the script, which is run on a freed
  context; a close that is stopped by its own exception drops nothing.
- `message_heard_iff`: a worker whose script sets `onmessage` hears the messages posted after its
  script and before a close that closes its context, and no others.
- `messages_delivered`: what workers send arrives in order, and is only lost to a parent that is
  released; the process crashes just when a message gets to a context that has been closed, a
  constructor's thread to the Error of its script, or a thread beside the handler thread throws.
- `silent_after_release`: a worker that has been released sends nothing more.
- `closeContext_closes`: closing the context closes those workers whose tag no later one has.
-/

namespace HybridStack.QuickJs.WorkerPlugin

open Transition

def WorkerAction.sends : WorkerAction → List Message
  | .send msg => [msg]
  | _ => []

/-! ## One worker -/

namespace Worker

variable {w w' : Worker} {e : Event} {values : Values}

/-- What becomes of an event that leaves the rest of the worker as it is. -/
inductive Judges (w : Worker) : Event → Outcome → Option Event → Prop
  | script : Judges w .script (if w.isReleased then .afterRelease else .ran) (some .script)
  | freed : w.isReleased = true → Judges w .getException .afterRelease none
  | noException : w.isReleased = false → w.exception = false → Judges w .getException .ran none
  | dropped {msg : Message} : w.released = true → Judges w (.message msg) .dropped none
  | nothing {msg : Message} : w.isReleased = false → w.onmessage = .nothing →
      Judges w (.message msg) .ignored none
  | object {msg : Message} : w.isReleased = false → w.onmessage = .object →
      Judges w (.message msg) .failed none
  | function {msg : Message} : w.isReleased = false → w.onmessage = .function →
      Judges w (.message msg) .ran (some (.message msg))
  | late : w.isReleased = true → Judges w .timer .dropped none
  | timer : w.isReleased = false → Judges w .timer .ran (some .timer)
  | closed : w.released = true → Judges w .close .dropped none

/-- The event ends the process. -/
def Fatal (w : Worker) : Event → Prop
  | .message _ => w.closed = true ∧ w.released = false
  | .getException => w.exception = true ∧ w.isReleased = false
  | _ => False

/-- The action does. -/
def FatalAct (w : Worker) : WorkerAction → Prop
  | .take _ => ∃ e queue, w.events.queue = e :: queue ∧ w.Fatal e
  | .uncaught => True
  | _ => False

theorem handle_cases (w : Worker) (values : Values) (e : Event) :
    (∃ o running, Judges w e o running ∧ ¬ w.Fatal e ∧ w.handle values e = w.took o running) ∨
      (∃ o, w.Fatal e ∧ (o = .thrown ∧ e = .getException ∨ o = .crashed ∧ ∃ msg, e = .message msg) ∧
        w.handle values e =
          { w.took o none with exception := o ≠ .thrown && w.exception, crashed := true }) ∨
      (e = .close ∧ w.released = false ∧ values.null = true ∧
        w.handle values e =
          { w.took (.stopped values.own) none with closed := w.closed || values.own }) ∨
      (e = .close ∧ w.released = false ∧ values.null = false ∧
        w.handle values e =
          { w.took .ran none with closed := w.closed || values.own, released := true }) := by
  have hdef : w.isReleased = (w.released || w.closed) := rfl
  cases e with
  | script => exact Or.inl ⟨_, _, .script, id, rfl⟩
  | getException =>
    cases hr : w.isReleased with
    | true => exact Or.inl ⟨_, _, .freed hr, by simp [Fatal, hr], by simp [handle, hr]⟩
    | false =>
      cases hx : w.exception with
      | true => exact Or.inr (Or.inl ⟨.thrown, ⟨hx, hr⟩, Or.inl ⟨rfl, rfl⟩, by simp [handle, hr, hx]⟩)
      | false => exact Or.inl ⟨_, _, .noException hr hx, by simp [Fatal, hx], by simp [handle, hr, hx]⟩
  | message msg =>
    cases hr : w.released with
    | true => exact Or.inl ⟨_, _, .dropped hr, by simp [Fatal, hr], by simp [handle, hr]⟩
    | false =>
      cases hc : w.closed with
      | true =>
        refine Or.inr (Or.inl ⟨.crashed, ⟨hc, hr⟩, Or.inr ⟨rfl, msg, rfl⟩, ?_⟩)
        simp [handle, took, hr, hc]
      | false =>
        have hopen : w.isReleased = false := by simp [hdef, hr, hc]
        have hnot : ¬ w.Fatal (.message msg) := by simp [Fatal, hc]
        cases ho : w.onmessage with
        | nothing => exact Or.inl ⟨_, _, .nothing hopen ho, hnot, by simp [handle, hr, hc, ho]⟩
        | object => exact Or.inl ⟨_, _, .object hopen ho, hnot, by simp [handle, hr, hc, ho]⟩
        | function => exact Or.inl ⟨_, _, .function hopen ho, hnot, by simp [handle, hr, hc, ho]⟩
  | timer =>
    cases hr : w.isReleased with
    | true => exact Or.inl ⟨_, _, .late hr, id, by simp [handle, hr]⟩
    | false => exact Or.inl ⟨_, _, .timer hr, id, by simp [handle, hr]⟩
  | close =>
    cases hr : w.released with
    | true => exact Or.inl ⟨_, _, .closed hr, id, by simp [handle, closeRuntime, hr]⟩
    | false =>
      cases hn : values.null with
      | true => exact Or.inr (Or.inr (Or.inl ⟨rfl, rfl, rfl, by simp [handle, closeRuntime, hr, hn]⟩))
      | false => exact Or.inr (Or.inr (Or.inr ⟨rfl, rfl, rfl, by simp [handle, closeRuntime, hr, hn]⟩))

theorem act_cases {a : WorkerAction} (h : w.act a = some w') :
    (∃ e, e ≠ .close ∧ e ≠ .script ∧ e ≠ .getException ∧ a.sends = [] ∧ a ≠ .terminate ∧
        ¬ w.FatalAct a ∧ w' = w.post e) ∨
      (a = .terminate ∧ w' = w.close) ∨
      (a = .executeScript ∧ w.started = false ∧ w' = { w with started := true }.post .script) ∨
      (a = .checkException ∧ w.checked = false ∧
        w' = { w with checked := true }.post .getException) ∨
      (a = .uncaught ∧ w' = { w with crashed := true }) ∨
      (∃ values e queue, a = .take values ∧ w.running = none ∧ w.events.queue = e :: queue ∧
        w' = w.handle values e) ∨
      w.running ≠ none ∧
        ((∃ value, a = .setOnmessage value ∧ w' = { w with onmessage := value }) ∨
          (∃ msg, a = .send msg ∧ w' = { w with sent := w.sent ++ [msg] }) ∨
          (∃ error, (a = .returns ∨ a = .throws error) ∧ w' = w.finished error)) := by
  cases a with
  | postMessage msg =>
    exact Or.inl ⟨.message msg, by simp, by simp, by simp, rfl, by simp, id,
      (Option.some.inj h).symm⟩
  | timer => exact Or.inl ⟨.timer, by simp, by simp, by simp, rfl, by simp, id,
      (Option.some.inj h).symm⟩
  | uncaught => exact Or.inr (Or.inr (Or.inr (Or.inr (Or.inl ⟨rfl, (Option.some.inj h).symm⟩))))
  | terminate => exact Or.inr (Or.inl ⟨rfl, (Option.some.inj h).symm⟩)
  | executeScript =>
    obtain ⟨hs, h⟩ := Option.ite_none_left_eq_some.1 h
    exact Or.inr (Or.inr (Or.inl ⟨rfl, by simpa using hs, (Option.some.inj h).symm⟩))
  | checkException =>
    obtain ⟨hc, h⟩ := Option.ite_none_right_eq_some.1 h
    simp only [Bool.and_eq_true, Bool.not_eq_true'] at hc
    exact Or.inr (Or.inr (Or.inr (Or.inl ⟨rfl, hc.1.1.2, (Option.some.inj h).symm⟩)))
  | take values =>
    obtain ⟨hidle, h⟩ := Option.ite_none_left_eq_some.1 h
    split at h
    · cases h
    next e queue hq =>
      exact Or.inr (Or.inr (Or.inr (Or.inr (Or.inr (Or.inl
        ⟨values, e, queue, rfl, by simpa using hidle, hq, (Option.some.inj h).symm⟩)))))
  | setOnmessage value =>
    obtain ⟨hrun, h⟩ := Option.ite_none_right_eq_some.1 h
    exact Or.inr (Or.inr (Or.inr (Or.inr (Or.inr (Or.inr ⟨Option.isSome_iff_ne_none.1 hrun,
      Or.inl ⟨value, rfl, (Option.some.inj h).symm⟩⟩)))))
  | send msg =>
    obtain ⟨hrun, h⟩ := Option.ite_none_right_eq_some.1 h
    exact Or.inr (Or.inr (Or.inr (Or.inr (Or.inr (Or.inr ⟨Option.isSome_iff_ne_none.1 hrun,
      Or.inr (Or.inl ⟨msg, rfl, (Option.some.inj h).symm⟩)⟩)))))
  | returns =>
    obtain ⟨hrun, h⟩ := Option.ite_none_right_eq_some.1 h
    exact Or.inr (Or.inr (Or.inr (Or.inr (Or.inr (Or.inr ⟨Option.isSome_iff_ne_none.1 hrun,
      Or.inr (Or.inr ⟨_, Or.inl rfl, (Option.some.inj h).symm⟩)⟩)))))
  | throws error =>
    obtain ⟨hrun, h⟩ := Option.ite_none_right_eq_some.1 h
    exact Or.inr (Or.inr (Or.inr (Or.inr (Or.inr (Or.inr ⟨Option.isSome_iff_ne_none.1 hrun,
      Or.inr (Or.inr ⟨_, Or.inr rfl, (Option.some.inj h).symm⟩)⟩)))))

end Worker

/-- Of these events a close has closed the context or released the runtime. -/
def Closed (before : List (Event × Outcome)) : Prop :=
  (.close, .ran) ∈ before ∨ (.close, .stopped true) ∈ before

instance (before : List (Event × Outcome)) : Decidable (Closed before) :=
  inferInstanceAs (Decidable (_ ∨ _))

/-- What may become of an event that is handled after the events `before`. -/
def Rule (before : List (Event × Outcome)) : Event → Outcome → Prop
  | .script, o => o = if Closed before then .afterRelease else .ran
  | .getException, o => if Closed before then o = .afterRelease else o = .ran ∨ o = .thrown
  | .message _, o =>
    if (.close, .ran) ∈ before then o = .dropped
    else if (.close, .stopped true) ∈ before then o = .crashed
    else o = .ran ∨ o = .ignored ∨ o = .failed
  | .timer, o => o = if Closed before then .dropped else .ran
  | .close, o => o = .ran ∨ o = .stopped false ∨ o = .stopped true

structure Worker.Inv (w : Worker) : Prop where
  inOrder : w.events.InOrder w.released
  judged : w.events.Judged Rule
  released_iff : w.released = true ↔ (.close, .ran) ∈ w.events.taken
  closed_iff : w.isReleased = true ↔ Closed w.events.taken
  close_iff : .close ∈ w.events.posted ↔ w.terminate = true
  close_once : w.events.posted.count .close ≤ 1
  script_iff : .script ∈ w.events.posted ↔ w.started = true
  script_once : w.events.posted.count .script ≤ 1
  checked_iff : .getException ∈ w.events.posted ↔ w.checked = true
  checked_once : w.events.posted.count .getException ≤ 1

namespace Worker

variable {w w' : Worker} {e : Event} {queue : List Event} {values : Values}

theorem inv_start : ({} : Worker).Inv where
  inOrder := .empty
  judged := .empty
  released_iff := by simp
  closed_iff := by simp [isReleased, Closed]
  close_iff := by simp
  close_once := by simp
  script_iff := by simp
  script_once := by simp
  checked_iff := by simp
  checked_once := by simp

/-- Something is posted for the first time, or is none of what is posted once. -/
theorem Inv.post {start checked terminate : Bool} (hi : w.Inv)
    (hstart : e = .script ∧ w.started = false ∧ start = true ∨ e ≠ .script ∧ start = w.started)
    (hchecked : e = .getException ∧ w.checked = false ∧ checked = true ∨
      e ≠ .getException ∧ checked = w.checked)
    (hterminate : e = .close ∧ w.terminate = false ∧ terminate = true ∨
      e ≠ .close ∧ terminate = w.terminate) :
    ({ w with started := start, checked, terminate }.post e).Inv := by
  have honce : ∀ (e' : Event) (b b' : Bool), (e' ∈ w.events.posted ↔ b = true) →
      w.events.posted.count e' ≤ 1 → (e = e' ∧ b = false ∧ b' = true ∨ e ≠ e' ∧ b' = b) →
      (e' ∈ w.events.posted ++ [e] ↔ b' = true) ∧ (w.events.posted ++ [e]).count e' ≤ 1 := by
    rintro e' b b' hiff hone (⟨rfl, rfl, rfl⟩ | ⟨hne, rfl⟩)
    · have hnew : e ∉ w.events.posted := fun h => Bool.noConfusion (hiff.1 h)
      simp [List.count_append, List.count_eq_zero_of_not_mem hnew]
    · simpa [List.count_append, hne, Ne.symm hne] using ⟨hiff, hone⟩
  obtain ⟨hclose, hclose'⟩ := honce .close _ _ hi.close_iff hi.close_once hterminate
  obtain ⟨hscript, hscript'⟩ := honce .script _ _ hi.script_iff hi.script_once hstart
  obtain ⟨hexc, hexc'⟩ := honce .getException _ _ hi.checked_iff hi.checked_once hchecked
  refine ⟨hi.inOrder.post e, hi.judged.post e, ?_, ?_, ?_, ?_, ?_, ?_, ?_, ?_⟩ <;>
    simp only [Worker.post, Mailbox.posted_post, Mailbox.taken_post]
  all_goals first | assumption | exact hi.released_iff | exact hi.closed_iff

/-- An event is taken. -/
theorem Inv.take (hi : w.Inv) (hq : w.events.queue = e :: queue) {o : Outcome}
    (ho : Rule w.events.taken e o) (hw : w'.events = w.events.take o)
    (hflags : w'.terminate = w.terminate ∧ w'.started = w.started ∧ w'.checked = w.checked)
    (hreleased : w'.released = true ↔ w.released = true ∨ (e = .close ∧ o = .ran))
    (hclosed : w'.isReleased = true ↔
      w.isReleased = true ∨ (e = .close ∧ (o = .ran ∨ o = .stopped true))) : w'.Inv := by
  have htaken : w'.events.taken = w.events.taken ++ [(e, o)] := by rw [hw, Mailbox.taken_take hq]
  have hposted : w'.events.posted = w.events.posted := by rw [hw, Mailbox.posted_take]
  obtain ⟨hterm, hstart, hcheck⟩ := hflags
  refine ⟨?_, ?_, ?_, ?_, ?_, ?_, ?_, ?_, ?_, ?_⟩
  · rw [hw]
    exact (hi.inOrder.take o).mono fun hr => hreleased.2 (Or.inl hr)
  · rw [hw]
    exact hi.judged.take hq ho
  · rw [hreleased, htaken, hi.released_iff]
    simp only [List.mem_append, List.mem_singleton, Prod.mk.injEq, eq_comm]
  · rw [hclosed, htaken, hi.closed_iff, Closed, Closed]
    simp only [List.mem_append, List.mem_singleton, Prod.mk.injEq]
    constructor
    · rintro ((h | h) | ⟨rfl, rfl | rfl⟩) <;> simp_all
    · rintro ((h | ⟨rfl, rfl⟩) | (h | ⟨rfl, rfl⟩)) <;> simp_all
  · rw [hposted, hterm, hi.close_iff]
  · rw [hposted]
    exact hi.close_once
  · rw [hposted, hstart, hi.script_iff]
  · rw [hposted]
    exact hi.script_once
  · rw [hposted, hcheck, hi.checked_iff]
  · rw [hposted]
    exact hi.checked_once

theorem Inv.not_released (hi : w.Inv) (hq : w.events.queue = .close :: queue) :
    w.released = false := by
  by_contra hr
  have hmem := hi.released_iff.1 (by simpa using hr)
  exact hi.inOrder.notMem_done hq hi.close_once (List.mem_map.2 ⟨_, hmem, rfl⟩)

theorem Inv.rule (hi : w.Inv) {o : Outcome} {running : Option Event} (hne : e ≠ .close)
    (h : Judges w e o running) : Rule w.events.taken e o := by
  have hcl : ∀ b, w.isReleased = b → (Closed w.events.taken ↔ b = true) := by
    rintro b rfl
    exact hi.closed_iff.symm
  -- no close stands before an event that an open worker looks at
  have hopen : w.isReleased = false →
      (.close, .ran) ∉ w.events.taken ∧ (.close, .stopped true) ∉ w.events.taken := by
    intro hr
    have hnot := (not_congr (hcl _ hr)).2 Bool.false_ne_true
    simpa only [Closed, not_or] using hnot
  cases h with
  | script => simp [Rule, ← hi.closed_iff]
  | freed hr => simp [Rule, hcl _ hr]
  | noException hr => simp [Rule, hcl _ hr]
  | dropped hr => simp [Rule, hi.released_iff.1 hr]
  | nothing hr | object hr | function hr => simp [Rule, hopen hr]
  | late hr => simp [Rule, hcl _ hr]
  | timer hr => simp [Rule, hcl _ hr]
  | closed => exact absurd rfl hne

theorem Inv.fatal (hi : w.Inv) {o : Outcome} (hf : w.Fatal e)
    (ho : o = .thrown ∧ e = .getException ∨ o = .crashed ∧ ∃ msg, e = .message msg) :
    Rule w.events.taken e o := by
  rcases ho with ⟨rfl, rfl⟩ | ⟨rfl, msg, rfl⟩
  · have hnot : ¬ Closed w.events.taken := by simp [← hi.closed_iff, hf.2]
    simp [Rule, hnot]
  · have hran : (.close, .ran) ∉ w.events.taken := by simp [← hi.released_iff, hf.2]
    have hclosed : Closed w.events.taken := hi.closed_iff.1 (by simp [isReleased, hf.1])
    simp [Rule, hran, hclosed.resolve_left hran]

theorem Inv.handle (hi : w.Inv) (hq : w.events.queue = e :: queue) : (w.handle values e).Inv := by
  rcases w.handle_cases values e with ⟨o, running, hj, -, heq⟩ | ⟨o, hf, ho, heq⟩ |
    ⟨rfl, hr, -, heq⟩ | ⟨rfl, hr, -, heq⟩
  · have hne : e ≠ .close := by
      rintro rfl
      cases hj with
      | closed hr => simp [hi.not_released hq] at hr
    rw [heq]
    exact hi.take hq (hi.rule hne hj) rfl ⟨rfl, rfl, rfl⟩ (by simp [took, hne])
      (by simp [took, isReleased, hne])
  · have hne : e ≠ .close := by
      rintro rfl
      exact hf
    rw [heq]
    exact hi.take hq (hi.fatal hf ho) rfl ⟨rfl, rfl, rfl⟩ (by simp [took, hne])
      (by simp [took, isReleased, hne])
  · rw [heq]
    refine hi.take hq (o := .stopped values.own) ?_ rfl ⟨rfl, rfl, rfl⟩ (by simp [took]) ?_
    · cases values.own <;> simp [Rule]
    · cases values.own <;> simp [took, isReleased]
  · rw [heq]
    exact hi.take hq (o := .ran) (Or.inl rfl) rfl ⟨rfl, rfl, rfl⟩ (by simp) (by simp [isReleased])

theorem Inv.act (hi : w.Inv) {a : WorkerAction} (h : w.act a = some w') : w'.Inv := by
  obtain ⟨e, hclose, hscript, hexc, -, -, -, rfl⟩ | ⟨-, rfl⟩ | ⟨-, hs, rfl⟩ | ⟨-, hc, rfl⟩ |
    ⟨-, rfl⟩ | ⟨values, e, queue, -, -, hq, rfl⟩ | ⟨-, ⟨value, -, rfl⟩ | ⟨msg, -, rfl⟩ | ⟨error, -, rfl⟩⟩ :=
    act_cases h
  · exact hi.post (Or.inr ⟨hscript, rfl⟩) (Or.inr ⟨hexc, rfl⟩) (Or.inr ⟨hclose, rfl⟩)
  · rw [close]
    split_ifs with ht
    · exact hi
    · exact hi.post (Or.inr ⟨by simp, rfl⟩) (Or.inr ⟨by simp, rfl⟩)
        (Or.inl ⟨rfl, by simpa using ht, rfl⟩)
  · exact hi.post (Or.inl ⟨rfl, hs, rfl⟩) (Or.inr ⟨by simp, rfl⟩) (Or.inr ⟨by simp, rfl⟩)
  · exact hi.post (Or.inr ⟨by simp, rfl⟩) (Or.inl ⟨rfl, hc, rfl⟩) (Or.inr ⟨by simp, rfl⟩)
  case inr.inr.inr.inr.inr.inl => exact hi.handle hq
  all_goals exact ⟨hi.inOrder, hi.judged, hi.released_iff, hi.closed_iff, hi.close_iff,
    hi.close_once, hi.script_iff, hi.script_once, hi.checked_iff, hi.checked_once⟩

end Worker

/-! ## Steps -/

/-- The action ends the process. -/
def Fatal (s : State) : Action → Prop
  | .take => s.closed = true ∧ s.released = false
  | .worker n a => (s.workers n).FatalAct a
  | _ => False

section

variable {tag : Nat → Int} {P : State → Action → Prop} {s s' : State}

theorem step_cases {a : Action} (h : step tag s a = some s') :
    s.crashed = false ∧
      ((a = .newWorker ∧ s.isReleased = false ∧
          s' = { s with count := s.count + 1, plugin := s.plugin.put (tag s.count) s.count }) ∨
        (∃ n a' w, a = .worker n a' ∧ n < s.count ∧ ¬ (a'.ofParent = true ∧ s.isReleased = true) ∧
          (s.workers n).act a' = some w ∧ s' = s.acted n a' w) ∨
        (∃ n value, a = .setOnmessage n value ∧
          s' = { s with onmessage := Function.update s.onmessage n value }) ∨
        (∃ n msg queue, a = .take ∧ s.inbox.queue = (n, msg) :: queue ∧
          s' = s.sendMessageReceiver n) ∨
        (a = .closeContext ∧ s' = s.closeContext) ∨
        (∃ values, a = .closeRuntime values ∧ s' = s.closeRuntime values)) := by
  rw [step.eq_def, Option.ite_none_left_eq_some] at h
  obtain ⟨hc, h⟩ := h
  refine ⟨by simpa using hc, ?_⟩
  cases a with
  | newWorker =>
    rw [Option.ite_none_left_eq_some] at h
    exact Or.inl ⟨rfl, by simpa using h.1, (Option.some.inj h.2).symm⟩
  | worker n a =>
    rw [Option.ite_none_right_eq_some] at h
    obtain ⟨w, hact, hs⟩ := Option.map_eq_some_iff.1 h.2
    exact Or.inr (Or.inl ⟨n, a, w, rfl, h.1.1, h.1.2, hact, hs.symm⟩)
  | setOnmessage n value =>
    rw [Option.ite_none_left_eq_some] at h
    exact Or.inr (Or.inr (Or.inl ⟨n, value, rfl, (Option.some.inj h.2).symm⟩))
  | take =>
    simp only at h
    split at h
    · cases h
    next n msg queue hq =>
      exact Or.inr (Or.inr (Or.inr (Or.inl ⟨n, msg, queue, rfl, hq, (Option.some.inj h).symm⟩)))
  | closeContext =>
    exact Or.inr (Or.inr (Or.inr (Or.inr (Or.inl ⟨rfl, (Option.some.inj h).symm⟩))))
  | closeRuntime values =>
    exact Or.inr (Or.inr (Or.inr (Or.inr (Or.inr ⟨values, rfl, (Option.some.inj h).symm⟩))))

/-- What the event does besides the inbox. -/
theorem sendMessageReceiver_eq (s : State) (n : Nat) : ∃ o,
    s.sendMessageReceiver n = { s with
      inbox := s.inbox.take o
      crashed := s.crashed || (s.closed && !s.released) } ∧
      (o = .dropped → s.released = true) := by
  unfold State.sendMessageReceiver
  cases hr : s.released with
  | true => exact ⟨.dropped, by simp, fun _ => rfl⟩
  | false =>
    cases hc : s.closed with
    | true => exact ⟨.crashed, by simp, by simp⟩
    | false =>
      cases s.onmessage n with
      | nothing => exact ⟨.ignored, by simp, by simp⟩
      | function => exact ⟨.called, by simp, by simp⟩
      | object => exact ⟨.ignored, by simp, by simp⟩

/-- What a close does: the workers of the plugin are closed if the context is. -/
theorem closeContext_eq (s : State) : s.closeContext = s ∨ s.isReleased = false ∧
    s.closeContext = { s with
      closed := true
      workers := fun n => if n ∈ s.plugin.values then (s.workers n).close else s.workers n } := by
  unfold State.closeContext
  split_ifs with hc
  · exact Or.inl rfl
  · exact Or.inr ⟨by simpa using hc, rfl⟩

theorem closeRuntime_eq (s : State) (values : Values) : s.closeRuntime values = s ∨
    s.released = false ∧ ∃ t, (t = s ∨ t = s.closeContext) ∧
      s.closeRuntime values = { t with released := !values.null } := by
  unfold State.closeRuntime
  split_ifs with hr hv
  · exact Or.inl rfl
  · exact Or.inr ⟨by simpa using hr, s.closeContext, Or.inr rfl, rfl⟩
  · exact Or.inr ⟨by simpa using hr, s, Or.inl rfl, rfl⟩

theorem closeContext_workers (n : Nat) : s.closeContext.workers n = s.workers n ∨
    (s.workers n).act .terminate = some (s.closeContext.workers n) := by
  rcases closeContext_eq s with heq | ⟨-, heq⟩
  · exact Or.inl (by rw [heq])
  · by_cases hn : n ∈ s.plugin.values
    · exact Or.inr (by simp [heq, hn, Worker.act])
    · exact Or.inl (by simp [heq, hn])

theorem closeRuntime_workers (n : Nat) (values : Values) :
    (s.closeRuntime values).workers n = s.workers n ∨
      (s.workers n).act .terminate = some ((s.closeRuntime values).workers n) := by
  rcases closeRuntime_eq s values with heq | ⟨-, t, rfl | rfl, heq⟩
  · exact Or.inl (by rw [heq])
  · exact Or.inl (by rw [heq])
  · rw [heq]
    exact closeContext_workers n

/-- A step does one thing to a worker at most; only closing the context does it unasked. -/
theorem step_worker {a : Action} (h : step tag s a = some s') (n : Nat) :
    s'.workers n = s.workers n ∨
      ∃ a', (s.workers n).act a' = some (s'.workers n) ∧ (a = .worker n a' ∨ a' = .terminate) := by
  obtain ⟨-, ⟨rfl, -, rfl⟩ | ⟨m, a', w, rfl, -, -, hact, rfl⟩ | ⟨m, value, rfl, rfl⟩ |
    ⟨m, msg, queue, rfl, -, rfl⟩ | ⟨rfl, rfl⟩ | ⟨values, rfl, rfl⟩⟩ := step_cases h
  · exact Or.inl rfl
  · by_cases hn : n = m
    · subst hn
      exact Or.inr ⟨a', by simp [State.acted, hact], Or.inl rfl⟩
    · exact Or.inl (Function.update_of_ne hn ..)
  · exact Or.inl rfl
  · obtain ⟨o, heq, -⟩ := sendMessageReceiver_eq s m
    exact Or.inl (by rw [heq])
  · exact (closeContext_workers n).imp_right fun hact => ⟨_, hact, Or.inr rfl⟩
  · exact (closeRuntime_workers n values).imp_right fun hact => ⟨_, hact, Or.inr rfl⟩

/-- What every action keeps, a run keeps. -/
theorem worker_invariant (I : Worker → Prop) (h : Reaches (step tag) P s s') (n : Nat)
    (hinit : I (s.workers n))
    (hact : ∀ s a w' a', P s a → I (s.workers n) → (s.workers n).act a' = some w' →
      (a = .worker n a' ∨ a' = .terminate) → I w') : I (s'.workers n) := by
  refine h.invariant (fun s => I (s.workers n)) hinit fun s a s' hI hP hstep => ?_
  rcases step_worker hstep n with heq | ⟨a', ha', hor⟩
  · rw [heq]
    exact hI
  · exact hact s a _ a' hP hI ha' hor

theorem worker_inv (h : Reaches (step tag) P {} s) (n : Nat) : (s.workers n).Inv :=
  worker_invariant Worker.Inv h n Worker.inv_start fun _ _ _ _ _ hi ha _ => hi.act ha

/-- **The calls on a worker**, over any interleaving: each is handled once, in the order in which
they were made, or is still waiting, or was turned away by a worker already released. What becomes of
one depends on what has become of the close, which comes once at most. -/
theorem worker_handles (h : Reaches (step tag) P {} s) (n : Nat) :
    (s.workers n).events.posted =
        (s.workers n).events.done ++ (s.workers n).events.queue ++ (s.workers n).events.refused ∧
      ((s.workers n).events.refused ≠ [] → (.close, .ran) ∈ (s.workers n).events.taken) ∧
      (s.workers n).events.posted.count .close ≤ 1 ∧
      (s.workers n).events.posted.count .script ≤ 1 ∧ (s.workers n).events.Judged Rule := by
  have hi := worker_inv h n
  refine ⟨hi.inOrder.posted_eq, fun hne => hi.released_iff.1 ?_, hi.close_once, hi.script_once,
    hi.judged⟩
  by_contra hr
  exact hne (hi.inOrder.refused_eq (by simpa using hr))

/-- The runtime's own context, and no null. -/
def whole : Values := ⟨true, false⟩

/-- A message before the script, one after it, an answer, and one behind `terminate`. -/
def conversation : List Action :=
  [.newWorker, .worker 0 (.postMessage (some "early")), .worker 0 .executeScript,
    .worker 0 (.take whole), .worker 0 (.take whole), .worker 0 (.setOnmessage .function),
    .worker 0 .returns, .worker 0 (.postMessage (some "hello")), .worker 0 .checkException,
    .worker 0 (.take whole), .worker 0 (.send (some "hi")), .worker 0 .returns,
    .worker 0 .terminate, .worker 0 (.postMessage (some "late")), .worker 0 (.take whole),
    .worker 0 (.take whole), .worker 0 (.take whole), .setOnmessage 0 .function, .take]

/-- Two closes that a null stops: one leaves a worker as it is, the other its context closed. -/
def stoppedCloses : List Action :=
  [.newWorker, .newWorker, .worker 0 .terminate, .worker 1 .terminate,
    .worker 0 (.take ⟨false, true⟩), .worker 1 (.take ⟨true, true⟩), .worker 0 .executeScript,
    .worker 0 (.take whole), .worker 0 (.setOnmessage .function), .worker 0 .returns,
    .worker 0 (.postMessage (some "on")), .worker 0 (.take whole), .worker 0 .returns,
    .worker 1 (.postMessage (some "off")), .worker 1 (.take whole)]

theorem worker_handles_conversation : ∃ s, run (step fun _ => -1) {} conversation = some s ∧
    (s.workers 0).events.taken = [(.message (some "early"), .ignored), (.script, .ran),
      (.message (some "hello"), .ran), (.getException, .ran), (.close, .ran),
      (.message (some "late"), .dropped)] ∧
    (s.workers 0).events.Judged Rule := by
  have hrun : (run (step fun _ => -1) {} conversation).map (fun s => (s.workers 0).events.taken) =
      some [(.message (some "early"), .ignored), (.script, .ran),
        (.message (some "hello"), .ran), (.getException, .ran), (.close, .ran),
        (.message (some "late"), .dropped)] := by
    decide +kernel
  obtain ⟨s, hs, htaken⟩ := Option.map_eq_some_iff.1 hrun
  exact ⟨s, hs, htaken, (worker_handles (reaches_of_run hs (meets_true _ _)) 0).2.2.2.2⟩

example : (run (step fun _ => -1) {} stoppedCloses).map
    (fun s => ((s.workers 0).events.taken, (s.workers 1).events.taken, s.crashed)) =
      some ([(.close, .stopped false), (.script, .ran), (.message (some "on"), .ran)],
        [(.close, .stopped true), (.message (some "off"), .crashed)], true) := by decide +kernel

/-! ## What a worker hears -/

/-- As far as the worker's code goes, its script sets `onmessage` to a function, and nothing else
sets it. -/
def SetsInScript (w : Worker) : WorkerAction → Prop
  | .setOnmessage value => w.running = some .script ∧ value = .function
  | .returns | .throws _ => w.running = some .script → w.onmessage = .function
  | _ => True

def Scripted (s : State) : Action → Prop
  | .worker n a => SetsInScript (s.workers n) a
  | _ => True

/-- A message is heard after the script and before a close that closes the context. -/
def Heard (before : List (Event × Outcome)) : Event → Outcome → Prop
  | .message _, o => o = .ran ↔ .script ∈ before.map Prod.fst ∧ ¬ Closed before
  | _, _ => True

instance (w : Worker) : (a : WorkerAction) → Decidable (SetsInScript w a)
  | .setOnmessage value => inferInstanceAs (Decidable (w.running = some .script ∧ value = .function))
  | .returns => inferInstanceAs (Decidable (w.running = some .script → w.onmessage = .function))
  | .throws _ => inferInstanceAs (Decidable (w.running = some .script → w.onmessage = .function))
  | .postMessage _ | .terminate | .executeScript | .checkException | .timer | .uncaught | .take _
  | .send _ => .isTrue trivial

instance (s : State) : (a : Action) → Decidable (Scripted s a)
  | .worker n a => inferInstanceAs (Decidable (SetsInScript (s.workers n) a))
  | .newWorker | .setOnmessage _ _ | .take | .closeContext | .closeRuntime _ => .isTrue trivial

structure Worker.Ready (w : Worker) : Prop where
  inv : w.Inv
  heard : w.events.Judged Heard
  running : w.running = some .script → .script ∈ w.events.done
  onmessage_iff : w.running ≠ some .script →
    (w.onmessage = .function ↔ .script ∈ w.events.done)

namespace Worker

variable {w w' : Worker} {e : Event} {queue : List Event} {values : Values}

theorem Ready.take (hr : w.Ready) (hq : w.events.queue = e :: queue) (hidle : w.running = none)
    {o : Outcome} (hinv : w'.Inv) (ho : Heard w.events.taken e o)
    (hw : w'.events = w.events.take o) (hrun : w'.running = some .script ↔ e = .script)
    (hon : w'.onmessage = w.onmessage) : w'.Ready := by
  have hdone : w'.events.done = w.events.done ++ [e] := by rw [hw, Mailbox.done_take hq]
  refine ⟨hinv, ?_, fun h => ?_, fun h => ?_⟩
  · rw [hw]
    exact hr.heard.take hq ho
  · rw [hdone, hrun.1 h]
    exact List.mem_append_right _ (List.mem_singleton_self _)
  · have hne : e ≠ .script := fun he => h (hrun.2 he)
    rw [hon, hr.onmessage_iff (by simp [hidle]), hdone]
    simp [Ne.symm hne]

theorem Ready.heard_of_judges (hr : w.Ready) (hidle : w.running = none) {o : Outcome}
    {running : Option Event} (h : Judges w e o running) : Heard w.events.taken e o := by
  have hon := hr.onmessage_iff (by simp [hidle])
  rw [Mailbox.done] at hon
  cases h with
  | dropped hrel => simp [Heard, Closed, hr.inv.released_iff.1 hrel]
  | nothing hopen ho | object hopen ho =>
    have hnot : .script ∉ w.events.taken.map Prod.fst := fun h => by simp [hon.2 h] at ho
    exact ⟨fun h => Outcome.noConfusion h, fun h => absurd h.1 hnot⟩
  | function hopen ho =>
    refine iff_of_true rfl ⟨hon.1 ho, ?_⟩
    simp [← hr.inv.closed_iff, hopen]
  | _ => trivial

theorem Judges.running_iff {o : Outcome} {running : Option Event} (h : Judges w e o running) :
    running = some .script ↔ e = .script := by
  cases h <;> simp

theorem Ready.handle (hr : w.Ready) (hq : w.events.queue = e :: queue) (hidle : w.running = none) :
    (w.handle values e).Ready := by
  have hinv : (w.handle values e).Inv := hr.inv.handle hq
  rcases w.handle_cases values e with ⟨o, running, hj, -, heq⟩ | ⟨o, hf, ho, heq⟩ |
    ⟨rfl, -, -, heq⟩ | ⟨rfl, -, -, heq⟩ <;> rw [heq] at hinv ⊢
  · exact hr.take hq hidle hinv (hr.heard_of_judges hidle hj) rfl hj.running_iff rfl
  · rcases ho with ⟨rfl, rfl⟩ | ⟨rfl, msg, rfl⟩
    · exact hr.take hq hidle hinv trivial rfl (by simp [took]) rfl
    · have hclosed : Closed w.events.taken := hr.inv.closed_iff.1 (by simp [isReleased, hf.1])
      exact hr.take hq hidle hinv (by simp [Heard, hclosed]) rfl (by simp [took]) rfl
  · exact hr.take hq hidle hinv (o := .stopped values.own) trivial rfl (by simp [took]) rfl
  · exact hr.take hq hidle hinv (o := .ran) trivial rfl (by simp [took]) rfl

theorem Ready.post (hr : w.Ready) (hinv : w'.Inv)
    (hw : w'.events = w.events.post w.released e) (hrun : w'.running = w.running)
    (hon : w'.onmessage = w.onmessage) : w'.Ready where
  inv := hinv
  heard := by
    rw [hw]
    exact hr.heard.post e
  running := by
    rw [hw, hrun, Mailbox.done_post]
    exact hr.running
  onmessage_iff := by
    rw [hw, hrun, hon, Mailbox.done_post]
    exact hr.onmessage_iff

theorem Ready.act (hr : w.Ready) {a : WorkerAction} (ha : SetsInScript w a)
    (h : w.act a = some w') : w'.Ready := by
  have hinv := hr.inv.act h
  obtain ⟨e, -, -, -, -, -, -, rfl⟩ | ⟨-, rfl⟩ | ⟨-, -, rfl⟩ | ⟨-, -, rfl⟩ | ⟨-, rfl⟩ |
    ⟨values, e, queue, -, hidle, hq, rfl⟩ | ⟨-, ⟨value, rfl, rfl⟩ | ⟨msg, -, rfl⟩ |
    ⟨error, hor, rfl⟩⟩ := act_cases h
  · exact hr.post hinv rfl rfl rfl
  · rw [close] at hinv ⊢
    split_ifs at hinv ⊢
    · exact hr
    · exact hr.post hinv rfl rfl rfl
  · exact hr.post hinv rfl rfl rfl
  · exact hr.post hinv rfl rfl rfl
  · exact ⟨hinv, hr.heard, hr.running, hr.onmessage_iff⟩
  · exact hr.handle hq hidle
  · obtain ⟨hrun, rfl⟩ := ha
    exact ⟨hinv, hr.heard, hr.running, fun hne => absurd hrun hne⟩
  · exact ⟨hinv, hr.heard, hr.running, hr.onmessage_iff⟩
  · have ha' : w.running = some .script → w.onmessage = .function := by
      rcases hor with rfl | rfl <;> exact ha
    refine ⟨hinv, hr.heard, by simp [finished], fun _ => ?_⟩
    by_cases hrun : w.running = some .script
    · exact iff_of_true (ha' hrun) (hr.running hrun)
    · exact hr.onmessage_iff hrun

end Worker

/-- **What a worker hears**, over any interleaving, if its script sets `onmessage` to a function and
nothing else sets it: just the messages that come after the script, which the thread of the
constructor posts, and before a close that closes the context or releases the runtime. -/
theorem message_heard_iff (h : Reaches (step tag) Scripted {} s) (n : Nat) {msg : Message}
    {o : Outcome} {before after : List (Event × Outcome)}
    (hsplit : (s.workers n).events.taken = before ++ (.message msg, o) :: after) :
    o = .ran ↔ .script ∈ before.map Prod.fst ∧ ¬ Closed before := by
  have hready : (s.workers n).Ready := by
    refine worker_invariant Worker.Ready h n ⟨Worker.inv_start, .empty, by simp, by simp⟩ ?_
    intro s a w' a' hP hr hact hor
    refine hr.act ?_ hact
    rcases hor with rfl | rfl
    · exact hP
    · trivial
  exact hready.heard before (.message msg) o after hsplit

theorem message_heard_iff_stoppedCloses : ∃ s, run (step fun _ => -1) {} stoppedCloses = some s ∧
    (s.workers 0).events.taken =
      [(.close, .stopped false), (.script, .ran), (.message (some "on"), .ran)] ∧
    (Outcome.ran = .ran ↔ Event.script ∈ [Event.close, .script] ∧
      ¬ Closed [(.close, .stopped false), (.script, .ran)]) := by
  have hmeets : Meets (step fun _ => -1) Scripted {} stoppedCloses := by decide +kernel
  have hrun : (run (step fun _ => -1) {} stoppedCloses).map (fun s => (s.workers 0).events.taken) =
      some ([(.close, .stopped false), (.script, .ran)] ++ (.message (some "on"), .ran) :: []) := by
    decide +kernel
  obtain ⟨s, hs, htaken⟩ := Option.map_eq_some_iff.1 hrun
  exact ⟨s, hs, htaken, message_heard_iff (reaches_of_run hs hmeets) 0 htaken⟩

/-! ## What workers send -/

/-- The messages of the worker `n`. -/
def of (n : Nat) (l : List (Nat × Message)) : List Message :=
  (l.filter fun x => x.1 = n).map Prod.snd

@[simp] theorem of_append (n : Nat) (l l' : List (Nat × Message)) : of n (l ++ l') = of n l ++ of n l' := by
  simp [of]

structure State.Inv (s : State) : Prop where
  inOrder : s.inbox.InOrder s.released
  sent_eq : ∀ n, of n s.inbox.posted = (s.workers n).sent
  dropped : ∀ x, (x, .dropped) ∈ s.inbox.taken → s.released = true

theorem handle_sent (w : Worker) (values : Values) (e : Event) : (w.handle values e).sent = w.sent := by
  rcases w.handle_cases values e with ⟨o, running, -, -, heq⟩ | ⟨o, -, -, heq⟩ | ⟨-, -, -, heq⟩ |
    ⟨-, -, -, heq⟩ <;> rw [heq] <;> rfl

theorem act_sent {w w' : Worker} {a : WorkerAction} (h : w.act a = some w') :
    w'.sent = w.sent ++ a.sends := by
  obtain ⟨e, -, -, -, ha, -, -, rfl⟩ | ⟨rfl, rfl⟩ | ⟨rfl, -, rfl⟩ | ⟨rfl, -, rfl⟩ | ⟨rfl, rfl⟩ |
    ⟨values, e, queue, rfl, -, -, rfl⟩ | ⟨-, ⟨value, rfl, rfl⟩ | ⟨msg, rfl, rfl⟩ |
    ⟨error, rfl | rfl, rfl⟩⟩ := Worker.act_cases h
  · simp [ha, Worker.post]
  · rw [Worker.close]
    split_ifs <;> simp [WorkerAction.sends, Worker.post]
  · simp [WorkerAction.sends, Worker.post]
  · simp [WorkerAction.sends, Worker.post]
  · simp [WorkerAction.sends]
  · simp [handle_sent, WorkerAction.sends]
  all_goals simp [WorkerAction.sends, Worker.finished]

theorem State.Inv.acted (hi : s.Inv) {n : Nat} {a : WorkerAction} {w : Worker}
    (hact : (s.workers n).act a = some w) : (s.acted n a w).Inv := by
  have hsent := act_sent hact
  have hof : ∀ m msg, of m [(n, msg)] = if m = n then [msg] else [] := fun m msg => by
    by_cases hm : m = n
    · simp [of, hm]
    · simp [of, hm, Ne.symm hm]
  refine ⟨?_, fun m => ?_, fun x hx => hi.dropped x ?_⟩
  · cases a <;> first | exact hi.inOrder | exact hi.inOrder.post _
  · have hm : ((s.acted n a w).workers m).sent =
        (s.workers m).sent ++ if m = n then a.sends else [] := by
      by_cases hmn : m = n
      · subst hmn
        simp [State.acted, hsent]
      · simp [State.acted, hmn]
    rw [hm]
    cases a <;> simp [State.acted, hi.sent_eq, hof, WorkerAction.sends]
  · cases a <;> simpa [State.acted] using hx

theorem State.Inv.sendMessageReceiver (hi : s.Inv) {n : Nat} {msg : Message}
    {queue : List (Nat × Message)} (hq : s.inbox.queue = (n, msg) :: queue) :
    (s.sendMessageReceiver n).Inv := by
  obtain ⟨o, heq, ho⟩ := sendMessageReceiver_eq s n
  rw [heq]
  refine ⟨hi.inOrder.take o, fun m => ?_, fun x hx => ?_⟩
  · show of m (s.inbox.take o).posted = _
    rw [Mailbox.posted_take, hi.sent_eq]
  · rw [Mailbox.taken_take hq] at hx
    rcases List.mem_append.1 hx with hx | hx
    · exact hi.dropped x hx
    · exact ho (by simpa using (Prod.mk.inj (List.mem_singleton.1 hx)).2.symm)

theorem State.Inv.closeContext (hi : s.Inv) : s.closeContext.Inv := by
  have hsent : ∀ n, (s.closeContext.workers n).sent = (s.workers n).sent := fun n => by
    rcases closeContext_workers n with heq | hact
    · rw [heq]
    · rw [act_sent hact]
      exact List.append_nil _
  rcases closeContext_eq s with heq | ⟨-, heq⟩
  · rwa [heq]
  · rw [heq] at hsent ⊢
    exact ⟨hi.inOrder, fun n => (hi.sent_eq n).trans (hsent n).symm, hi.dropped⟩

theorem State.Inv.closeRuntime (hi : s.Inv) (values : Values) : (s.closeRuntime values).Inv := by
  rcases closeRuntime_eq s values with heq | ⟨hr, t, ht, heq⟩
  · rwa [heq]
  · have hi' : t.Inv := by
      rcases ht with rfl | rfl
      · exact hi
      · exact hi.closeContext
    have hr' : t.released = false := by
      rcases ht with rfl | rfl
      · exact hr
      · rcases closeContext_eq s with heq | ⟨-, heq⟩ <;> rw [heq] <;> exact hr
    rw [heq]
    exact ⟨hi'.inOrder.mono (by simp [hr']), hi'.sent_eq, fun x hx => by simp [hi'.dropped x hx] at hr'⟩

theorem State.Inv.step {a : Action} (hi : s.Inv) (h : step tag s a = some s') : s'.Inv := by
  obtain ⟨-, ⟨-, -, rfl⟩ | ⟨n, a', w, -, -, -, hact, rfl⟩ | ⟨n, value, -, rfl⟩ |
    ⟨n, msg, queue, -, hq, rfl⟩ | ⟨-, rfl⟩ | ⟨values, -, rfl⟩⟩ := step_cases h
  · exact ⟨hi.inOrder, hi.sent_eq, hi.dropped⟩
  · exact hi.acted hact
  · exact ⟨hi.inOrder, hi.sent_eq, hi.dropped⟩
  · exact hi.sendMessageReceiver hq
  · exact hi.closeContext
  · exact hi.closeRuntime values

/-! ### What ends the process -/

theorem handle_crashed {w : Worker} (hc : w.crashed = false) (values : Values) (e : Event) :
    (w.handle values e).crashed = true ↔ w.Fatal e := by
  rcases w.handle_cases values e with ⟨o, running, -, hnot, heq⟩ | ⟨o, hf, -, heq⟩ |
    ⟨rfl, -, -, heq⟩ | ⟨rfl, -, -, heq⟩ <;> rw [heq]
  · exact iff_of_false (by simp [Worker.took, hc]) hnot
  · exact iff_of_true rfl hf
  · exact iff_of_false (by simp [Worker.took, hc]) id
  · exact iff_of_false (by simp [Worker.took, hc]) id

theorem act_crashed {w w' : Worker} {a : WorkerAction} (hc : w.crashed = false)
    (h : w.act a = some w') : w'.crashed = true ↔ w.FatalAct a := by
  have hstay : ¬ w.FatalAct a → w'.crashed = w.crashed → (w'.crashed = true ↔ w.FatalAct a) :=
    fun hnot heq => iff_of_false (by simp [heq, hc]) hnot
  obtain ⟨e, -, -, -, -, -, hne, rfl⟩ | ⟨rfl, rfl⟩ | ⟨rfl, -, rfl⟩ | ⟨rfl, -, rfl⟩ | ⟨rfl, rfl⟩ |
    ⟨values, e, queue, rfl, -, hq, rfl⟩ | ⟨-, ⟨value, rfl, rfl⟩ | ⟨msg, rfl, rfl⟩ |
    ⟨error, rfl | rfl, rfl⟩⟩ := Worker.act_cases h
  · exact hstay hne rfl
  · refine hstay id ?_
    rw [Worker.close]
    split_ifs <;> rfl
  · exact hstay id rfl
  · exact hstay id rfl
  · exact iff_of_true rfl trivial
  · rw [handle_crashed hc]
    constructor
    · exact fun hf => ⟨e, queue, hq, hf⟩
    · rintro ⟨e', queue', hq', hf⟩
      obtain ⟨rfl, -⟩ := List.cons.inj (hq.symm.trans hq')
      exact hf
  all_goals exact hstay id rfl

theorem closeContext_crashed : s.closeContext.crashed = s.crashed ∧
    ((∀ n, (s.workers n).crashed = false) → ∀ n, (s.closeContext.workers n).crashed = false) := by
  constructor
  · rcases closeContext_eq s with heq | ⟨-, heq⟩ <;> rw [heq]
  · intro hw n
    rcases closeContext_workers n with heq | hact
    · rw [heq]
      exact hw n
    · exact Bool.eq_false_iff.2 fun hcrashed => (act_crashed (hw n) hact).1 hcrashed

/-- Just the steps that are to end the process do. -/
theorem step_crashed {a : Action} (hw : ∀ n, (s.workers n).crashed = false)
    (h : step tag s a = some s') :
    (s'.crashed = true ↔ Fatal s a) ∧
      (s'.crashed = false → ∀ n, (s'.workers n).crashed = false) := by
  obtain ⟨hs, ⟨rfl, -, rfl⟩ | ⟨n, a', w, rfl, -, -, hact, rfl⟩ | ⟨n, value, rfl, rfl⟩ |
    ⟨n, msg, queue, rfl, -, rfl⟩ | ⟨rfl, rfl⟩ | ⟨values, rfl, rfl⟩⟩ := step_cases h
  · exact ⟨iff_of_false (by simp [hs]) id, fun _ => hw⟩
  · have hiff := act_crashed (hw n) hact
    have heq : (s.acted n a' w).crashed = w.crashed := by simp [State.acted, hs]
    refine ⟨?_, fun hc m => ?_⟩
    · rw [heq, hiff]
      exact Iff.rfl
    · rw [heq] at hc
      by_cases hm : m = n
      · subst hm
        simpa [State.acted] using hc
      · simpa [State.acted, hm] using hw m
  · exact ⟨iff_of_false (by simp [hs]) id, fun _ => hw⟩
  · obtain ⟨o, heq, -⟩ := sendMessageReceiver_eq s n
    rw [heq]
    refine ⟨?_, fun _ => hw⟩
    simp [Fatal, hs]
  · exact ⟨iff_of_false (by simp [closeContext_crashed.1, hs]) id, fun _ => closeContext_crashed.2 hw⟩
  · rcases closeRuntime_eq s values with heq | ⟨-, t, rfl | rfl, heq⟩ <;> rw [heq]
    · exact ⟨iff_of_false (by simp [hs]) id, fun _ => hw⟩
    · exact ⟨iff_of_false (by simp [hs]) id, fun _ => hw⟩
    · exact ⟨iff_of_false (by simp [closeContext_crashed.1, hs]) id,
        fun _ => closeContext_crashed.2 hw⟩

/-- Up to the last step no worker has crashed. -/
theorem workers_crashed (h : Reaches (step tag) P {} s) (hs : s.crashed = false) (n : Nat) :
    (s.workers n).crashed = false := by
  refine h.invariant (fun s => s.crashed = false → ∀ n, (s.workers n).crashed = false)
    (fun _ _ => rfl) ?_ hs n
  intro s a s' hi _ hstep hs'
  have hw := hi (step_cases hstep).1
  exact (step_crashed hw hstep).2 hs'

/-- The parent's context is closed and its runtime, for a null, is not; then a message comes. -/
def lateMessage : List Action :=
  [.newWorker, .worker 0 .executeScript, .worker 0 (.take whole), .worker 0 (.send (some "first")),
    .setOnmessage 0 .function, .take, .closeRuntime ⟨true, true⟩, .worker 0 (.send (some "last")),
    .take]

/-- The script has been run on a context that had been freed: anything goes. -/
def Worker.Astray (w : Worker) : Prop := (.script, .afterRelease) ∈ w.events.taken

namespace Worker

variable {w w' : Worker} {a : WorkerAction}

theorem Astray.handle (hs : w.Astray) {e : Event} {queue : List Event}
    (hq : w.events.queue = e :: queue) (values : Values) : (w.handle values e).Astray := by
  rcases w.handle_cases values e with ⟨o, running, -, -, heq⟩ | ⟨o, -, -, heq⟩ | ⟨-, -, -, heq⟩ |
    ⟨-, -, -, heq⟩ <;> rw [Astray, heq, took, Mailbox.taken_take hq] <;>
    exact List.mem_append_left _ hs

/-- A released worker runs nothing and has sent all it will, unless it has gone astray. -/
def Silent (sent : List Message) (w : Worker) : Prop :=
  w.Astray ∨ w.released = true ∧ w.running = none ∧ w.sent = sent

theorem Silent.post {sent : List Message} (hs : w.Silent sent) (e : Event) :
    (w.post e).Silent sent := by
  refine hs.imp_left fun hs => ?_
  rw [Astray, Worker.post, Mailbox.taken_post]
  exact hs

theorem Judges.running_eq (hr : w.released = true) {e : Event} {o : Outcome} {running : Option Event}
    (h : Judges w e o running) : running = none ∨ e = .script ∧ o = .afterRelease := by
  have hrel : w.isReleased = true := by simp [isReleased, hr]
  cases h with
  | script => exact Or.inr ⟨rfl, if_pos hrel⟩
  | function hopen => simp [hrel] at hopen
  | timer hopen => simp [hrel] at hopen
  | _ => exact Or.inl rfl

theorem Fatal.not_released {e : Event} (h : w.Fatal e) : w.released = false := by
  cases e with
  | message => exact h.2
  | getException =>
    have hopen : (w.released || w.closed) = false := h.2
    exact (Bool.or_eq_false_iff.1 hopen).1
  | _ => exact h.elim

theorem Silent.handle {sent : List Message} (hs : w.Silent sent) {e : Event} {queue : List Event}
    (hq : w.events.queue = e :: queue) (values : Values) : (w.handle values e).Silent sent := by
  rcases hs with hs | ⟨hr, hrun, hsent⟩
  · exact Or.inl (hs.handle hq values)
  · rcases w.handle_cases values e with ⟨o, running, hj, -, heq⟩ | ⟨o, hf, -, -⟩ | ⟨-, hr', -⟩ |
      ⟨-, hr', -⟩
    · rw [heq]
      rcases hj.running_eq hr with rfl | ⟨rfl, rfl⟩
      · exact Or.inr ⟨hr, rfl, hsent⟩
      · refine Or.inl ?_
        rw [Astray, took, Mailbox.taken_take hq]
        exact List.mem_append_right _ (List.mem_singleton_self _)
    · simp [hf.not_released] at hr
    · simp [hr'] at hr
    · simp [hr'] at hr

theorem Silent.act {sent : List Message} (hs : w.Silent sent) (h : w.act a = some w') :
    w'.Silent sent := by
  obtain ⟨e, -, -, -, -, -, -, rfl⟩ | ⟨-, rfl⟩ | ⟨-, -, rfl⟩ | ⟨-, -, rfl⟩ | ⟨-, rfl⟩ |
    ⟨values, e, queue, -, -, hq, rfl⟩ | ⟨hrun, hw⟩ := act_cases h
  · exact hs.post e
  · rw [Worker.close]
    split_ifs
    · exact hs
    · exact Silent.post (w := { w with terminate := true }) hs .close
  · exact Silent.post (w := { w with started := true }) hs .script
  · exact Silent.post (w := { w with checked := true }) hs .getException
  · exact hs
  · exact hs.handle hq values
  · rcases hs with hs | ⟨-, hnone, -⟩
    · refine Or.inl ?_
      obtain ⟨value, -, rfl⟩ | ⟨msg, -, rfl⟩ | ⟨error, -, rfl⟩ := hw <;> exact hs
    · exact absurd hnone hrun

/-- A worker is released by its own close, with nothing running. -/
theorem silent_of_released (hi : w.released = true → w.Silent w.sent) (h : w.act a = some w')
    (hr' : w'.released = true) : w'.Silent w'.sent := by
  cases hr : w.released with
  | true =>
    rcases (hi hr).act h with hs | ⟨hr', hrun, -⟩
    · exact Or.inl hs
    · exact Or.inr ⟨hr', hrun, rfl⟩
  | false =>
    obtain ⟨e, -, -, -, -, -, -, rfl⟩ | ⟨-, rfl⟩ | ⟨-, -, rfl⟩ | ⟨-, -, rfl⟩ | ⟨-, rfl⟩ |
      ⟨values, e, queue, -, -, -, rfl⟩ | ⟨-, ⟨value, -, rfl⟩ | ⟨msg, -, rfl⟩ | ⟨error, -, rfl⟩⟩ :=
      act_cases h
    · simp [Worker.post, hr] at hr'
    · rw [Worker.close] at hr'
      split_ifs at hr' <;> simp [Worker.post, hr] at hr'
    · simp [Worker.post, hr] at hr'
    · simp [Worker.post, hr] at hr'
    · simp [hr] at hr'
    · rcases w.handle_cases values e with ⟨o, running, -, -, heq⟩ | ⟨o, -, -, heq⟩ |
        ⟨-, -, -, heq⟩ | ⟨-, -, -, heq⟩ <;> rw [heq] at hr' ⊢
      · simp [took, hr] at hr'
      · simp [took, hr] at hr'
      · simp [took, hr] at hr'
      · exact Or.inr ⟨rfl, rfl, rfl⟩
    all_goals simp [finished, hr] at hr'

end Worker

/-- **A released worker is silent**: whatever happens after the release, none of its code runs and it
sends nothing, unless its script is still to come, having been posted behind the close. -/
theorem silent_after_release (h : Reaches (step tag) P {} s) {n : Nat}
    (hr : (s.workers n).released = true) (h' : Reaches (step tag) P s s')
    (hs : ¬ (s'.workers n).Astray) :
    (s'.workers n).sent = (s.workers n).sent ∧ (s'.workers n).running = none := by
  have hsilent : (s.workers n).Silent (s.workers n).sent := by
    refine worker_invariant (fun w => w.released = true → w.Silent w.sent) h n (by simp) ?_ hr
    exact fun _ _ _ _ _ hi hact _ hr' => Worker.silent_of_released hi hact hr'
  have hsilent' := worker_invariant (Worker.Silent (s.workers n).sent) h' n hsilent
    fun _ _ _ _ _ hi hact _ => hi.act hact
  rcases hsilent' with hs' | ⟨-, hrun, hsent⟩
  · exact absurd hs' hs
  · exact ⟨hsent, hrun⟩

theorem silent_after_release_conversation :
    ∃ s s', run (step fun _ => -1) {} (conversation.take 16) = some s ∧
      run (step fun _ => -1) s (conversation.drop 16) = some s' ∧
      (s.workers 0).released = true ∧ (s'.workers 0).sent = (s.workers 0).sent := by
  have hrun : ((run (step fun _ => -1) {} (conversation.take 16)).bind fun s =>
      (run (step fun _ => -1) s (conversation.drop 16)).map fun s' =>
        ((s.workers 0).released, (s'.workers 0).events.taken.contains (.script, .afterRelease))) =
      some (true, false) := by decide +kernel
  obtain ⟨s, hs, hrest⟩ := Option.bind_eq_some_iff.1 hrun
  obtain ⟨s', hs', heq⟩ := Option.map_eq_some_iff.1 hrest
  simp only [Prod.mk.injEq] at heq
  have hsilent := silent_after_release (reaches_of_run hs (meets_true _ _)) heq.1
    (reaches_of_run hs' (meets_true _ _)) (by simpa [Worker.Astray] using heq.2)
  exact ⟨s, s', hs, hs', heq.1, hsilent.1⟩

/-! ## Closing the context -/

/-- Of the workers so far, `n` is the last with its tag. -/
def LastOfTag (tag : Nat → Int) (count n : Nat) : Prop :=
  n < count ∧ ∀ m, n < m → m < count → tag m ≠ tag n

/-- The plugin has the last worker of every tag, and has closed those once the context is closed. -/
structure State.Kept (tag : Nat → Int) (s : State) : Prop where
  get_iff : ∀ k n, s.plugin.get k = some n ↔ LastOfTag tag s.count n ∧ tag n = k
  terminate : s.closed = false → ∀ n, (s.workers n).terminate = false
  closed : s.closed = true → ∀ n, (s.workers n).terminate = true ↔ LastOfTag tag s.count n

theorem act_terminate {w w' : Worker} {a : WorkerAction} (ha : a ≠ .terminate)
    (h : w.act a = some w') : w'.terminate = w.terminate := by
  obtain ⟨e, -, -, -, -, -, -, rfl⟩ | ⟨rfl, -⟩ | ⟨-, -, rfl⟩ | ⟨-, -, rfl⟩ | ⟨-, rfl⟩ |
    ⟨values, e, queue, -, -, -, rfl⟩ | ⟨-, ⟨value, -, rfl⟩ | ⟨msg, -, rfl⟩ | ⟨error, -, rfl⟩⟩ :=
    Worker.act_cases h
  · rfl
  · exact absurd rfl ha
  · rfl
  · rfl
  · rfl
  · rcases w.handle_cases values e with ⟨o, running, -, -, heq⟩ | ⟨o, -, -, heq⟩ | ⟨-, -, -, heq⟩ |
      ⟨-, -, -, heq⟩ <;> rw [heq] <;> rfl
  all_goals rfl

theorem State.Kept.newWorker (hk : s.Kept tag) (hc : s.closed = false) :
    ({ s with count := s.count + 1, plugin := s.plugin.put (tag s.count) s.count } : State).Kept tag where
  get_iff k n := by
    simp only [LinkedMap.get_put]
    split_ifs with hkey
    · subst hkey
      constructor
      · intro h
        obtain rfl := Option.some.inj h
        exact ⟨⟨Nat.lt_succ_self _, fun m hm hm' => absurd hm (by omega)⟩, rfl⟩
      · rintro ⟨⟨hn, hlast⟩, htag⟩
        by_contra hne
        have hlt : n < s.count := by
          have : n ≠ s.count := fun h => hne (h ▸ rfl)
          omega
        exact hlast s.count hlt (Nat.lt_succ_self _) htag.symm
    · rw [hk.get_iff]
      constructor
      · rintro ⟨⟨hn, hlast⟩, rfl⟩
        refine ⟨⟨Nat.lt_succ_of_lt hn, fun m hm hm' => ?_⟩, rfl⟩
        by_cases hms : m = s.count
        · subst hms
          exact fun h => hkey h.symm
        · exact hlast m hm (by omega)
      · rintro ⟨⟨hn, hlast⟩, rfl⟩
        have hne : n ≠ s.count := fun h => hkey (h ▸ rfl)
        exact ⟨⟨by omega, fun m hm hm' => hlast m hm (by omega)⟩, rfl⟩
  terminate := hk.terminate
  closed h := by simp [hc] at h

theorem State.Kept.acted (hk : s.Kept tag) {n : Nat} {a : WorkerAction} {w : Worker}
    (ha : a ≠ .terminate) (hact : (s.workers n).act a = some w) : (s.acted n a w).Kept tag := by
  have hterm : ∀ m, ((s.acted n a w).workers m).terminate = (s.workers m).terminate := fun m => by
    by_cases hmn : m = n
    · subst hmn
      simpa [State.acted] using act_terminate ha hact
    · simp [State.acted, hmn]
  exact ⟨hk.get_iff, fun hc m => (hterm m).trans (hk.terminate hc m),
    fun hc m => by rw [hterm]; exact hk.closed hc m⟩

theorem State.Kept.closeContext (hk : s.Kept tag) : s.closeContext.Kept tag := by
  rcases closeContext_eq s with heq | ⟨hr, heq⟩
  · rwa [heq]
  · have hc : s.closed = false := (Bool.or_eq_false_iff.1 hr).2
    have hmem : ∀ n, n ∈ s.plugin.values ↔ LastOfTag tag s.count n := fun n => by
      rw [LinkedMap.mem_values_iff]
      simp only [hk.get_iff]
      exact ⟨fun h => h.choose_spec.1, fun h => ⟨tag n, h, rfl⟩⟩
    rw [heq]
    refine ⟨hk.get_iff, fun h => Bool.noConfusion h, fun _ n => ?_⟩
    show (if n ∈ s.plugin.values then (s.workers n).close else s.workers n).terminate = true ↔ _
    rw [← hmem]
    split_ifs with hn
    · simp [Worker.close, hk.terminate hc n, Worker.post, hn]
    · simp [hk.terminate hc n, hn]

theorem State.Kept.closeRuntime (hk : s.Kept tag) (values : Values) :
    (s.closeRuntime values).Kept tag := by
  rcases closeRuntime_eq s values with heq | ⟨-, t, rfl | rfl, heq⟩ <;> rw [heq]
  · exact hk
  · exact ⟨hk.get_iff, hk.terminate, hk.closed⟩
  · have hk' := hk.closeContext
    exact ⟨hk'.get_iff, hk'.terminate, hk'.closed⟩

theorem State.Kept.step {a : Action} (hk : s.Kept tag) (ha : ∀ n, a ≠ .worker n .terminate)
    (h : step tag s a = some s') : s'.Kept tag := by
  obtain ⟨-, ⟨-, hc, rfl⟩ | ⟨n, a', w, rfl, -, -, hact, rfl⟩ | ⟨n, value, -, rfl⟩ |
    ⟨n, msg, queue, -, -, rfl⟩ | ⟨-, rfl⟩ | ⟨values, -, rfl⟩⟩ := step_cases h
  · exact hk.newWorker (Bool.or_eq_false_iff.1 hc).2
  · exact hk.acted (fun h => ha n (by rw [h])) hact
  · exact ⟨hk.get_iff, hk.terminate, hk.closed⟩
  · obtain ⟨o, heq, -⟩ := sendMessageReceiver_eq s n
    rw [heq]
    exact ⟨hk.get_iff, hk.terminate, hk.closed⟩
  · exact hk.closeContext
  · exact hk.closeRuntime values

/-- **Closing the context** closes just those workers whose tag no later worker has; unless the
scripts terminate them themselves, the others are never released. -/
theorem closeContext_closes (h : Reaches (step tag) (fun _ a => ∀ n, a ≠ .worker n .terminate) {} s)
    (hc : s.closed = true) {n : Nat} (hn : n < s.count) :
    ((s.workers n).terminate = true ↔ ∀ m, n < m → m < s.count → tag m ≠ tag n) ∧
      ((s.workers n).released = true → ∀ m, n < m → m < s.count → tag m ≠ tag n) := by
  have hk : s.Kept tag := by
    refine h.invariant (State.Kept tag) ⟨fun k n => ?_, by simp, by simp⟩
      fun _ _ _ hk ha hstep => hk.step ha hstep
    simp [LastOfTag]
  have hi := worker_inv h n
  have hiff : (s.workers n).terminate = true ↔ ∀ m, n < m → m < s.count → tag m ≠ tag n := by
    rw [hk.closed hc n, LastOfTag]
    exact and_iff_right hn
  exact ⟨hiff, fun hr =>
    hiff.1 (hi.close_iff.1 (hi.inOrder.mem_posted
      (List.mem_map.2 ⟨_, hi.released_iff.1 hr, rfl⟩)))⟩

/-- On 64 bits all objects have the same tag: of two workers the first is left running. -/
theorem closeContext_closes_two :
    ∃ s, run (step fun _ => -1) {} [.newWorker, .newWorker, .closeContext] = some s ∧
      (s.workers 0).terminate = false ∧ (s.workers 1).terminate = true := by
  have hrun : (run (step fun _ => -1) {} [.newWorker, .newWorker, .closeContext]).map
      (fun s => (s.count, s.closed)) = some (2, true) := by decide +kernel
  obtain ⟨s, hs, heq⟩ := Option.map_eq_some_iff.1 hrun
  obtain ⟨hcount, hclosed⟩ := Prod.mk.inj heq
  have hreach : Reaches (step fun _ => -1) (fun _ a => ∀ n, a ≠ .worker n .terminate) {} s :=
    reaches_of_run hs (meets_of_forall (by simp) _)
  have h0 := (closeContext_closes hreach hclosed (n := 0) (by omega)).1
  have h1 := (closeContext_closes hreach hclosed (n := 1) (by omega)).1
  refine ⟨s, hs, ?_, h1.2 fun m hm hm' => by omega⟩
  by_contra h
  exact h0.1 (by simpa using h) 1 Nat.zero_lt_one (by omega) rfl

end

end HybridStack.QuickJs.WorkerPlugin
