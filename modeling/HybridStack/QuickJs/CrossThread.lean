import HybridStack.Lib.Transition
import Mathlib.Data.List.Basic

/-!
# Calls from another thread

`EventQueue.post` and the blocking `postVoid` hand an event to the handler thread and wait for it
(EventQueue.java:50-74, 95-125). One call of another thread is followed step by step, with the
monitor of `result`, its two slots and the slot of `errors`; the waiting thread may wake up without
reason or be interrupted at any time, and the runtime may be released meanwhile.

| here | there |
| --- | --- |
| `State.callerStep` | the thread that calls |
| `State.handlerStep`, `State.finish` | the `Runnable` it posts |
| `Action.wake`, `Action.interrupt` | what `Object.wait` allows |

Reading and writing a slot is one step, in the order of the program. The guard on `isReleased()` and
`handlerThread.isInterrupted()` (EventQueue.java:38, 82) lies before the first step: the call has
passed it. Other events of the handler thread show in when it takes its steps.

- `AsIfDirect`: the event runs once, the caller goes on after it with what it came to, is notified,
  and always has somebody to wait for.
- **`post_asIfDirect`**: it is so in every run in which the event ends by a value or a
  `RuntimeException` and the caller does not leave its wait before.
- `never_notified`: an event that throws an `Error`.
-/

namespace HybridStack.QuickJs.CrossThread

open Transition

/-! ## The call -/

inductive Posting
  | post
  /-- `postVoid(event, true)`. -/
  | postVoid
  deriving DecidableEq, Repr

/-- What running the event comes to; a value may be null. -/
inductive Outcome (Value RuntimeException Throwable : Type)
  | value (v : Option Value)
  | runtimeException (e : RuntimeException)
  | throwable (t : Throwable)
  deriving DecidableEq, Repr

variable {Value RuntimeException Throwable : Type}

/-- Where the caller is. -/
inductive Caller (Value RuntimeException Throwable : Type)
  /-- Before `handler.post`. -/
  | posting
  /-- Before `synchronized (result)`. -/
  | entering
  /-- Before `if (result[1] == null)`. -/
  | testing
  | waiting
  /-- Out of the wait, without the monitor. -/
  | reentering
  /-- At the end of the `synchronized` block. -/
  | leaving
  /-- Before `if (errors[0] != null)`. -/
  | readingError
  /-- Before `return (T) result[0]`. -/
  | readingResult
  | resumed (o : Outcome Value RuntimeException Throwable)
  deriving DecidableEq, Repr

/-- Where the posted `Runnable` is. -/
inductive Handler
  | idle
  | queued
  | running
  /-- Before `synchronized (result)`. -/
  | entering
  | notifying
  | finished
  /-- The event threw what is not caught. -/
  | dead
  deriving DecidableEq, Repr

inductive Party
  | caller | handler
  deriving DecidableEq, Repr

structure State (Value RuntimeException Throwable : Type) where
  kind : Posting
  caller : Caller Value RuntimeException Throwable := .posting
  handler : Handler := .idle
  /-- Who is in the monitor of `result`. -/
  monitor : Option Party := none
  /-- `result[0]`, `result[1] != null` and `errors[0]`. -/
  result : Option Value := none
  completed : Bool := false
  error : Option RuntimeException := none
  /-- The interrupt status of the caller. -/
  interrupted : Bool := false
  /-- `quickJS.isReleased()`. -/
  released : Bool := false
  /-- How often the event has been started, and what it came to. -/
  runs : Nat := 0
  outcome : Option (Outcome Value RuntimeException Throwable) := none
  deriving DecidableEq, Repr

inductive Action (Value RuntimeException Throwable : Type)
  /-- The next step of the caller, or of the `Runnable`. -/
  | caller
  | handler
  /-- The event ends. -/
  | finish (o : Outcome Value RuntimeException Throwable)
  /-- `wait` returns without a notification. -/
  | wake
  | interrupt
  /-- The runtime is released. -/
  | release
  deriving DecidableEq, Repr

/-- `if (errors[0] != null) throw errors[0];`, and where it goes on if not. -/
def afterWait (error : Option RuntimeException) (kind : Posting) :
    Caller Value RuntimeException Throwable :=
  match error, kind with
  | some e, _ => .resumed (.runtimeException e)
  | none, .post => .readingResult
  | none, .postVoid => .resumed (.value none)

namespace State

variable (s : State Value RuntimeException Throwable)

def callerStep : Option (State Value RuntimeException Throwable) :=
  match s.caller with
  | .posting => some { s with caller := .entering, handler := .queued }
  | .entering =>
    if s.monitor = none then some { s with caller := .testing, monitor := some .caller } else none
  | .testing =>
    if s.completed then some { s with caller := .leaving }
    -- `wait` throws at once, and the `InterruptedException` is caught
    else if s.interrupted then some { s with caller := .leaving, interrupted := false }
    else some { s with caller := .waiting, monitor := none }
  | .reentering =>
    if s.monitor = none then some { s with caller := .leaving, monitor := some .caller } else none
  | .leaving => some { s with caller := .readingError, monitor := none }
  | .readingError => some { s with caller := afterWait s.error s.kind }
  | .readingResult => some { s with caller := .resumed (.value s.result) }
  | .waiting | .resumed _ => none

/-- The caller out of its wait. -/
def woken : Caller Value RuntimeException Throwable → Caller Value RuntimeException Throwable
  | .waiting => .reentering
  | c => c

def handlerStep : Option (State Value RuntimeException Throwable) :=
  match s.handler with
  | .queued =>
    -- only the `Runnable` of `postVoid` looks at `isReleased()` again
    if s.kind = .postVoid ∧ s.released then some { s with handler := .entering }
    else some { s with handler := .running, runs := s.runs + 1 }
  | .entering =>
    if s.monitor = none then some { s with handler := .notifying, monitor := some .handler } else none
  | .notifying =>
    some { s with handler := .finished, monitor := none, completed := true, caller := woken s.caller }
  | .idle | .running | .finished | .dead => none

def finish (o : Outcome Value RuntimeException Throwable) :
    Option (State Value RuntimeException Throwable) :=
  if s.handler = .running then
    match o, s.kind with
    | .value v, .post => some { s with handler := .entering, result := v, outcome := some o }
    | .value none, .postVoid => some { s with handler := .entering, outcome := some o }
    | .value (some _), .postVoid => none
    | .runtimeException e, _ => some { s with handler := .entering, error := some e, outcome := some o }
    | .throwable _, _ => some { s with handler := .dead, outcome := some o }
  else none

end State

def step (s : State Value RuntimeException Throwable) :
    Action Value RuntimeException Throwable → Option (State Value RuntimeException Throwable)
  | .caller => s.callerStep
  | .handler => s.handlerStep
  | .finish o => s.finish o
  | .wake => if s.caller matches .waiting then some { s with caller := .reentering } else none
  | .interrupt =>
    if s.caller matches .waiting then some { s with caller := .reentering }
    else some { s with interrupted := true }
  | .release => some { s with released := true }

/-! ## As if the event were run directly -/

/-- The caller is past its wait. -/
def Caller.isPast : Caller Value RuntimeException Throwable → Bool
  | .leaving | .readingError | .readingResult | .resumed _ => true
  | _ => false

/-- A step of one of the two threads, of its own accord. -/
def Action.isOwn : Action Value RuntimeException Throwable → Bool
  | .caller | .handler | .finish _ => true
  | _ => false

structure AsIfDirect (s : State Value RuntimeException Throwable) : Prop where
  atMostOnce : s.runs ≤ 1
  /-- The caller goes on only after the event, which has run. -/
  after : s.caller.isPast → s.runs = 1 ∧ s.outcome.isSome
  /-- It returns or throws what the event did. -/
  same : ∀ o, s.caller = .resumed o → s.outcome = some o
  /-- It does not wait for a notification that has been given or will never be. -/
  notified : s.caller = .waiting → s.handler ≠ .finished ∧ s.handler ≠ .dead
  /-- Until it has returned, one of the two can go on. -/
  progress : (∀ o, s.caller ≠ .resumed o) → ∃ a, a.isOwn ∧ (step s a).isSome

/-- The steps after which it is so: the event ends by a value or a `RuntimeException`; the caller
leaves its wait, or an interrupted one its test, only when the event has ended; and the runtime is
not released before the event of `postVoid` has its turn. -/
def StepOk (s : State Value RuntimeException Throwable) :
    Action Value RuntimeException Throwable → Prop
  | .finish o => ∀ t, o ≠ .throwable t
  | .wake => s.outcome.isSome
  | .interrupt => s.caller = .waiting → s.outcome.isSome
  | .caller => s.caller = .testing → s.completed = false → s.interrupted = true → s.outcome.isSome
  | .handler => s.handler = .queued → ¬ (s.kind = .postVoid ∧ s.released = true)
  | .release => True

/-! ## What such steps keep -/

variable {s s' : State Value RuntimeException Throwable}

/-- The slots hold what the event came to. -/
def Stored (s : State Value RuntimeException Throwable) :
    Outcome Value RuntimeException Throwable → Prop
  | .value v => s.error = none ∧ (match s.kind with | .post => s.result = v | .postVoid => v = none)
  | .runtimeException e => s.error = some e
  | .throwable _ => False

/-- The event has ended, and the caller may read. -/
def Ended (s : State Value RuntimeException Throwable) : Prop :=
  s.runs = 1 ∧ ∃ o, s.outcome = some o ∧ Stored s o

def HandlerSide (s : State Value RuntimeException Throwable) : Prop :=
  match s.handler with
  | .idle | .queued =>
    s.runs = 0 ∧ s.outcome = none ∧ s.error = none ∧ s.completed = false
  | .running => s.runs = 1 ∧ s.outcome = none ∧ s.error = none ∧ s.completed = false
  | .entering | .notifying => Ended s ∧ s.completed = false
  | .finished => Ended s ∧ s.completed = true
  | .dead => False

def CallerSide (s : State Value RuntimeException Throwable) : Prop :=
  match s.caller with
  | .posting => s.handler = .idle
  | .entering | .testing => s.handler ≠ .idle
  | .waiting => s.handler ≠ .idle ∧ s.handler ≠ .finished
  | .reentering | .leaving | .readingError => s.outcome.isSome
  | .readingResult => s.outcome.isSome ∧ s.error = none ∧ s.kind = .post
  | .resumed o => s.outcome = some o

/-- The monitor is held by the one that is inside, if any. -/
def MonitorSide (s : State Value RuntimeException Throwable) : Prop :=
  match s.monitor with
  | none => s.caller ≠ .testing ∧ s.caller ≠ .leaving ∧ s.handler ≠ .notifying
  | some .caller => (s.caller = .testing ∨ s.caller = .leaving) ∧ s.handler ≠ .notifying
  | some .handler => s.caller ≠ .testing ∧ s.caller ≠ .leaving ∧ s.handler = .notifying

structure Inv (s : State Value RuntimeException Throwable) : Prop where
  handler : HandlerSide s
  caller : CallerSide s
  monitor : MonitorSide s

theorem inv_start (kind : Posting) (interrupted : Bool) :
    Inv ({ kind, interrupted } : State Value RuntimeException Throwable) where
  handler := ⟨rfl, rfl, rfl, rfl⟩
  caller := rfl
  monitor := ⟨by simp, by simp, by simp⟩

/-- Once there is an outcome the event has ended. -/
theorem Inv.ended (h : Inv s) (ho : s.outcome.isSome) : Ended s := by
  have hside := h.handler
  unfold HandlerSide at hside
  split at hside
  · simp [hside.2.1] at ho
  · simp [hside.2.1] at ho
  · simp [hside.2.1] at ho
  · exact hside.1
  · exact hside.1
  · exact hside.1
  · exact hside.elim

theorem Inv.completed (h : Inv s) (hc : s.completed = true) : Ended s := by
  have hside := h.handler
  unfold HandlerSide at hside
  split at hside
  · simp [hside.2.2.2] at hc
  · simp [hside.2.2.2] at hc
  · simp [hside.2.2.2] at hc
  · simp [hside.2] at hc
  · simp [hside.2] at hc
  · exact hside.1
  · exact hside.elim

theorem Inv.not_finished (h : Inv s) (hc : s.completed = false) : s.handler ≠ .finished := by
  intro hf
  have hside := h.handler
  simp only [HandlerSide, hf] at hside
  simp [hside.2] at hc

theorem Inv.not_dead (h : Inv s) : s.handler ≠ .dead := by
  intro hd
  have hside := h.handler
  simp only [HandlerSide, hd] at hside

/-- The monitor's clause when the caller moves between two places outside of it. -/
theorem MonitorSide.outside {c : Caller Value RuntimeException Throwable} (h : MonitorSide s)
    (hcaller : s.caller ≠ .testing ∧ s.caller ≠ .leaving) (hc : c ≠ .testing ∧ c ≠ .leaving) :
    MonitorSide { s with caller := c } := by
  unfold MonitorSide at h ⊢
  cases hm : s.monitor with
  | none =>
    simp only [hm] at h
    exact ⟨hc.1, hc.2, h.2.2⟩
  | some p =>
    cases p with
    | caller =>
      simp only [hm] at h
      rcases h.1 with ht | hl
      · exact (hcaller.1 ht).elim
      · exact (hcaller.2 hl).elim
    | handler =>
      simp only [hm] at h
      exact ⟨hc.1, hc.2, h.2.2⟩

/-- A caller inside holds the monitor. -/
theorem MonitorSide.held (h : MonitorSide s) (hcaller : s.caller = .testing ∨ s.caller = .leaving) :
    s.monitor = some .caller ∧ s.handler ≠ .notifying := by
  unfold MonitorSide at h
  cases hm : s.monitor with
  | none =>
    simp only [hm] at h
    rcases hcaller with ht | hl
    · exact (h.1 ht).elim
    · exact (h.2.1 hl).elim
  | some p =>
    cases p with
    | caller =>
      simp only [hm] at h
      exact ⟨rfl, h.2⟩
    | handler =>
      simp only [hm] at h
      rcases hcaller with ht | hl
      · exact (h.1 ht).elim
      · exact (h.2.1 hl).elim

/-- The caller leaves its wait. -/
theorem Inv.wake (h : Inv s) (hcaller : s.caller = .waiting) (ho : s.outcome.isSome) :
    Inv { s with caller := .reentering } where
  handler := h.handler
  caller := ho
  monitor := h.monitor.outside (by simp [hcaller]) (by simp)

/-- What the caller reads is what the event came to. -/
theorem Inv.afterWait (h : Inv s) (ho : s.outcome.isSome) :
    CallerSide { s with caller := afterWait s.error s.kind } ∧
      (afterWait s.error s.kind : Caller Value RuntimeException Throwable) ≠ .testing ∧
      (afterWait s.error s.kind : Caller Value RuntimeException Throwable) ≠ .leaving := by
  obtain ⟨-, o, hout, hstored⟩ := h.ended ho
  cases herror : s.error with
  | some e =>
    cases o with
    | value v => simp [Stored, herror] at hstored
    | runtimeException e' =>
      obtain rfl : e = e' := by simpa [Stored, herror] using hstored
      simp [CrossThread.afterWait, CallerSide, hout]
    | throwable t => exact hstored.elim
  | none =>
    cases hkind : s.kind with
    | post => simp [CrossThread.afterWait, CallerSide, hout]
    | postVoid =>
      cases o with
      | value v =>
        obtain rfl : v = none := by simpa [Stored, herror, hkind] using hstored
        simp [CrossThread.afterWait, CallerSide, hout]
      | runtimeException e => simp [Stored, herror] at hstored
      | throwable t => exact hstored.elim

theorem Inv.callerStep (h : Inv s) (hok : StepOk s .caller) (hs : s.callerStep = some s') :
    Inv s' := by
  unfold State.callerStep at hs
  have hside := h.caller
  unfold CallerSide at hside
  cases hcaller : s.caller with
  | posting =>
    simp only [hcaller] at hs hside
    obtain rfl := Option.some.inj hs
    have hhandler := h.handler
    simp only [HandlerSide, hside] at hhandler
    have hmonitor := h.monitor
    simp only [MonitorSide, hcaller, hside] at hmonitor
    refine ⟨hhandler, by simp [CallerSide], ?_⟩
    cases hm : s.monitor with
    | none => simp [MonitorSide]
    | some p => cases p <;> simp [hm] at hmonitor
  | entering =>
    simp only [hcaller] at hs hside
    split_ifs at hs with hm
    obtain rfl := Option.some.inj hs
    have hmonitor := h.monitor
    simp only [MonitorSide, hm] at hmonitor
    exact ⟨h.handler, hside, ⟨Or.inl rfl, hmonitor.2.2⟩⟩
  | testing =>
    simp only [hcaller] at hs hside
    obtain ⟨hm, hnot⟩ := h.monitor.held (Or.inl hcaller)
    have hleave : MonitorSide { s with caller := .leaving } := by
      simp only [MonitorSide, hm]
      exact ⟨Or.inr trivial, hnot⟩
    split_ifs at hs with hc hi
    · obtain rfl := Option.some.inj hs
      obtain ⟨-, o, ho, -⟩ := h.completed hc
      exact ⟨h.handler, by simp [CallerSide, ho], hleave⟩
    · obtain rfl := Option.some.inj hs
      have ho := hok hcaller (by simpa using hc) hi
      exact ⟨h.handler, ho, hleave⟩
    · obtain rfl := Option.some.inj hs
      have hfin := h.not_finished (by simpa using hc)
      exact ⟨h.handler, ⟨hside, hfin⟩, ⟨by simp, by simp, hnot⟩⟩
  | waiting => simp [hcaller] at hs
  | reentering =>
    simp only [hcaller] at hs hside
    split_ifs at hs with hm
    obtain rfl := Option.some.inj hs
    have hmonitor := h.monitor
    simp only [MonitorSide, hm] at hmonitor
    exact ⟨h.handler, hside, ⟨Or.inr rfl, hmonitor.2.2⟩⟩
  | leaving =>
    simp only [hcaller] at hs hside
    obtain rfl := Option.some.inj hs
    exact ⟨h.handler, hside, ⟨by simp, by simp, (h.monitor.held (Or.inr hcaller)).2⟩⟩
  | readingError =>
    simp only [hcaller] at hs hside
    obtain rfl := Option.some.inj hs
    obtain ⟨hnext, hout⟩ := h.afterWait hside
    exact ⟨h.handler, hnext, h.monitor.outside (by simp [hcaller]) hout⟩
  | readingResult =>
    simp only [hcaller] at hs hside
    obtain rfl := Option.some.inj hs
    obtain ⟨hsome, herror, hkind⟩ := hside
    obtain ⟨-, o, ho, hstored⟩ := h.ended hsome
    refine ⟨h.handler, ?_, h.monitor.outside (by simp [hcaller]) (by simp)⟩
    cases o with
    | value v =>
      simp only [Stored, hkind] at hstored
      rw [← hstored.2] at ho
      exact ho
    | runtimeException e => simp [Stored, herror] at hstored
    | throwable t => exact hstored.elim
  | resumed o => simp [hcaller] at hs

/-- The caller does not mind a step of the `Runnable` that leaves the outcome alone, short of the
notification. -/
theorem CallerSide.handler (h : CallerSide s) {handler : Handler} {runs : Nat}
    {monitor : Option Party} (hidle : s.handler ≠ .idle) (hidle' : handler ≠ .idle)
    (hfinished : handler ≠ .finished) : CallerSide { s with handler, runs, monitor } := by
  unfold CallerSide at h ⊢
  cases hcaller : s.caller with
  | posting =>
    simp only [hcaller] at h
    exact (hidle h).elim
  | waiting => exact ⟨hidle', hfinished⟩
  | entering | testing => exact hidle'
  | reentering | leaving | readingError | readingResult | resumed o =>
    simp only [hcaller] at h
    exact h

/-- A step of the `Runnable` outside of the monitor. -/
theorem MonitorSide.handler (h : MonitorSide s) {handler : Handler} {runs : Nat}
    (hnot : s.handler ≠ .notifying) (hnot' : handler ≠ .notifying) :
    MonitorSide { s with handler, runs } := by
  unfold MonitorSide at h ⊢
  cases hm : s.monitor with
  | none =>
    simp only [hm] at h
    exact ⟨h.1, h.2.1, hnot'⟩
  | some p =>
    cases p with
    | caller =>
      simp only [hm] at h
      exact ⟨h.1, hnot'⟩
    | handler =>
      simp only [hm] at h
      exact (hnot h.2.2).elim

theorem Inv.handlerStep (h : Inv s) (hok : StepOk s .handler) (hs : s.handlerStep = some s') :
    Inv s' := by
  unfold State.handlerStep at hs
  have hside := h.handler
  unfold HandlerSide at hside
  cases hhandler : s.handler with
  | queued =>
    simp only [hhandler] at hs hside
    rw [if_neg (hok hhandler)] at hs
    obtain rfl := Option.some.inj hs
    obtain ⟨hruns, hside⟩ := hside
    exact ⟨⟨by simp [hruns], hside⟩,
      h.caller.handler (by simp [hhandler]) (by simp) (by simp),
      h.monitor.handler (by simp [hhandler]) (by simp)⟩
  | entering =>
    simp only [hhandler] at hs hside
    split_ifs at hs with hm
    obtain rfl := Option.some.inj hs
    have hmonitor := h.monitor
    simp only [MonitorSide, hm] at hmonitor
    exact ⟨hside, h.caller.handler (by simp [hhandler]) (by simp) (by simp),
      ⟨hmonitor.1, hmonitor.2.1, rfl⟩⟩
  | notifying =>
    simp only [hhandler] at hs hside
    obtain rfl := Option.some.inj hs
    obtain ⟨hended, -⟩ := hside
    obtain ⟨hruns, o, ho, hstored⟩ := hended
    have hcaller := h.caller
    have hmonitor := h.monitor
    have hout : s.caller ≠ .testing ∧ s.caller ≠ .leaving := by
      unfold MonitorSide at hmonitor
      cases hm : s.monitor with
      | none => simp [hm, hhandler] at hmonitor
      | some p =>
        cases p with
        | caller => simp [hm, hhandler] at hmonitor
        | handler =>
          simp only [hm] at hmonitor
          exact ⟨hmonitor.1, hmonitor.2.1⟩
    refine ⟨⟨⟨hruns, o, ho, hstored⟩, rfl⟩, ?_, ?_⟩
    · unfold CallerSide at hcaller ⊢
      cases hc : s.caller with
      | posting => simp [hc, hhandler] at hcaller
      | waiting => simp [State.woken, ho]
      | entering | testing => simp [State.woken]
      | reentering | leaving | readingError | readingResult | resumed o =>
        simp only [hc] at hcaller
        simpa [State.woken] using hcaller
    · refine ⟨?_, ?_, by simp⟩
      · cases hc : s.caller <;> simp_all [State.woken]
      · cases hc : s.caller <;> simp_all [State.woken]
  | idle | running | finished | dead => simp [hhandler] at hs

theorem Inv.finish (h : Inv s) {o : Outcome Value RuntimeException Throwable}
    (hok : StepOk s (.finish o)) (hs : s.finish o = some s') : Inv s' := by
  unfold State.finish at hs
  split_ifs at hs with hhandler
  have hside := h.handler
  simp only [HandlerSide, hhandler] at hside
  obtain ⟨hruns, hnone, herror, hcompleted⟩ := hside
  -- nobody has looked at the slots yet
  have hcaller : ∀ (result : Option Value) (error : Option RuntimeException)
      (outcome : Option (Outcome Value RuntimeException Throwable)),
      CallerSide { s with handler := .entering, result, error, outcome } := by
    intro result error outcome
    have hc := h.caller
    unfold CallerSide at hc ⊢
    cases hcaller : s.caller with
    | posting => simp [hcaller, hhandler] at hc
    | waiting => simp
    | entering | testing => simp
    | reentering | leaving | readingError | readingResult | resumed o =>
      simp [hcaller, hnone] at hc
  have hmonitor : MonitorSide { s with handler := .entering } :=
    h.monitor.handler (by simp [hhandler]) (by simp)
  cases o with
  | value v =>
    cases hkind : s.kind with
    | post =>
      simp only [hkind] at hs
      obtain rfl := Option.some.inj hs
      exact ⟨⟨⟨hruns, _, rfl, herror, rfl⟩, hcompleted⟩, hkind ▸ hcaller v s.error _, hkind ▸ hmonitor⟩
    | postVoid =>
      cases v with
      | none =>
        simp only [hkind] at hs
        obtain rfl := Option.some.inj hs
        exact ⟨⟨⟨hruns, _, rfl, herror, rfl⟩, hcompleted⟩, hkind ▸ hcaller s.result s.error _,
          hkind ▸ hmonitor⟩
      | some v => simp [hkind] at hs
  | runtimeException e =>
    obtain rfl := Option.some.inj hs
    exact ⟨⟨⟨hruns, _, rfl, rfl⟩, hcompleted⟩, hcaller s.result (some e) _, hmonitor⟩
  | throwable t => exact (hok t rfl).elim

theorem Inv.step {a : Action Value RuntimeException Throwable} (h : Inv s) (hok : StepOk s a)
    (hs : step s a = some s') : Inv s' := by
  cases a with
  | caller => exact h.callerStep hok hs
  | handler => exact h.handlerStep hok hs
  | finish o => exact h.finish hok hs
  | wake =>
    cases hcaller : s.caller with
    | waiting =>
      simp only [CrossThread.step, hcaller, if_true] at hs
      obtain rfl := Option.some.inj hs
      exact h.wake hcaller hok
    | _ => simp [CrossThread.step, hcaller] at hs
  | interrupt =>
    by_cases hcaller : s.caller = .waiting
    · simp only [CrossThread.step, hcaller, if_true] at hs
      obtain rfl := Option.some.inj hs
      exact h.wake hcaller (hok hcaller)
    · have hset : s' = { s with interrupted := true } := by
        cases hc : s.caller <;> simp_all [CrossThread.step]
      subst hset
      exact ⟨h.handler, h.caller, h.monitor⟩
  | release =>
    obtain rfl := Option.some.inj hs
    exact ⟨h.handler, h.caller, h.monitor⟩

/-! ## And what it comes to -/

theorem Inv.progress (h : Inv s) (hcaller : ∀ o, s.caller ≠ .resumed o) :
    ∃ a, a.isOwn ∧ (CrossThread.step s a).isSome := by
  have hmonitor := h.monitor
  unfold MonitorSide at hmonitor
  -- whoever is inside the monitor can go on
  cases hm : s.monitor with
  | some p =>
    cases p with
    | caller =>
      simp only [hm] at hmonitor
      refine ⟨.caller, rfl, ?_⟩
      rcases hmonitor.1 with hc | hc
      · simp only [CrossThread.step, State.callerStep, hc]
        split_ifs <;> rfl
      · simp [CrossThread.step, State.callerStep, hc]
    | handler =>
      simp only [hm] at hmonitor
      exact ⟨.handler, rfl, by simp [CrossThread.step, State.handlerStep, hmonitor.2.2]⟩
  | none =>
    simp only [hm] at hmonitor
    cases hc : s.caller with
    | posting | readingError | readingResult =>
      exact ⟨.caller, rfl, by simp [CrossThread.step, State.callerStep, hc]⟩
    | entering | reentering =>
      exact ⟨.caller, rfl, by simp [CrossThread.step, State.callerStep, hc, hm]⟩
    | testing => exact (hmonitor.1 hc).elim
    | leaving => exact (hmonitor.2.1 hc).elim
    | resumed o => exact (hcaller o hc).elim
    | waiting =>
      have hside := h.caller
      simp only [CallerSide, hc] at hside
      cases hh : s.handler with
      | idle => exact (hside.1 hh).elim
      | finished => exact (hside.2 hh).elim
      | dead => exact (h.not_dead hh).elim
      | notifying => exact (hmonitor.2.2 hh).elim
      | queued =>
        refine ⟨.handler, rfl, ?_⟩
        simp only [CrossThread.step, State.handlerStep, hh]
        split_ifs <;> rfl
      | entering =>
        exact ⟨.handler, rfl, by simp [CrossThread.step, State.handlerStep, hh, hm]⟩
      | running =>
        refine ⟨.finish (.value none), rfl, ?_⟩
        cases hk : s.kind <;> simp [CrossThread.step, State.finish, hh, hk]

theorem Inv.asIfDirect (h : Inv s) : AsIfDirect s where
  atMostOnce := by
    have hside := h.handler
    unfold HandlerSide at hside
    split at hside
    · omega
    · omega
    · omega
    · exact Nat.le_of_eq hside.1.1
    · exact Nat.le_of_eq hside.1.1
    · exact Nat.le_of_eq hside.1.1
    · exact hside.elim
  after hpast := by
    have hsome : s.outcome.isSome := by
      have hside := h.caller
      unfold CallerSide at hside
      cases hc : s.caller with
      | leaving | readingError =>
        simp only [hc] at hside
        exact hside
      | readingResult =>
        simp only [hc] at hside
        exact hside.1
      | resumed o =>
        simp only [hc] at hside
        simp [hside]
      | _ => simp [hc, Caller.isPast] at hpast
    exact ⟨(h.ended hsome).1, hsome⟩
  same o ho := by
    have hside := h.caller
    simpa only [CallerSide, ho] using hside
  notified hc := by
    have hside := h.caller
    simp only [CallerSide, hc] at hside
    exact ⟨hside.2, h.not_dead⟩
  progress := h.progress

/-- **A cross-thread call behaves like a same-thread call**, in every run of such steps. -/
theorem post_asIfDirect {kind : Posting} {interrupted : Bool}
    (h : Reaches step StepOk ({ kind, interrupted } : State Value RuntimeException Throwable) s) :
    AsIfDirect s :=
  (h.invariant Inv (inv_start kind interrupted) fun _ _ _ hi hok hs => hi.step hok hs).asIfDirect

/-! ## No call takes for ever -/

/-- How many steps the caller has before it, at most. -/
def Caller.left : Caller Value RuntimeException Throwable → Nat
  | .posting => 13
  | .entering => 7
  | .testing => 6
  | .waiting => 5
  | .reentering => 4
  | .leaving => 3
  | .readingError => 2
  | .readingResult => 1
  | .resumed _ => 0

def Handler.left : Handler → Nat
  | .idle => 0
  | .queued => 4
  | .running => 3
  | .entering => 2
  | .notifying => 1
  | .finished | .dead => 0

def State.left (s : State Value RuntimeException Throwable) : Nat := s.caller.left + s.handler.left

theorem left_callerStep (hs : s.callerStep = some s') : s'.left < s.left := by
  unfold State.callerStep at hs
  cases hc : s.caller with
  | waiting | resumed o => simp [hc] at hs
  | posting | leaving | readingResult =>
    simp only [hc] at hs
    obtain rfl := Option.some.inj hs
    simp only [State.left, hc, Caller.left, Handler.left]
    omega
  | entering | reentering | testing =>
    simp only [hc] at hs
    split_ifs at hs <;> obtain rfl := Option.some.inj hs <;>
      simp only [State.left, hc, Caller.left] <;> omega
  | readingError =>
    simp only [hc] at hs
    obtain rfl := Option.some.inj hs
    have hnext : (afterWait s.error s.kind : Caller Value RuntimeException Throwable).left ≤ 1 := by
      unfold afterWait
      split <;> simp [Caller.left]
    have hcaller : s.caller.left = 2 := by rw [hc]; rfl
    simp only [State.left]
    omega

theorem left_woken (c : Caller Value RuntimeException Throwable) : (State.woken c).left ≤ c.left := by
  cases c <;> simp [State.woken, Caller.left]

theorem left_handlerStep (hs : s.handlerStep = some s') : s'.left < s.left := by
  unfold State.handlerStep at hs
  cases hh : s.handler with
  | idle | running | finished | dead => simp [hh] at hs
  | queued | entering =>
    simp only [hh] at hs
    split_ifs at hs <;> obtain rfl := Option.some.inj hs <;>
      simp only [State.left, hh, Handler.left] <;> omega
  | notifying =>
    simp only [hh] at hs
    obtain rfl := Option.some.inj hs
    have hwoken := left_woken s.caller
    simp only [State.left, hh, Handler.left]
    omega

theorem left_finish {o : Outcome Value RuntimeException Throwable} (hs : s.finish o = some s') :
    s'.left < s.left := by
  unfold State.finish at hs
  split_ifs at hs with hh
  split at hs
  · obtain rfl := Option.some.inj hs
    simp only [State.left, hh, Handler.left]
    omega
  · obtain rfl := Option.some.inj hs
    simp only [State.left, hh, Handler.left]
    omega
  · simp at hs
  · obtain rfl := Option.some.inj hs
    simp only [State.left, hh, Handler.left]
    omega
  · obtain rfl := Option.some.inj hs
    simp only [State.left, hh, Handler.left]
    omega

/-- The two threads take at most thirteen steps of their own, whatever happens between them. -/
theorem left_own {a : Action Value RuntimeException Throwable} (ha : a.isOwn)
    (hs : step s a = some s') : s'.left < s.left := by
  cases a with
  | caller => exact left_callerStep hs
  | handler => exact left_handlerStep hs
  | finish o => exact left_finish hs
  | wake | interrupt | release => simp [Action.isOwn] at ha

/-! ## Runs -/

/-- The caller waits before the event runs, and is notified. -/
def waitsForResult : List (Action Nat String Unit) :=
  [.caller, .caller, .caller, .handler, .finish (.value (some 5)), .handler, .handler, .caller,
    .caller, .caller, .caller]

theorem post_asIfDirect_waitsForResult :
    Meets step StepOk { kind := .post } waitsForResult ∧
    ∃ s, run step { kind := .post } waitsForResult = some s ∧
      s.caller = .resumed (.value (some 5)) ∧ AsIfDirect s := by
  have hmeets : Meets step StepOk { kind := .post } waitsForResult := by
    refine ⟨?_, ?_, ?_, ?_, ?_, ?_, ?_, ?_, ?_, ?_, ?_, trivial⟩
    all_goals simp [StepOk]
  have hrun : ∃ s, run step { kind := .post } waitsForResult = some s ∧
      s.caller = .resumed (.value (some 5)) := ⟨_, rfl, rfl⟩
  obtain ⟨s, hs, hcaller⟩ := hrun
  exact ⟨hmeets, s, hs, hcaller, post_asIfDirect (reaches_of_run hs hmeets)⟩

/-- **A caller that is never notified**: its event throws an `Error`, which is not caught. -/
theorem never_notified : ¬ ∀ (kind : Posting) (s : State Nat String Unit),
    Reaches step (fun _ _ => True) { kind } s → AsIfDirect s := by
  intro h
  have hrun : ∃ s : State Nat String Unit, run step { kind := .post }
      [.caller, .caller, .caller, .handler, .finish (.throwable ())] = some s ∧
        s.caller = .waiting ∧ s.handler = .dead := ⟨_, rfl, rfl, rfl⟩
  obtain ⟨s, hs, hcaller, hdead⟩ := hrun
  have hs' := h .post s (reaches_of_run hs (meets_true _ _))
  exact (hs'.notified hcaller).2 hdead

end HybridStack.QuickJs.CrossThread
