import Mathlib.Logic.Function.Basic
import HybridStack.Lib.LinkedMap
import HybridStack.Lib.Mailbox

/-!
# WorkerPlugin

A context whose scripts start workers. Each worker has a runtime of its own with a handler thread;
the two sides only post events to one another.

| here | there |
| --- | --- |
| `Worker.post` | `quickJS.postEventQueue`, `EventQueue.post` and `postVoid`, EventQueue.java:37-126 |
| `Worker.close` | `Worker.close`, WorkerPlugin.java:95-101 |
| `WorkerAction.postMessage` | `Worker.postMessage`, WorkerPlugin.java:103-110 |
| `WorkerAction.executeScript` | the thread of the constructor, WorkerPlugin.java:62-67 |
| `WorkerAction.checkException` | that thread in `QuickJS.checkException`, JSContext.java:88 |
| `WorkerAction.uncaught` | that thread in `getScript`, or one of SetTimeoutPlugin.java:17-26 |
| `Worker.handle` | the worker's handler thread with the next event |
| `Values`, `Worker.closeRuntime`, `State.closeRuntime` | `QuickJS.close`, QuickJS.java:65-81 |
| `State.sendMessageReceiver` | its event, WorkerPlugin.java:70-78 |
| `Action.newWorker` | the constructor of the class `Worker`, WorkerPlugin.java:27-30 |
| `State.closeContext` | `JSContext.close` and `WorkerPlugin.close`, WorkerPlugin.java:34-38 |

A message is what `args.getString(0)` returns. The code of either side may act whenever its context
is there (a worker's while one of its events is being run), so more orders are allowed here than
there. Posting is one step: a call that has passed the guard of `post` or `postVoid` when the runtime
is released, and gets to `handler.post` only then, counts as made just before, where it is behind the
close as well. Left out are a parent whose thread has no looper, plugins of its context that throw
when they are closed, a getter for `onmessage`, and an Error of a worker that `_getException` does
not get to the end of or that has code run (its `toString`).
-/

namespace HybridStack.QuickJs.WorkerPlugin

abbrev Message := Option String

/-- What `getObject("onmessage")` finds. -/
inductive Onmessage
  /-- `null`, `undefined` or no object. -/
  | nothing
  | function
  /-- An object that is no function. -/
  | object
  deriving DecidableEq, Repr

/-- What a run of `QuickJS.close` has in its array, which it takes from the map of all contexts while
other runtimes put theirs in and out. -/
structure Values where
  /-- It comes to the runtime's own context. -/
  own : Bool
  /-- It comes to a null, and ends there with a `NullPointerException`. -/
  null : Bool
  deriving DecidableEq, Repr

/-! ## The worker -/

/-- What is posted to the event queue of a worker. -/
inductive Event
  /-- `_executeScript`, for the script of the worker. -/
  | script
  /-- `_getException`, behind the script. -/
  | getException
  | message (msg : Message)
  /-- A function of `setTimeout`. -/
  | timer
  /-- `quickJS::close`. -/
  | close
  deriving DecidableEq, Repr

inductive Outcome
  | ran
  /-- There was no `onmessage`. -/
  | ignored
  /-- The `ClassCastException` is kept in `errors` that nobody reads. -/
  | failed
  /-- `quickJS.isReleased()`, or for a timer that of its context. -/
  | dropped
  /-- A native call with the pointer of a context that has been freed. -/
  | afterRelease
  /-- The `NullPointerException` of the close is kept in `errors` too; the context may be closed. -/
  | stopped (closed : Bool)
  /-- The exception that was found is thrown on the thread of the constructor, where nobody catches it. -/
  | thrown
  /-- The `Error` of `checkReleased` is not caught on the handler thread. -/
  | crashed
  deriving DecidableEq, Repr

structure Worker where
  events : Mailbox Event Outcome := {}
  /-- The context has been closed. -/
  closed : Bool := false
  /-- `QuickJS.released`. -/
  released : Bool := false
  onmessage : Onmessage := .nothing
  /-- The event whose code is being run. -/
  running : Option Event := none
  /-- The `current_exception` of the runtime is an Error. -/
  exception : Bool := false
  /-- The thread of the constructor has got to `executeVoidScript`. -/
  started : Bool := false
  /-- It has got to `checkException`. -/
  checked : Bool := false
  terminate : Bool := false
  /-- What the worker's code has called `postMessage` with. -/
  sent : List Message := []
  crashed : Bool := false
  deriving DecidableEq

inductive WorkerAction
  /-- `worker.postMessage(msg)` of the parent. -/
  | postMessage (msg : Message)
  /-- `worker.terminate()` of the parent. -/
  | terminate
  | executeScript
  | checkException
  /-- A `setTimeout` thread of the worker's code has slept its time. -/
  | timer
  /-- A thread beside the handler thread throws: the constructor's in the application's `getScript`, or
  one of `setTimeout`, for a negative delay or no function. -/
  | uncaught
  /-- The handler thread takes the next event; `values` is for a close. -/
  | take (values : Values)
  /-- The worker's code sets `onmessage`. -/
  | setOnmessage (value : Onmessage)
  /-- It calls `postMessage`. -/
  | send (msg : Message)
  | returns
  /-- It throws an Error, or something else. -/
  | throws (error : Bool)
  deriving DecidableEq, Repr

namespace Worker

def post (w : Worker) (e : Event) : Worker := { w with events := w.events.post w.released e }

def close (w : Worker) : Worker :=
  if w.terminate then w else { w with terminate := true }.post .close

/-- `JSContext.isReleased`. -/
def isReleased (w : Worker) : Bool := w.released || w.closed

/-- The handler thread is done with the event at once, or runs the code of `running`. -/
def took (w : Worker) (o : Outcome) (running : Option Event) : Worker :=
  { w with events := w.events.take o, running }

def closeRuntime (w : Worker) (values : Values) : Worker :=
  if w.released then w.took .dropped none
  else if values.null then
    { w.took (.stopped values.own) none with closed := w.closed || values.own }
  else { w.took .ran none with closed := w.closed || values.own, released := true }

def handle (w : Worker) (values : Values) : Event → Worker
  -- the event of `post` does not look at `isReleased()` again
  | .script => w.took (if w.isReleased then .afterRelease else .ran) (some .script)
  | .getException =>
    if w.isReleased then w.took .afterRelease none
    else if w.exception then { w.took .thrown none with exception := false, crashed := true }
    else w.took .ran none
  | .message msg =>
    if w.released then w.took .dropped none
    -- `context.getObject` calls `checkReleased`
    else if w.closed then { w.took .crashed none with crashed := true }
    else
      match w.onmessage with
      | .nothing => w.took .ignored none
      | .object => w.took .failed none
      | .function => w.took .ran (some (.message msg))
  | .timer => if w.isReleased then w.took .dropped none else w.took .ran (some .timer)
  | .close => w.closeRuntime values

/-- `JSFunction.call` takes what exception there is, of whatever code, and throws it into `errors`;
for the script the thread of the constructor is to do that. -/
def finished (w : Worker) (exception : Bool) : Worker :=
  { w with running := none, exception := w.running = some .script && exception }

def act (w : Worker) : WorkerAction → Option Worker
  | .postMessage msg => some (w.post (.message msg))
  | .terminate => some w.close
  | .executeScript => if w.started then none else some ({ w with started := true }.post .script)
  | .checkException =>
    if w.started && !w.checked && w.running != some .script && !w.events.queue.contains .script then
      some ({ w with checked := true }.post .getException)
    else none
  | .timer => some (w.post .timer)
  | .uncaught => some { w with crashed := true }
  | .take values =>
    if w.running.isSome then none
    else
      match w.events.queue with
      | [] => none
      | e :: _ => some (w.handle values e)
  | .setOnmessage value => if w.running.isSome then some { w with onmessage := value } else none
  | .send msg => if w.running.isSome then some { w with sent := w.sent ++ [msg] } else none
  | .returns => if w.running.isSome then some (w.finished w.exception) else none
  | .throws error => if w.running.isSome then some (w.finished error) else none

end Worker

/-! ## The parent -/

/-- What becomes of a message that a worker sent. -/
inductive Delivery
  | called
  /-- `onmessage` is not an instance of `JSFunction`. -/
  | ignored
  | dropped
  /-- The `Error` of `checkReleased` is not caught on the handler thread. -/
  | crashed
  deriving DecidableEq, Repr

/-- The workers are numbered as they are made. -/
structure State where
  count : Nat := 0
  workers : Nat → Worker := fun _ => {}
  /-- The `onmessage` of each `workerObj`. -/
  onmessage : Nat → Onmessage := fun _ => .nothing
  /-- `WorkerPlugin.workers`. -/
  plugin : LinkedMap Int Nat := .empty
  /-- The events of `sendMessageReceiver`. -/
  inbox : Mailbox (Nat × Message) Delivery := {}
  /-- The context has been closed. -/
  closed : Bool := false
  /-- `QuickJS.released`. -/
  released : Bool := false
  /-- An `Error` or exception that nobody catches has ended the process. -/
  crashed : Bool := false

inductive Action
  | newWorker
  | worker (n : Nat) (a : WorkerAction)
  /-- The parent's code sets `onmessage` of a worker. -/
  | setOnmessage (n : Nat) (value : Onmessage)
  /-- The parent's thread takes the next event of `sendMessageReceiver`. -/
  | take
  /-- `JSContext.close`. -/
  | closeContext
  /-- `QuickJS.close`. -/
  | closeRuntime (values : Values)
  deriving DecidableEq, Repr

/-- What the code of the parent does. -/
def WorkerAction.ofParent : WorkerAction → Bool
  | .postMessage _ | .terminate => true
  | _ => false

namespace State

variable (s : State)

/-- `JSContext.isReleased`. -/
def isReleased : Bool := s.released || s.closed

/-- The worker `n` has done `a` and is `w` now. -/
def acted (n : Nat) (a : WorkerAction) (w : Worker) : State :=
  { s with
    workers := Function.update s.workers n w
    crashed := s.crashed || w.crashed
    inbox :=
      match a with
      | .send msg => s.inbox.post s.released (n, msg)
      | _ => s.inbox }

/-- Every worker in the map is closed. -/
def closeContext : State :=
  if s.isReleased then s
  else
    { s with
      closed := true
      workers := fun n => if n ∈ s.plugin.values then (s.workers n).close else s.workers n }

def closeRuntime (values : Values) : State :=
  if s.released then s
  else
    { (if values.own then s.closeContext else s) with released := !values.null }

/-- The event for the message `msg` of the worker `n`. -/
def sendMessageReceiver (n : Nat) : State :=
  if s.released then { s with inbox := s.inbox.take .dropped }
  else if s.closed then { s with inbox := s.inbox.take .crashed, crashed := true }
  else
    match s.onmessage n with
    | .function => { s with inbox := s.inbox.take .called }
    | _ => { s with inbox := s.inbox.take .ignored }

end State

section

-- `getTag()` of the object of each worker. It is `JS_TAG_OBJECT` for all of them, but with
-- `JS_NAN_BOXING` it has the pointer in it.
variable (tag : Nat → Int)

/-- Nothing happens any more once the process has crashed. -/
def step (s : State) (a : Action) : Option State :=
  if s.crashed then none
  else
    match a with
    | .newWorker =>
      if s.isReleased then none
      else some { s with count := s.count + 1, plugin := s.plugin.put (tag s.count) s.count }
    | .worker n a =>
      if n < s.count ∧ ¬ (a.ofParent = true ∧ s.isReleased = true) then
        ((s.workers n).act a).map (s.acted n a)
      else none
    | .setOnmessage n value =>
      if s.isReleased then none
      else some { s with onmessage := Function.update s.onmessage n value }
    | .take =>
      match s.inbox.queue with
      | [] => none
      | (n, _) :: _ => some (s.sendMessageReceiver n)
    | .closeContext => some s.closeContext
    | .closeRuntime values => some (s.closeRuntime values)

end

end HybridStack.QuickJs.WorkerPlugin
