import Mathlib.Data.List.Basic

/-!
# EventQueue

A runtime of `createRuntimeWithEventQueue`: one handler thread with a FIFO queue, and any number of
other threads. Every native call goes through `EventQueue`, which checks `released` and then runs
the event (on the handler thread) or queues it (on another).

| here | there |
| --- | --- |
| `State.rejects` | the check at the head of `post` and `postVoid`, EventQueue.java:38, 82 |
| `Action.call` | that check, and `event.run()` on the handler thread, EventQueue.java:42-44, 86-88 |
| `Action.enqueue` | `handler.post` on another thread, EventQueue.java:51, 97 |
| `State.dequeue` | the events they queue: `post` runs its own without a second check |
| `State.begin` | `event.run()` |
| `Frame.releaseRefs` to `Frame.removeContext` | `JSContext.close`, JSContext.java:63-84 |
| `Frame.size` to `Frame.interrupt` | `QuickJS.close`, QuickJS.java:65-81 |

The stack holds what the handler thread has still to do: the rest of the close it is in, and of the
native calls that have called back into Java. `Frame.user` is application code (a plugin's `close`,
a callback, a posted `Runnable`), which may call whatever it likes. Between its check and its
`handler.post` a call of another thread is `passed`: no lock keeps a close out of there. Nor does one
keep the contexts of other runtimes from coming and going between the two reads of `sContextMap` in
`QuickJS.close`, which are two steps.

A calling thread's wait for its result is not modelled, so more orders are allowed here than there.
A pointer stands for one context: the model does not use it again after the context is closed. Left
out are arguments and results, and the branch for a thread without a looper.
-/

namespace HybridStack.QuickJs

abbrev ContextPtr := Nat

/-- The functions of `QuickJSNative` that take a `contextPtr`. -/
inductive Operation
  | releaseContext | executeScript | getGlobalObject | set | get | arrayGet | arrayAdd
  | executeFunction | executeFunction2 | initNewJSObject | initNewJSArray | initNewJSFunction
  | releasePtr | registerJavaMethod | getObjectType | contains | getKeys | isUndefined | undefined
  | getValue | arrayGetValue | getException | newClass
  deriving DecidableEq, Repr

inductive Posting
  | post | postVoid
  deriving DecidableEq, Repr

def Operation.posting : Operation → Posting
  | .releaseContext | .set | .arrayAdd | .releasePtr => .postVoid
  | _ => .post

/-- Whether application code may run before the operation returns. -/
def Operation.callsBack : Operation → Bool
  | .releaseContext | .releasePtr => false
  | _ => true

/-- What `QuickJSNativeImpl` executes. -/
inductive Native
  | call (op : Operation) (contextPtr : ContextPtr)
  /-- An operation goes on after it called back. -/
  | resume (op : Operation) (contextPtr : ContextPtr)
  | releaseRuntime
  deriving DecidableEq, Repr

/-- An event, and the call that posts it. -/
inductive Event
  | operation (op : Operation) (contextPtr : ContextPtr)
  /-- `EventQueue._releaseRuntime`. -/
  | releaseRuntime
  /-- `JSContext.close`. -/
  | closeContext (contextPtr : ContextPtr)
  /-- `QuickJS.close`. -/
  | closeRuntime
  /-- `postEventQueue` of the application. -/
  | runnable
  deriving DecidableEq, Repr

def Event.posting : Event → Posting
  | .operation op _ => op.posting
  | _ => .postVoid

/-- What is left to do on the handler thread. -/
inductive Frame
  /-- An `EventQueue` call of the handler thread itself. -/
  | call (e : Event)
  | user
  | resume (op : Operation) (contextPtr : ContextPtr)
  /-- `it.close()` for the `refs`, then `checkReleaseObjPtrPool()`. -/
  | releaseRefs (contextPtr : ContextPtr)
  /-- `JSContext.super.close()`. -/
  | superClose (contextPtr : ContextPtr)
  /-- `getNative()._releaseContext(contextPtr)`. -/
  | releaseContext (contextPtr : ContextPtr)
  /-- `QuickJS.sContextMap.remove(getContextPtr())`. -/
  | removeContext (contextPtr : ContextPtr)
  /-- `new JSContext[sContextMap.size()]`. -/
  | size
  /-- `sContextMap.values().toArray(values)`, with `values` of this length. -/
  | toArray (n : Nat)
  /-- `context.getQuickJS()` of an entry that is null. -/
  | null
  /-- `getNative()._releaseRuntime(runtimePtr)`. -/
  | releaseRuntime
  /-- `QuickJS.this.released = true`. -/
  | setReleased
  /-- `quickJSNative.interrupt()`. -/
  | interrupt
  deriving DecidableEq, Repr

/-- Application code may catch what is thrown under it, and a native call turns it into a
JavaScript exception. -/
def Frame.catches : Frame → Bool
  | .user | .resume _ _ => true
  | _ => false

structure State where
  /-- `QuickJS.released`. -/
  released : Bool := false
  /-- `handlerThread.isInterrupted()`. -/
  interrupted : Bool := false
  /-- The contexts whose own `released` is set. -/
  closed : List ContextPtr := []
  /-- The contexts of this runtime in `sContextMap`. -/
  sContextMap : List ContextPtr := []
  /-- How many contexts of other runtimes are in it. -/
  others : Nat := 0
  /-- The calls of other threads that have passed the check and are not queued yet. -/
  passed : List Event := []
  queue : List Event := []
  stack : List Frame := []
  /-- The native calls executed so far, the latest first. -/
  natives : List Native := []
  deriving DecidableEq, Repr

inductive Thread
  | handler | other
  deriving DecidableEq, Repr

inductive Action
  /-- A new context is put into `sContextMap`. -/
  | createContext (contextPtr : ContextPtr)
  /-- The contexts of other runtimes in `sContextMap` are now so many. -/
  | otherContexts (n : Nat)
  | call (thread : Thread) (e : Event)
  /-- A call of another thread that has passed the check. -/
  | enqueue (e : Event)
  /-- The application code on the handler thread returns. -/
  | returns
  /-- It throws a `RuntimeException`. -/
  | throws
  /-- One more value of the context that is being closed is released. -/
  | releasePtr
  /-- The next step of the handler thread. A `QuickJS.close` finds the contexts in this order. -/
  | proceed (values : List ContextPtr)
  deriving DecidableEq, Repr

namespace State

def rejects (s : State) : Bool := s.released || s.interrupted

/-- A call of a native function on the handler thread, through `EventQueue`. -/
def checked (s : State) (n : Native) : State :=
  if s.rejects then s else { s with natives := n :: s.natives }

/-- `event.run()`. -/
def begin (s : State) : Event → State
  | .operation op c =>
    { s with
      natives := .call op c :: s.natives
      stack := if op.callsBack then .user :: .resume op c :: s.stack else s.stack }
  | .releaseRuntime => { s with natives := .releaseRuntime :: s.natives }
  | .closeContext c =>
    if c ∈ s.closed then s else { s with stack := .user :: .releaseRefs c :: s.stack }
  | .closeRuntime => if s.released then s else { s with stack := .size :: s.stack }
  | .runnable => { s with stack := .user :: s.stack }

/-- The queued event: only that of `postVoid` looks at `released` again. -/
def dequeue (s : State) (e : Event) : State :=
  match e.posting with
  | .post => s.begin e
  | .postVoid => if s.released then s else s.begin e

/-- An exception leaves the frames up to the one that catches it. -/
def unwind (s : State) : State := { s with stack := s.stack.dropWhile fun f => !f.catches }

/-- What a `QuickJS.close` does with an array of `n`. One that the contexts do not fill has a null
behind them; one that they do not fit into has nothing but nulls. -/
def visits (s : State) (n : Nat) (values : List ContextPtr) : List Frame :=
  let found := s.sContextMap.length + s.others
  (if found ≤ n then values.map fun c => .call (.closeContext c) else []) ++
    if n = found ∨ n = 0 then [] else [.null]

/-- One step of the handler thread in the frame `f`, `s` being what is below it. -/
def proceedIn (s : State) (values : List ContextPtr) : Frame → Option State
  | .call e => some (if s.rejects then s else s.begin e)
  | .user => none
  | .resume op c => some { s with natives := .resume op c :: s.natives }
  | .releaseRefs c => some { s with stack := .superClose c :: s.stack }
  | .superClose c =>
    let next := { s with stack := .releaseContext c :: s.stack }
    some (if c ∈ s.closed then next
      else { next with closed := c :: s.closed }.checked (.call .releasePtr c))
  | .releaseContext c =>
    some ({ s with stack := .removeContext c :: s.stack }.checked (.call .releaseContext c))
  | .removeContext c => some { s with sContextMap := s.sContextMap.erase c }
  | .size => some { s with stack := .toArray (s.sContextMap.length + s.others) :: s.stack }
  | .toArray n => some { s with stack := s.visits n values ++ .releaseRuntime :: s.stack }
  | .null => some s.unwind
  | .releaseRuntime => some ({ s with stack := .setReleased :: s.stack }.checked .releaseRuntime)
  | .setReleased => some { s with released := true, stack := .interrupt :: s.stack }
  | .interrupt => some { s with interrupted := true }

end State

def step (s : State) : Action → Option State
  | .createContext c =>
    if c ∈ s.sContextMap ∨ c ∈ s.closed then none
    else some { s with sContextMap := c :: s.sContextMap }
  | .otherContexts n => some { s with others := n }
  | .call .other e => some (if s.rejects then s else { s with passed := e :: s.passed })
  | .call .handler e =>
    match s.stack with
    | .user :: _ => some { s with stack := .call e :: s.stack }
    | _ => none
  | .enqueue e =>
    if e ∈ s.passed then some { s with passed := s.passed.erase e, queue := s.queue ++ [e] } else none
  | .returns =>
    match s.stack with
    | .user :: stack => some { s with stack }
    | _ => none
  | .throws =>
    match s.stack with
    | .user :: stack => some { s with stack }.unwind
    | _ => none
  | .releasePtr =>
    match s.stack with
    | .releaseRefs c :: _ => some (s.checked (.call .releasePtr c))
    | _ => none
  | .proceed values =>
    if values.Perm s.sContextMap then
      match s.stack with
      | f :: stack => { s with stack }.proceedIn values f
      | [] =>
        match s.queue with
        | e :: queue => some ({ s with queue }.dequeue e)
        | [] => none
    else none

/-! ## What must not happen -/

/-- Executing this makes `c` unusable. -/
def Native.Releases (c : ContextPtr) (n : Native) : Prop :=
  n = .call .releaseContext c ∨ n = .releaseRuntime

def Native.contextPtr? : Native → Option ContextPtr
  | .call _ c | .resume _ c => some c
  | .releaseRuntime => none

/-- No native function that takes a context is executed after that context or the runtime has been
released. -/
def NoNativeAfterRelease (s : State) : Prop :=
  s.natives.Pairwise fun later earlier => ∀ c, later.contextPtr? = some c → ¬ earlier.Releases c

end HybridStack.QuickJs
