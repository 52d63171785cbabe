import DevFramework.Foundations.Transition

/-! # The bounded pool of utility/thread_pool (`common_app::ThreadPool`)

One queue under `mutex_`, workers that wait on `cv_`, and the thread that owns the pool: it starts
the pool and later runs its destructor, which clears `running_`, notifies all and joins the workers
in order, without ever taking `mutex_`. A step of a worker is what it does between two points where
another thread can come between; `postCallback` holds `mutex_` from its first line to its last and
touches nothing that is read without it, so it is one step.

Callbacks are numbered as they are posted. `posted`, `dequeued`, `discarded`, `ran` and `invoked`
list what happened to them and are read by nobody.
-/
namespace DevFramework.CommonApp
open Transition
set_option autoImplicit false
set_option maxHeartbeats 250000

def maxThreadCount : ℕ := 16

def maxQueueSize : ℕ := 512 * 8

/-- A posted `std::function`; `callable` says that it holds a function. -/
structure Callback where
  id : ℕ
  callable : Bool
  deriving DecidableEq, Repr

/-- Where a worker is in `callbackInThread`. From `testing` to `popping` it holds `mutex_`. -/
inductive WorkerPc where
  /-- At `while (running_)`. -/
  | top
  /-- About to take `mutex_`: at the `unique_lock`, or woken inside `cv_.wait`. -/
  | locking
  /-- About to evaluate the predicate of `cv_.wait`. -/
  | testing
  /-- The predicate was false: about to block. -/
  | refused
  /-- Blocked on `cv_`, which released `mutex_`. -/
  | blocked
  /-- The predicate was true: at `if (!running_)`. -/
  | granted
  /-- At `if (!callbacks_.empty())`. -/
  | popping
  /-- At `if (callback)`, with the local `callback`. -/
  | calling (callback : Option Callback)
  /-- Inside `callback()`. -/
  | inCallback
  | ended
  deriving DecidableEq, Repr

/-- Where the owner is: not in the destructor, past `running_ = false`, or past `notify_all` and at
the join of worker `k` (through with all of them when there is no such worker). -/
inductive OwnerPc where
  | using
  | cleared
  | joining (k : ℕ)
  deriving DecidableEq, Repr

structure ThreadPool where
  running : Bool
  threadCount : ℕ
  queueSize : ℕ
  mutex : Option ℕ
  callbacks : List Callback
  threads : List WorkerPc
  owner : OwnerPc
  posted : List Callback
  dequeued : List Callback
  discarded : List Callback
  ran : List Callback
  invoked : List Callback
  deriving DecidableEq, Repr

/-- A step of one of the threads. `notified` is the worker that `notify_one` picks; `wake` is a
spurious wake-up; `returns` ends a callback, by a return or by an exception. -/
inductive Action where
  | startThreadPool
  | postCallback (callable : Bool) (notified : Option ℕ)
  | worker (i : ℕ)
  | wake (i : ℕ)
  | returns (i : ℕ) (throws : Bool)
  | clearRunning
  | notifyAll
  | join
  deriving DecidableEq, Repr

/-- `while (callbacks_.size() >= queue_size_) callbacks_.pop();`: what it pops and what it leaves;
`none` where it pops from an empty queue. -/
def evict (queueSize : ℕ) : List Callback → Option (List Callback × List Callback)
  | [] => if queueSize = 0 then none else some ([], [])
  | cb :: rest =>
    if queueSize ≤ rest.length + 1 then
      (evict queueSize rest).map fun (popped, kept) => (cb :: popped, kept)
    else some ([], cb :: rest)

namespace ThreadPool

/-- `ThreadPool(thread_count, queue_size)`; the default constructor passes
`hardware_concurrency()` and 512. -/
def constructed (threadCount queueSize : ℕ) : ThreadPool :=
  { running := false, threadCount := threadCount, queueSize := queueSize, mutex := none,
    callbacks := [], threads := [], owner := .using, posted := [], dequeued := [],
    discarded := [], ran := [], invoked := [] }

/-- The destructor is through: the members are gone. -/
def isGone (s : ThreadPool) : Prop := s.owner = .joining s.threads.length

instance (s : ThreadPool) : Decidable s.isGone := by unfold isGone; infer_instance

def setThread (s : ThreadPool) (i : ℕ) (pc : WorkerPc) : ThreadPool :=
  { s with threads := s.threads.set i pc }

/-- The new threads are at the top of their loop before any of them has moved. -/
def startThreadPool (s : ThreadPool) : ThreadPool :=
  if s.running then s
  else
    let count := if s.threadCount = 0 ∨ maxThreadCount < s.threadCount then 1 else s.threadCount
    { s with
      running := true
      threadCount := count
      queueSize := if s.queueSize = 0 ∨ maxQueueSize < s.queueSize then 512 else s.queueSize
      threads := s.threads ++ List.replicate count .top }

/-- `cv_.notify_one()`: one blocked worker is woken, if there is any. -/
def notifyOne (s : ThreadPool) : Option ℕ → Option ThreadPool
  | some i => if s.threads[i]? = some .blocked then some (s.setThread i .locking) else none
  | none => if WorkerPc.blocked ∈ s.threads then none else some s

def postCallback (s : ThreadPool) (callable : Bool) (notified : Option ℕ) : Option ThreadPool :=
  let cb : Callback := ⟨s.posted.length, callable⟩
  if s.mutex = none ∧ ¬ s.isGone then
    (evict s.queueSize s.callbacks).bind fun (popped, kept) =>
      notifyOne { s with
        callbacks := kept ++ [cb]
        posted := s.posted ++ [cb]
        discarded := s.discarded ++ popped } notified
  else none

/-- The next step of worker `i`; `none` where it cannot move by itself. -/
def worker (s : ThreadPool) (i : ℕ) : Option ThreadPool :=
  match s.threads[i]? with
  | some .top => some (s.setThread i (if s.running then .locking else .ended))
  | some .locking =>
    if s.mutex = none then some { s.setThread i .testing with mutex := some i } else none
  | some .testing =>
    some (s.setThread i (if !s.running || !s.callbacks.isEmpty then .granted else .refused))
  | some .refused => some { s.setThread i .blocked with mutex := none }
  | some .granted =>
    some (if s.running then s.setThread i .popping
      else { s.setThread i .ended with mutex := none })
  | some .popping =>
    match s.callbacks with
    | [] => some { s.setThread i (.calling none) with mutex := none }
    | cb :: rest =>
      some { s.setThread i (.calling (some cb)) with
        mutex := none
        callbacks := rest
        dequeued := s.dequeued ++ [cb] }
  | some (.calling none) => some (s.setThread i .top)
  | some (.calling (some cb)) =>
    some (if cb.callable then
        { s.setThread i .inCallback with
          ran := s.ran ++ [cb]
          invoked := s.invoked ++ [cb] }
      else { s.setThread i .top with ran := s.ran ++ [cb] })
  | _ => none

/-- A blocked worker wakes by itself and wants `mutex_` again. -/
def wake (s : ThreadPool) (i : ℕ) : Option ThreadPool :=
  if s.threads[i]? = some .blocked then some (s.setThread i .locking) else none

/-- The callback returns, or throws what `catch (...)` swallows. -/
def returns (s : ThreadPool) (i : ℕ) (_throws : Bool) : Option ThreadPool :=
  if s.threads[i]? = some .inCallback then some (s.setThread i .top) else none

/-- What `notify_all` does to a worker. -/
def notified : WorkerPc → WorkerPc
  | .blocked => .locking
  | pc => pc

def step (s : ThreadPool) : Action → Option ThreadPool
  | .startThreadPool => if s.owner = .using then some s.startThreadPool else none
  | .postCallback callable target => s.postCallback callable target
  | .worker i => s.worker i
  | .wake i => s.wake i
  | .returns i throws => s.returns i throws
  | .clearRunning =>
    if s.owner = .using then some { s with running := false, owner := .cleared } else none
  | .notifyAll =>
    if s.owner = .cleared then
      some { s with threads := s.threads.map notified, owner := .joining 0 }
    else none
  | .join =>
    match s.owner with
    | .joining k =>
      if s.threads[k]? = some .ended then some { s with owner := .joining (k + 1) } else none
    | _ => none

end ThreadPool

end DevFramework.CommonApp
