import DevFramework.Foundations.Transition

/-! # The acceptor and the pool's I/O threads (`acceptor_t`, bas/socket.hpp; bas/thread_pool.hpp)

`async_accept` and `stop` are called by any thread, `stop` by several at once if they like; each
`stop` has a program counter. An accept is an operation: with the system, then queued with its
result, then in its handler on one of the threads inside `io_service::run`. An exception that leaves
a handler leaves `run` as well, is swallowed by the `catch` of `i_on_thread`, and the thread is gone.
`emptied` and `thrown` count the threads that are gone by an empty `acpt_cb_` and by what
`set_option` or the user's callback throws.
-/
namespace DevFramework.Socket
open Transition
set_option autoImplicit false
set_option maxHeartbeats 250000

/-- Where a `stop` is: before the assignments, and before the `close`. -/
inductive StopPc where
  | setQuit
  | clearCallback
  | close
  | returned
  deriving DecidableEq, Repr

/-- An accept. In its handler: before the options of the socket are set, before the call of
`acpt_cb_`, in the callback, before `if (!quit_)`, before `i_start_accept`. -/
inductive Accept where
  | waiting (acceptor : ℕ)
  | queued (accepted : Bool)
  | setOptions
  | call
  | inCallback
  | testQuit
  | startAccept
  | ended
  deriving DecidableEq, Repr

namespace Accept

/-- In its handler, on a thread of the pool. -/
def isActive : Accept → Bool
  | .setOptions | .call | .inCallback | .testQuit | .startAccept => true
  | _ => false

/-- Accepted, and `acpt_cb_` not yet called. -/
def isPending : Accept → Bool
  | .queued true | .setOptions | .call => true
  | _ => false

end Accept

/-- `acceptor_t` and the threads. `acceptor_` is numbered by how often it was made; `callable` says
that `acpt_cb_` holds a function. -/
structure Acceptor where
  quit : Bool
  callable : Bool
  acceptor : ℕ
  isOpen : Bool
  stops : List StopPc
  accepts : List Accept
  running : ℕ
  emptied : ℕ
  thrown : ℕ
  deriving DecidableEq, Repr

/-- How `async_accept` ends: the constructor of the acceptor throws, `set_option` throws, or the
first accept is started. -/
inductive Listening where
  | noAcceptor
  | noOption
  | started
  deriving DecidableEq, Repr

inductive Action where
  | bindAcceptCallback
  | asyncAccept (result : Listening)
  | stop
  | stopStep (k : ℕ)
  | complete (k : ℕ) (accepted : Bool)
  | dispatch (k : ℕ)
  | handle (k : ℕ) (throws : Bool)
  deriving DecidableEq, Repr

namespace Acceptor

/-- Bound and listening, with `threads` threads in `io_service::run`. -/
def listening (threads : ℕ) : Acceptor :=
  { quit := false, callable := true, acceptor := 0, isOpen := true, stops := [],
    accepts := [.waiting 0], running := threads, emptied := 0, thrown := 0 }

/-- Handlers at work. -/
def active (s : Acceptor) : ℕ := s.accepts.countP Accept.isActive

/-- Put accept `k` at another place. -/
def setAccept (s : Acceptor) (k : ℕ) (a : Accept) : Acceptor :=
  { s with accepts := s.accepts.set k a }

/-- `async_accept` with a port. The acceptor that there was is closed by its destructor. -/
def asyncAccept (s : Acceptor) : Listening → Acceptor
  | .noAcceptor => { s with quit := false }
  | .noOption => { s with quit := false, acceptor := s.acceptor + 1, isOpen := true }
  | .started => { s with
      quit := false
      acceptor := s.acceptor + 1
      isOpen := true
      accepts := s.accepts ++ [.waiting (s.acceptor + 1)] }

def stopStep (s : Acceptor) (k : ℕ) : Option Acceptor :=
  match s.stops[k]? with
  | some .setQuit => some { s with quit := true, stops := s.stops.set k .clearCallback }
  | some .clearCallback => some { s with callable := false, stops := s.stops.set k .close }
  | some .close => some { s with isOpen := false, stops := s.stops.set k .returned }
  | _ => none

/-- The system ends an accept: with a connection only while its acceptor is open. -/
def complete (s : Acceptor) (k : ℕ) (accepted : Bool) : Option Acceptor :=
  match s.accepts[k]? with
  | some (.waiting acceptor) =>
    if accepted then
      if acceptor = s.acceptor ∧ s.isOpen then some (s.setAccept k (.queued true)) else none
    else some (s.setAccept k (.queued false))
  | _ => none

/-- A thread that is in no handler takes an accept off the queue. -/
def dispatch (s : Acceptor) (k : ℕ) : Option Acceptor :=
  match s.accepts[k]? with
  | some (.queued accepted) =>
    if s.active < s.running then
      some (s.setAccept k (if accepted then .setOptions else .testQuit))
    else none
  | _ => none

/-- The next step of a handler. `i_start_accept` on an acceptor that is closed queues an error. -/
def handle (s : Acceptor) (k : ℕ) (throws : Bool) : Option Acceptor :=
  let lost := { s.setAccept k .ended with running := s.running - 1 }
  match s.accepts[k]? with
  | some .setOptions =>
    some (if throws then { lost with thrown := s.thrown + 1 } else s.setAccept k .call)
  | some .call =>
    some (if s.callable then s.setAccept k .inCallback else { lost with emptied := s.emptied + 1 })
  | some .inCallback =>
    some (if throws then { lost with thrown := s.thrown + 1 } else s.setAccept k .testQuit)
  | some .testQuit => some (s.setAccept k (if s.quit then .ended else .startAccept))
  | some .startAccept =>
    some (s.setAccept k (if s.isOpen then .waiting s.acceptor else .queued false))
  | _ => none

def step (s : Acceptor) : Action → Option Acceptor
  | .bindAcceptCallback => some { s with callable := true }
  | .asyncAccept result => some (s.asyncAccept result)
  | .stop => some { s with stops := s.stops ++ [.setQuit] }
  | .stopStep k => s.stopStep k
  | .complete k accepted => s.complete k accepted
  | .dispatch k => s.dispatch k
  | .handle k throws => s.handle k throws

end Acceptor

end DevFramework.Socket
