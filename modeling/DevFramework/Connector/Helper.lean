import DevFramework.Foundations.Transition
import Mathlib.Logic.Function.Basic

/-! # The connector helper (bas/connector_helper.hpp, `connector_t`, `netport_impl_t`)

What becomes of the sockets that a `connector_helper_t` obtains. A connect completion and `stop` hold
`mutex_` all the time they touch the members, so each is one step; the calls that netports post run
strand by strand, in the order of the posts. `post_call` may refuse a call. Callbacks, buffers and
what is sent and received are left out, but for the errors: of a socket, whose error callback is
used up by the first, and of a header that is not recognised.

Sockets and netports are numbered as they are made. A strand is known by its address.
-/
namespace DevFramework.Connector
open Transition
set_option autoImplicit false
set_option maxHeartbeats 250000

/-- A `socket_t`; `errCb` is the netport whose `i_on_error` is bound as `err_cb_`. -/
structure Socket where
  isOpen : Bool
  errCb : Option ℕ
  deriving DecidableEq, Repr

/-- A `netport_impl_t`. -/
structure Netport where
  strand : ℕ
  sock : Option ℕ
  deriving DecidableEq, Repr

/-- What netports post: `i_bind_socket_strand`, `i_on_error_strand`, `i_do_clear`. -/
inductive Call where
  | bindSocket (netport sock : ℕ)
  | onError (netport : ℕ)
  | doClear (netport : ℕ)
  deriving DecidableEq, Repr

/-- A `connector_helper_t` with all it has made. `netport` is the one that `netport_` points to,
`connecting` counts connects without a completion, `failing` lists the netports whose `i_on_error`
has been called and has not yet posted. -/
structure Helper where
  stopped : Bool
  strand : ℕ
  netport : Option ℕ
  connecting : ℕ
  socketCount : ℕ
  sockets : ℕ → Socket
  netportCount : ℕ
  netports : ℕ → Netport
  queues : ℕ → List Call
  failing : List ℕ

/-- `accepted` is what `post_call` returns. -/
inductive Action where
  | setStrand (strand : ℕ)
  | start
  | connected (accepted : Bool)
  | connectFailed
  | socketError (sock : ℕ)
  | badHeader (netport : ℕ)
  | postError (i : ℕ) (accepted : Bool)
  | perform (strand : ℕ)
  | stop (accepted : Bool)
  deriving DecidableEq, Repr

namespace Helper

def init : Helper :=
  { stopped := false, strand := 0, netport := none, connecting := 0, socketCount := 0,
    sockets := fun _ => ⟨false, none⟩, netportCount := 0, netports := fun _ => ⟨0, none⟩,
    queues := fun _ => [], failing := [] }

def setSocket (s : Helper) (k : ℕ) (sock : Socket) : Helper :=
  { s with sockets := Function.update s.sockets k sock }

def setQueue (s : Helper) (strand : ℕ) (calls : List Call) : Helper :=
  { s with queues := Function.update s.queues strand calls }

/-- The calls that wait on the strand of a netport. -/
def queueOf (s : Helper) (n : ℕ) : List Call := s.queues (s.netports n).strand

/-- `post_call` of a netport on its strand. -/
def post (s : Helper) (n : ℕ) (call : Call) (accepted : Bool) : Helper :=
  if accepted then s.setQueue (s.netports n).strand (s.queueOf n ++ [call]) else s

/-- The handler of a connect that has succeeded. After a stop it closes the socket. -/
def connected (s : Helper) (accepted : Bool) : Helper :=
  let k := s.socketCount
  let n := s.netportCount
  let s := { s.setSocket k ⟨!s.stopped, none⟩ with
    connecting := s.connecting - 1
    socketCount := k + 1 }
  if s.stopped then s
  else
    post
      { s with
        netport := some n
        netportCount := n + 1
        netports := Function.update s.netports n ⟨s.strand, none⟩ }
      n (.bindSocket n k) accepted

/-- The first call of a strand; `none` where there is none, or where it goes through a null
`sock_`. `i_on_error_strand` calls `err_cb_` and then does what `i_do_clear` does. -/
def perform (s : Helper) (strand : ℕ) : Option Helper :=
  match s.queues strand with
  | [] => none
  | .bindSocket n k :: rest =>
    some { (s.setQueue strand rest).setSocket k { s.sockets k with errCb := some n } with
      netports := Function.update s.netports n { s.netports n with sock := some k } }
  | .onError n :: rest => some (s.setQueue strand (.doClear n :: rest))
  | .doClear n :: rest =>
    match (s.netports n).sock with
    | some k =>
      some ((s.setQueue strand rest).setSocket k
        (if (s.sockets k).isOpen then ⟨false, none⟩ else s.sockets k))
    | none => none

def step (s : Helper) : Action → Option Helper
  | .setStrand strand => some { s with strand := strand }
  | .start => some { s with connecting := s.connecting + 1 }
  | .connected accepted => if s.connecting = 0 then none else some (s.connected accepted)
  | .connectFailed =>
    if s.connecting = 0 then none else some { s with connecting := s.connecting - 1 }
  | .socketError k =>
    match (s.sockets k).errCb with
    | some n =>
      some { s.setSocket k { s.sockets k with errCb := none } with failing := s.failing ++ [n] }
    | none => none
  | .badHeader n =>
    match (s.netports n).sock with
    | some k =>
      if (s.sockets k).isOpen then some { s with failing := s.failing ++ [n] } else none
    | none => none
  | .postError i accepted =>
    match s.failing[i]? with
    | some n => some (post { s with failing := s.failing.eraseIdx i } n (.onError n) accepted)
    | none => none
  | .perform strand => s.perform strand
  | .stop accepted =>
    let s : Helper := { s with stopped := true }
    some (match s.netport with
      | some n => s.post n (.doClear n) accepted
      | none => s)

end Helper

end DevFramework.Connector
