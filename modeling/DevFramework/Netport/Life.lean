import DevFramework.Netport.Frame

/-! # A netport over more than one socket

`Netport.step` starts after a bind and ends with the connection. Here the owner may set the
callbacks at any time, and bind another socket once the strand has closed the one before. A
completion is two steps: the handler copies the callback under the socket's lock, and calls it
afterwards, which posts a strand call; between the two the strand may run anything. `hand` holds the
calls that a handler is about to post; a completion of `Netport.step` is such a handler that posts
at once (`step_take`).

A strand call of `i_bind_socket_strand` stands in the queue as one that does nothing, and `binding`
counts the calls before it. The operations of a closed socket end without a word, since its
callbacks are empty; the new connection starts without them, and with an empty history. A bind over
an open socket is no step.
-/
namespace DevFramework.Netport
open Transition
set_option autoImplicit false
set_option maxHeartbeats 250000

/-- The actions of the socket's threads. -/
def Action.completes : Action → Bool
  | .recvDone _ _ | .recvFail _ _ | .sendDone _ | .sendFail _ _ => true
  | _ => false

namespace Port

/-! ## Completions -/

/-- `error_occur` up to the call of the callback. -/
def takeError (s : Port) (err : ℤ) : Port × List StrandCall :=
  if s.sockErrCb then ({ s with sockErrCb := false }, [.onError err]) else (s, [])

/-- A completion handler up to the call of the callback, with the strand call that this posts. -/
def take (s : Port) : Action → Option (Port × List StrandCall)
  | .recvDone i bytes =>
    match s.recvs[i]? with
    | none => none
    | some r =>
      if (bytes.length : ℤ) ≠ r.len then none
      else some (s.received i r bytes, if s.sockRecvCb then [.onRecv r.len 0] else [])
  | .sendDone i =>
    match s.sends[i]? with
    | none => none
    | some r =>
      if !r.left.isEmpty then none
      else some ({ s with sends := s.sends.eraseIdx i },
        if s.sockSendCb then [.onSend r.cmd.cmdBody.length 0] else [])
  | .recvFail i err =>
    match s.recvs[i]? with
    | none => none
    | some _ => some ({ s with recvs := s.recvs.eraseIdx i }.takeError err)
  | .sendFail i err =>
    match s.sends[i]? with
    | none => none
    | some _ => some ({ s with sends := s.sends.eraseIdx i }.takeError err)
  | _ => none

/-! ## Binding -/

/-- A netport as the constructor leaves it, which does not initialise `flag_`; `made` counts the
allocations so far, and `queue` is the list of the worker. -/
def constructed (flag : ℤ) (made : ℕ) (queue : List StrandCall) : Port where
  flag := flag
  hasRecved := 0
  cmdHdr := none
  cmdBody := none
  bodyLen := 0
  errCb := false
  recvCb := false
  sendCb := false
  curSend := none
  cmdInfoList := []
  isOpen := false
  sockRecvCb := false
  sockSendCb := false
  sockErrCb := false
  recvs := []
  sends := []
  queue := queue
  made := made
  posted := []
  trace := []

/-- `i_bind_socket_strand` with a new socket. -/
def iBindSocketStrand (s : Port) : Port :=
  let hdr : Buf := ⟨s.made, List.replicate headerLen 0⟩
  let s := { s with
    isOpen := true
    sockSendCb := true
    sockRecvCb := true
    sockErrCb := true
    recvs := []
    sends := []
    posted := []
    trace := []
    made := s.made + 1
    cmdHdr := some hdr
    flag := 1 }
  s.asyncRecv s.cmdHdr 0 headerLen

end Port

/-- A completion of the netport is a handler that posts at once what it has taken. -/
theorem step_take (env : Env) (s : Port) {a : Action} (ha : a.completes = true) :
    step env s a = (s.take a).map fun p => p.2.foldl (Port.post env) p.1 := by
  cases a with
  | recvDone i bytes =>
    simp only [step, Port.recvDone, Port.take]
    cases s.recvs[i]? with
    | none => rfl
    | some r =>
      simp only
      split
      · rfl
      · have hcb : (s.received i r bytes).sockRecvCb = s.sockRecvCb := rfl
        rw [hcb]
        cases s.sockRecvCb <;> rfl
  | sendDone i =>
    simp only [step, Port.sendDone, Port.take]
    cases s.sends[i]? with
    | none => rfl
    | some r =>
      simp only
      split
      · rfl
      · cases s.sockSendCb <;> rfl
  | recvFail i err =>
    simp only [step, Port.recvFail, Port.take]
    cases s.recvs[i]? with
    | none => rfl
    | some r =>
      simp only [Port.errorOccur, Port.takeError]
      cases s.sockErrCb <;> rfl
  | sendFail i err =>
    simp only [step, Port.sendFail, Port.take]
    cases s.sends[i]? with
    | none => rfl
    | some r =>
      simp only [Port.errorOccur, Port.takeError]
      cases s.sockErrCb <;> rfl
  | _ => cases ha

/-- The handlers, with what they take. -/
inductive Taken (s : Port) : Port → List StrandCall → Prop where
  | recvDone (i : ℕ) (r : RecvReq) (bytes : List UInt8) (hr : s.recvs[i]? = some r)
      (hlen : (bytes.length : ℤ) = r.len) :
      Taken s (s.received i r bytes) (if s.sockRecvCb then [.onRecv r.len 0] else [])
  | sendDone (i : ℕ) (r : SendReq) (hr : s.sends[i]? = some r) :
      Taken s { s with sends := s.sends.eraseIdx i }
        (if s.sockSendCb then [.onSend r.cmd.cmdBody.length 0] else [])
  | recvFail (i : ℕ) (r : RecvReq) (err : ℤ) (hr : s.recvs[i]? = some r) :
      Taken s { s with recvs := s.recvs.eraseIdx i, sockErrCb := false }
        (if s.sockErrCb then [.onError err] else [])
  | sendFail (i : ℕ) (r : SendReq) (err : ℤ) (hr : s.sends[i]? = some r) :
      Taken s { s with sends := s.sends.eraseIdx i, sockErrCb := false }
        (if s.sockErrCb then [.onError err] else [])

theorem takeError_eq (s : Port) (err : ℤ) : s.takeError err =
    ({ s with sockErrCb := false }, if s.sockErrCb then [.onError err] else []) := by
  obtain ⟨flag, hasRecved, cmdHdr, cmdBody, bodyLen, errCb, recvCb, sendCb, curSend, cmdInfoList,
    isOpen, sockRecvCb, sockSendCb, sockErrCb, recvs, sends, queue, made, posted, trace⟩ := s
  cases sockErrCb <;> rfl

theorem take_inv {s t : Port} {a : Action} {calls : List StrandCall}
    (hp : s.take a = some (t, calls)) : Taken s t calls := by
  cases a with
  | recvDone i bytes =>
    simp only [Port.take] at hp
    split at hp
    · cases hp
    · rename_i r hr
      split at hp
      · cases hp
      · rename_i hlen
        cases hp
        exact .recvDone i r bytes hr (not_not.mp hlen)
  | sendDone i =>
    simp only [Port.take] at hp
    split at hp
    · cases hp
    · rename_i r hr
      split at hp <;> cases hp
      exact .sendDone i r hr
  | recvFail i err =>
    simp only [Port.take, takeError_eq] at hp
    split at hp <;> cases hp
    rename_i r hr
    exact .recvFail i r err hr
  | sendFail i err =>
    simp only [Port.take, takeError_eq] at hp
    split at hp <;> cases hp
    rename_i r hr
    exact .sendFail i r err hr
  | _ => cases hp

/-! ## The system -/

structure Life where
  port : Port
  hand : List StrandCall
  binding : Option ℕ

namespace Life

inductive Action where
  | port (a : Netport.Action)
  | put (i : ℕ)
  | setRecvCallback (cb : Bool)
  | setSendCallback (cb : Bool)
  | setErrorCallback (cb : Bool)
  | bindSocket
  deriving DecidableEq

/-- The worker runs the next call of its list. -/
def work (env : Env) (s : Life) : Option Life :=
  match s.port.work env with
  | none => none
  | some p =>
    match s.binding with
    | some 0 => if p.isOpen then none else some ⟨p.iBindSocketStrand, s.hand, none⟩
    | some (n + 1) => some ⟨p, s.hand, some n⟩
    | none => some ⟨p, s.hand, none⟩

/-- `bind_socket`, one at a time. -/
def bindSocket (env : Env) (s : Life) : Option Life :=
  match s.binding with
  | some _ => none
  | none => some { s with
      port := s.port.post env .other
      binding := if env.busy s.port.queue.length then none else some s.port.queue.length }

def step (env : Env) (s : Life) : Action → Option Life
  | .port .work => s.work env
  | .port a =>
    if a.completes then (s.port.take a).map fun p => { s with port := p.1, hand := s.hand ++ p.2 }
    else (Netport.step env s.port a).map fun p => { s with port := p }
  | .put i =>
    match s.hand[i]? with
    | none => none
    | some call => some { s with port := s.port.post env call, hand := s.hand.eraseIdx i }
  | .setRecvCallback cb => some { s with port := { s.port with recvCb := cb } }
  | .setSendCallback cb => some { s with port := { s.port with sendCb := cb } }
  | .setErrorCallback cb => some { s with port := { s.port with errCb := cb } }
  | .bindSocket => s.bindSocket env

/-- A netport after its first `i_bind_socket_strand`. -/
def bound (load : ℕ) : Life := ⟨Netport.bound load, [], none⟩

/-- A new netport with its callbacks set, whose `bind_socket` is the next call of the worker. -/
def fresh (flag : ℤ) (made : ℕ) (queue : List StrandCall) : Life where
  port := { Port.constructed flag made (.other :: queue) with
    recvCb := true
    sendCb := true
    errCb := true }
  hand := []
  binding := some 0

end Life

/-- A step of the netport or of a handler. -/
theorem Life.step_port (env : Env) (s : Life) {a : Netport.Action} (ha : a ≠ .work) :
    Life.step env s (.port a) =
      if a.completes then
        (s.port.take a).map fun p => { s with port := p.1, hand := s.hand ++ p.2 }
      else (Netport.step env s.port a).map fun p => { s with port := p } := by
  cases a <;> first | rfl | exact absurd rfl ha

/-- What a step is while no bind waits on the strand. -/
inductive Life.Step (env : Env) (s t : Life) : Life.Action → Prop where
  | take (a : Netport.Action) (p : Port) (calls : List StrandCall) (ha : a.completes = true)
      (hp : s.port.take a = some (p, calls)) (ht : t = ⟨p, s.hand ++ calls, none⟩) :
      Life.Step env s t (.port a)
  | port (a : Netport.Action) (p : Port) (ha : a.completes = false)
      (hp : Netport.step env s.port a = some p) (ht : t = ⟨p, s.hand, none⟩) :
      Life.Step env s t (.port a)
  | put (i : ℕ) (call : StrandCall) (hi : s.hand[i]? = some call)
      (ht : t = ⟨s.port.post env call, s.hand.eraseIdx i, none⟩) : Life.Step env s t (.put i)
  | set (recvCb sendCb errCb : Bool) (a : Life.Action)
      (ha : (∃ cb, a = .setRecvCallback cb) ∨ (∃ cb, a = .setSendCallback cb) ∨
        ∃ cb, a = .setErrorCallback cb)
      (ht : t = ⟨{ s.port with recvCb := recvCb, sendCb := sendCb, errCb := errCb }, s.hand,
        none⟩) : Life.Step env s t a

theorem Life.step_inv {env : Env} {s t : Life} {a : Life.Action} (hbind : a ≠ .bindSocket)
    (hnone : s.binding = none) (hs : Life.step env s a = some t) : Life.Step env s t a := by
  obtain ⟨port, hand, binding⟩ := s
  obtain rfl : binding = none := hnone
  cases a with
  | port a =>
    by_cases hwork : a = .work
    · subst hwork
      simp only [Life.step, Life.work] at hs
      split at hs
      · cases hs
      · rename_i p hp
        cases hs
        exact .port .work p rfl hp rfl
    · rw [Life.step_port env _ hwork] at hs
      cases ha : a.completes with
      | true =>
        rw [ha, if_pos rfl] at hs
        obtain ⟨⟨p, calls⟩, hp, rfl⟩ := Option.map_eq_some_iff.mp hs
        exact .take a p calls ha hp rfl
      | false =>
        rw [ha, if_neg (by simp)] at hs
        obtain ⟨p, hp, rfl⟩ := Option.map_eq_some_iff.mp hs
        exact .port a p ha hp rfl
  | put i =>
    simp only [Life.step] at hs
    split at hs
    · cases hs
    · rename_i call hi
      cases hs
      exact .put i call hi rfl
  | setRecvCallback cb =>
    cases hs
    exact .set cb port.sendCb port.errCb _ (.inl ⟨cb, rfl⟩) rfl
  | setSendCallback cb =>
    cases hs
    exact .set port.recvCb cb port.errCb _ (.inr (.inl ⟨cb, rfl⟩)) rfl
  | setErrorCallback cb =>
    cases hs
    exact .set port.recvCb port.sendCb cb _ (.inr (.inr ⟨cb, rfl⟩)) rfl
  | bindSocket => exact absurd rfl hbind

/-- The state in which a netport starts is the one after the bind of a new one. -/
theorem iBindSocketStrand_constructed (flag : ℤ) (load : ℕ) :
    Port.iBindSocketStrand { Port.constructed flag 0 (List.replicate load .other) with
      recvCb := true
      sendCb := true
      errCb := true } = Netport.bound load := rfl

end DevFramework.Netport
