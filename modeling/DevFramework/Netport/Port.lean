import DevFramework.Netport.Wire
import DevFramework.Foundations.Transition

/-! # The netport (bas/netport.cpp) on its socket (bas/socket.hpp) and strand

`netport_t::netport_impl_t` from the end of `i_bind_socket_strand` on. All its state is changed by
strand calls only, so a strand call is one step; so is a completion handler of the socket, which
takes the callback bound to the socket and posts a strand call through it. `queue` is the list of
the worker that serves the strand, with the calls of other strands in it. Whether that worker
refuses a call depends on the length of its list (`busy`), and the body cipher is a key stream; both
are parameters.

The socket carries the operations that are outstanding. The kernel takes the bytes of a write as it
likes; the write completes when it has taken all of them. A read completes with exactly the bytes
asked for, which the completion has put into the buffer.
-/
namespace DevFramework.Netport
open Transition
set_option autoImplicit false
set_option maxHeartbeats 250000

def tpMaxRecvSize : ℤ := 2048

/-- What a netport is run with: when its worker refuses a call, and the key stream. -/
structure Env where
  busy : ℕ → Bool
  ks : ℕ → UInt8

/-- A receive buffer. -/
structure Buf where
  id : ℕ
  bytes : List UInt8
  deriving DecidableEq

/-- A `cmd_info` of the send side; its `cmd_hdr` is null and its `body_len` the length. -/
structure CmdInfo where
  id : ℕ
  cmdBody : List UInt8
  deriving DecidableEq

/-- An outstanding `async_recv` of `len` bytes at `offset` in a buffer. -/
structure RecvReq where
  buf : ℕ
  offset : ℤ
  len : ℤ
  deriving DecidableEq

/-- An outstanding `async_send`, with the bytes that the kernel has not taken yet. -/
structure SendReq where
  cmd : CmdInfo
  left : List UInt8
  deriving DecidableEq

inductive StrandCall where
  | sendMessage (ci : CmdInfo)
  | onRecv (bt err : ℤ)
  | onSend (bt err : ℤ)
  | onError (err : ℤ)
  | doClear
  | other
  deriving DecidableEq

/-- What can be seen of a netport from outside. `release` is the release of a command and of its
body, `releaseBuf` of a receive buffer; `nullBody` is a read through a null `cmd_body`. -/
inductive Event where
  | recvReq (r : RecvReq)
  | received (bytes : List UInt8)
  | sendReq (ci : CmdInfo)
  | wrote (bytes : List UInt8)
  | recvCb (d : Delivery)
  | sendCb (bt : ℤ)
  | errCb (err : ℤ)
  | release (ci : CmdInfo)
  | releaseBuf (id : ℕ)
  | nullBody
  | cleared
  | refused (call : StrandCall)
  deriving DecidableEq

structure Port where
  flag : ℤ
  hasRecved : ℤ
  cmdHdr : Option Buf
  cmdBody : Option Buf
  bodyLen : ℤ
  errCb : Bool
  recvCb : Bool
  sendCb : Bool
  curSend : Option CmdInfo
  cmdInfoList : List CmdInfo
  isOpen : Bool
  sockRecvCb : Bool
  sockSendCb : Bool
  sockErrCb : Bool
  recvs : List RecvReq
  sends : List SendReq
  queue : List StrandCall
  made : ℕ
  posted : List CmdInfo
  trace : List Event

namespace Port

def log (s : Port) (e : Event) : Port := { s with trace := s.trace ++ [e] }

/-- `post_call` on the strand. -/
def post (env : Env) (s : Port) (call : StrandCall) : Port :=
  if env.busy s.queue.length then s.log (.refused call) else { s with queue := s.queue ++ [call] }

/-! ## The socket -/

/-- `socket_t::async_recv`. -/
def asyncRecv (s : Port) (buf : Option Buf) (offset len : ℤ) : Port :=
  match buf with
  | none => s
  | some b =>
    let r : RecvReq := { buf := b.id, offset := offset, len := len }
    if len = 0 ∨ s.isOpen = false then s else { s with recvs := s.recvs ++ [r] }.log (.recvReq r)

/-- `socket_t::async_send`. -/
def asyncSend (s : Port) (ci : CmdInfo) : Port :=
  let r : SendReq := { cmd := ci, left := ci.cmdBody }
  if ci.cmdBody.length = 0 ∨ s.isOpen = false then s
  else { s with sends := s.sends ++ [r] }.log (.sendReq ci)

/-- `socket_t::close`. -/
def close (s : Port) : Port :=
  { s with isOpen := false, sockRecvCb := false, sockSendCb := false, sockErrCb := false }

/-! ## Sending -/

/-- The `cmd_body` that `send_message` builds: the header as it is, the body encrypted. -/
def command (ks : ℕ → UInt8) (buf : List UInt8) : List UInt8 :=
  buf.take headerLen ++ (jfMsgCodec ks (buf.drop headerLen)).getD []

/-- `send_message`. The command of a call that is refused is lost. -/
def sendMessage (env : Env) (s : Port) (buf : List UInt8) : Port :=
  let ci : CmdInfo := ⟨s.made, command env.ks buf⟩
  let s := { s with made := s.made + 1 }
  if env.busy s.queue.length then s.log (.refused (.sendMessage ci))
  else { s with queue := s.queue ++ [.sendMessage ci], posted := s.posted ++ [ci] }

def iSendMessageStrand (s : Port) (ci : CmdInfo) : Port :=
  if !s.isOpen then s.log (.release ci)
  else if s.curSend.isSome then { s with cmdInfoList := s.cmdInfoList ++ [ci] }
  else { s with curSend := some ci }.asyncSend ci

/-- The release of `cur_send_`. -/
def releaseCurSend (s : Port) : Port :=
  match s.curSend with
  | none => s
  | some ci => { s with curSend := none }.log (.release ci)

def iOnSendStrand (s : Port) (bt : ℤ) : Port :=
  let s := if s.sendCb then s.log (.sendCb bt) else s
  let s := s.releaseCurSend
  match s.cmdInfoList with
  | [] => s
  | ci :: rest => { s with cmdInfoList := rest }.iSendMessageStrand ci

/-! ## Receiving -/

def iOnError (env : Env) (s : Port) (err : ℤ) : Port := s.post env (.onError err)

def iProcessCommand (env : Env) (s : Port) : Port :=
  let hdr := (s.cmdHdr.map Buf.bytes).getD []
  if !s.recvCb then s
  else if s.bodyLen = 0 then s.log (.recvCb { hdr := hdr, body := none, len := 0 })
  else match s.cmdBody with
    | none => s.log .nullBody
    | some b =>
      let body := b.bytes.take s.bodyLen.toNat
      s.log (.recvCb { hdr := hdr, body := jfMsgCodec env.ks body, len := s.bodyLen })

/-- `if (ci_.cmd_body) mem_free(ci_.cmd_body); ci_.cmd_body = 0;` -/
def freeBody (s : Port) : Port :=
  match s.cmdBody with
  | none => s
  | some b => { s with cmdBody := none }.log (.releaseBuf b.id)

/-- `i_on_recv_strand` in phase 0: the body is there. -/
def recvBody (env : Env) (s : Port) : Port :=
  let s := (s.iProcessCommand env).freeBody
  let s := { s with
    bodyLen := 0
    flag := 1
    cmdHdr := s.cmdHdr.map fun b : Buf => { b with bytes := List.replicate headerLen 0 } }
  s.asyncRecv s.cmdHdr 0 headerLen

/-- Phase 1: the header is there. The recursive call of the source finds the socket as valid as
this one did, and phase 0. The bytes of the new body buffer are not specified; they are received
before they are read. -/
def recvHeader (env : Env) (s : Port) : Port :=
  match clone ((s.cmdHdr.map Buf.bytes).getD []) with
  | none => s.iOnError env badHeader
  | some sh =>
    let bodyLen := getBodyLen sh
    if bodyLen > 0 then
      let body : Buf := ⟨s.made, List.replicate bodyLen.toNat 0⟩
      let s := { s with made := s.made + 1, cmdBody := some body, bodyLen := bodyLen }
      if bodyLen > tpMaxRecvSize then
        { s with flag := 2 }.asyncRecv (some body) 0 tpMaxRecvSize
      else { s with flag := 0 }.asyncRecv (some body) 0 bodyLen
    else { s with flag := 0 }.recvBody env

/-- Phase 2: a part of a long body is there. -/
def recvPart (env : Env) (s : Port) (bt : ℤ) : Port :=
  let s := { s with hasRecved := s.hasRecved + bt }
  if s.hasRecved = s.bodyLen then { s with hasRecved := 0, flag := 0 }.recvBody env
  else s.asyncRecv s.cmdBody s.hasRecved (min (s.bodyLen - s.hasRecved) tpMaxRecvSize)

def iOnRecvStrand (env : Env) (s : Port) (bt err : ℤ) : Port :=
  if err ≠ 0 ∨ s.isOpen = false then s
  else if s.flag = 0 then s.recvBody env
  else if s.flag = 1 then s.recvHeader env
  else if s.flag = 2 then s.recvPart env bt
  else s

/-! ## Clearing -/

def iDoClear (s : Port) : Port :=
  let s := { s with recvCb := false, sendCb := false, errCb := false }
  let s := if s.isOpen then s.close else s
  let s := { s with
    cmdInfoList := []
    trace := s.trace ++ s.cmdInfoList.map Event.release }
  let s := s.releaseCurSend
  let s := match s.cmdHdr with
    | none => s
    | some b => { s with cmdHdr := none }.log (.releaseBuf b.id)
  s.freeBody.log .cleared

def iOnErrorStrand (s : Port) (err : ℤ) : Port :=
  let s := if s.errCb then s.log (.errCb err) else s
  s.iDoClear

/-! ## Completions -/

/-- The bytes of a read in its buffer. -/
def fill (r : RecvReq) (bytes : List UInt8) (b : Buf) : Buf :=
  if b.id = r.buf then
    { b with bytes := b.bytes.take r.offset.toNat ++ bytes ++
        b.bytes.drop (r.offset.toNat + bytes.length) }
  else b

/-- The bytes of the read `r`, the `i`-th outstanding one, have come. -/
def received (s : Port) (i : ℕ) (r : RecvReq) (bytes : List UInt8) : Port :=
  { s with
    recvs := s.recvs.eraseIdx i
    cmdHdr := s.cmdHdr.map (fill r bytes)
    cmdBody := s.cmdBody.map (fill r bytes) }.log (.received bytes)

/-- The handler of a read that has succeeded. -/
def recvDone (env : Env) (s : Port) (i : ℕ) (bytes : List UInt8) : Option Port :=
  match s.recvs[i]? with
  | none => none
  | some r =>
    if (bytes.length : ℤ) ≠ r.len then none
    else
      let s := s.received i r bytes
      some (if s.sockRecvCb then s.post env (.onRecv r.len 0) else s)

/-- The handler of a write that has succeeded. -/
def sendDone (env : Env) (s : Port) (i : ℕ) : Option Port :=
  match s.sends[i]? with
  | none => none
  | some r =>
    if !r.left.isEmpty then none
    else
      let s := { s with sends := s.sends.eraseIdx i }
      some (if s.sockSendCb then s.post env (.onSend r.cmd.cmdBody.length 0) else s)

/-- `error_occur`: only the first error reaches the netport. -/
def errorOccur (env : Env) (s : Port) (err : ℤ) : Port :=
  if s.sockErrCb then { s with sockErrCb := false }.iOnError env err else s

/-- The handler of a read that has failed. -/
def recvFail (env : Env) (s : Port) (i : ℕ) (err : ℤ) : Option Port :=
  match s.recvs[i]? with
  | none => none
  | some _ => some ({ s with recvs := s.recvs.eraseIdx i }.errorOccur env err)

/-- The handler of a write that has failed. -/
def sendFail (env : Env) (s : Port) (i : ℕ) (err : ℤ) : Option Port :=
  match s.sends[i]? with
  | none => none
  | some _ => some ({ s with sends := s.sends.eraseIdx i }.errorOccur env err)

/-- The kernel takes the next `n` bytes of an outstanding write. -/
def transmit (s : Port) (i n : ℕ) : Option Port :=
  match s.sends[i]? with
  | none => none
  | some r =>
    if n = 0 ∨ r.left.length < n ∨ s.isOpen = false then none
    else some ({ s with sends := s.sends.set i { r with left := r.left.drop n } }.log
      (.wrote (r.left.take n)))

/-! ## The worker -/

def exec (env : Env) (s : Port) : StrandCall → Port
  | .sendMessage ci => s.iSendMessageStrand ci
  | .onRecv bt err => s.iOnRecvStrand env bt err
  | .onSend bt _ => s.iOnSendStrand bt
  | .onError err => s.iOnErrorStrand err
  | .doClear => s.iDoClear
  | .other => s

/-- The worker runs the next call of its list. -/
def work (env : Env) (s : Port) : Option Port :=
  match s.queue with
  | [] => none
  | call :: rest => some ({ s with queue := rest }.exec env call)

end Port

/-! ## The system -/

inductive Action where
  | send (buf : List UInt8)
  | clear
  | other
  | work
  | recvDone (i : ℕ) (bytes : List UInt8)
  | recvFail (i : ℕ) (err : ℤ)
  | transmit (i n : ℕ)
  | sendDone (i : ℕ)
  | sendFail (i : ℕ) (err : ℤ)
  deriving DecidableEq

/-- One step of a netport. `send_message` of an empty message does nothing; of one shorter than a
header it reads and writes outside its buffers, and there is no step. -/
def step (env : Env) (s : Port) : Action → Option Port
  | .send buf =>
    if buf.isEmpty then some s
    else if buf.length < headerLen then none else some (s.sendMessage env buf)
  | .clear => some (s.post env .doClear)
  | .other => some (s.post env .other)
  | .work => s.work env
  | .recvDone i bytes => s.recvDone env i bytes
  | .recvFail i err => s.recvFail env i err
  | .transmit i n => s.transmit i n
  | .sendDone i => s.sendDone env i
  | .sendFail i err => s.sendFail env i err

/-- A netport after `i_bind_socket_strand` with an open socket and all callbacks set; the calls of
other strands may already wait at its worker. -/
def bound (load : ℕ) : Port where
  flag := 1
  hasRecved := 0
  cmdHdr := some ⟨0, List.replicate headerLen 0⟩
  cmdBody := none
  bodyLen := 0
  errCb := true
  recvCb := true
  sendCb := true
  curSend := none
  cmdInfoList := []
  isOpen := true
  sockRecvCb := true
  sockSendCb := true
  sockErrCb := true
  recvs := [⟨0, 0, headerLen⟩]
  sends := []
  queue := List.replicate load .other
  made := 1
  posted := []
  trace := [.recvReq ⟨0, 0, headerLen⟩]

end DevFramework.Netport
