import DevFramework.Netport.Frame

/-! # The receive machine in equations

What `i_on_recv_strand` does in each phase, on an open socket with the header buffer in place.
-/
namespace DevFramework.Netport
set_option autoImplicit false
set_option maxHeartbeats 250000

section
variable {env : Env} {s : Port} {b : Buf}

theorem asyncRecv_open (hopen : s.isOpen = true) {offset len : ℤ} (hlen : len ≠ 0) :
    s.asyncRecv (some b) offset len = { s with
      recvs := s.recvs ++ [⟨b.id, offset, len⟩]
      trace := s.trace ++ [.recvReq ⟨b.id, offset, len⟩] } := by
  have hguard : ¬ (len = 0 ∨ s.isOpen = false) := by simp [hlen, hopen]
  simp only [Port.asyncRecv]
  rw [if_neg hguard]
  rfl

theorem fill_id (r : RecvReq) (bytes : List UInt8) (b : Buf) : (Port.fill r bytes b).id = b.id := by
  unfold Port.fill
  split <;> rfl

/-- What `i_process_command` calls. -/
def processEvents (env : Env) (s : Port) (hdr : List UInt8) : List Event :=
  if !s.recvCb then []
  else if s.bodyLen = 0 then [.recvCb { hdr := hdr, body := none, len := 0 }]
  else match s.cmdBody with
    | none => [.nullBody]
    | some b =>
      [.recvCb { hdr := hdr, body := jfMsgCodec env.ks (b.bytes.take s.bodyLen.toNat),
                 len := s.bodyLen }]

theorem processEvents_body (hcb : s.recvCb = true) (hlen : s.bodyLen ≠ 0)
    (hbody : s.cmdBody = some b) (hdr : List UInt8) : processEvents env s hdr =
      [.recvCb { hdr := hdr, body := jfMsgCodec env.ks (b.bytes.take s.bodyLen.toNat),
                 len := s.bodyLen }] := by
  simp [processEvents, hcb, hlen, hbody]

theorem iProcessCommand_eq (hhdr : s.cmdHdr = some b) :
    s.iProcessCommand env = { s with trace := s.trace ++ processEvents env s b.bytes } := by
  obtain ⟨flag, hasRecved, cmdHdr, cmdBody, bodyLen, errCb, recvCb, sendCb, curSend, cmdInfoList,
    isOpen, sockRecvCb, sockSendCb, sockErrCb, recvs, sends, queue, made, posted, trace⟩ := s
  obtain rfl : cmdHdr = some b := hhdr
  cases recvCb with
  | false => simp [Port.iProcessCommand, processEvents]
  | true =>
    by_cases hlen : bodyLen = 0
    · simp [Port.iProcessCommand, processEvents, hlen, Port.log]
    · cases cmdBody <;> simp [Port.iProcessCommand, processEvents, hlen, Port.log]

/-- The release of the body buffer. -/
def freeEvents (s : Port) : List Event := s.cmdBody.toList.map fun b => .releaseBuf b.id

theorem freeBody_eq (s : Port) :
    s.freeBody = { s with cmdBody := none, trace := s.trace ++ freeEvents s } := by
  obtain ⟨flag, hasRecved, cmdHdr, cmdBody, bodyLen, errCb, recvCb, sendCb, curSend, cmdInfoList,
    isOpen, sockRecvCb, sockSendCb, sockErrCb, recvs, sends, queue, made, posted, trace⟩ := s
  cases cmdBody <;> simp [Port.freeBody, Port.log, freeEvents]

/-- Phase 0: the command is delivered, and the next header is asked for. -/
theorem recvBody_eq (hopen : s.isOpen = true) (hhdr : s.cmdHdr = some b) :
    s.recvBody env = { s with
      cmdBody := none
      bodyLen := 0
      flag := 1
      cmdHdr := some ⟨b.id, List.replicate headerLen 0⟩
      recvs := s.recvs ++ [⟨b.id, 0, headerLen⟩]
      trace := s.trace ++ (processEvents env s b.bytes ++ freeEvents s ++
        [.recvReq ⟨b.id, 0, headerLen⟩]) } := by
  have hlen : (headerLen : ℤ) ≠ 0 := by decide
  unfold Port.recvBody
  simp only [iProcessCommand_eq hhdr, freeBody_eq, hhdr, Option.map_some]
  rw [asyncRecv_open]
  · simp [freeEvents]
  · exact hopen
  · exact hlen

theorem recvHeader_bad (hhdr : s.cmdHdr = some b) (hbad : clone b.bytes = none) :
    s.recvHeader env = s.iOnError env badHeader := by
  unfold Port.recvHeader
  simp only [hhdr, Option.map_some, Option.getD_some, hbad]

theorem recvHeader_alone (hhdr : s.cmdHdr = some b) {sh : List UInt8}
    (hsh : clone b.bytes = some sh) (hn : getBodyLen sh ≤ 0) :
    s.recvHeader env = ({ s with flag := 0 } : Port).recvBody env := by
  unfold Port.recvHeader
  simp only [hhdr, Option.map_some, Option.getD_some, hsh]
  rw [if_neg (not_lt.mpr hn)]

/-- Phase 1 with a header that announces a body: its first part is asked for. -/
theorem recvHeader_body (hopen : s.isOpen = true) (hhdr : s.cmdHdr = some b) {sh : List UInt8}
    (hsh : clone b.bytes = some sh) (hn : 0 < getBodyLen sh) :
    s.recvHeader env = { s with
      made := s.made + 1
      cmdBody := some ⟨s.made, List.replicate (getBodyLen sh).toNat 0⟩
      bodyLen := getBodyLen sh
      flag := if getBodyLen sh > tpMaxRecvSize then 2 else 0
      recvs := s.recvs ++ [⟨s.made, 0, min (getBodyLen sh) tpMaxRecvSize⟩]
      trace := s.trace ++ [.recvReq ⟨s.made, 0, min (getBodyLen sh) tpMaxRecvSize⟩] } := by
  unfold Port.recvHeader
  simp only [hhdr, Option.map_some, Option.getD_some, hsh]
  rw [if_pos hn]
  split
  next hlong =>
    rw [min_eq_right hlong.le, asyncRecv_open]
    · exact hopen
    · decide
  next hshort =>
    rw [min_eq_left (not_lt.mp hshort), asyncRecv_open]
    · exact hopen
    · exact hn.ne'

theorem recvPart_last {bt : ℤ} (hlast : s.hasRecved + bt = s.bodyLen) :
    s.recvPart env bt = ({ s with hasRecved := 0, flag := 0 } : Port).recvBody env :=
  if_pos hlast

/-- Phase 2 with another part: the next one is asked for. -/
theorem recvPart_next (hopen : s.isOpen = true) (hbody : s.cmdBody = some b) {bt : ℤ}
    (hmore : s.hasRecved + bt ≠ s.bodyLen) :
    s.recvPart env bt = { s with
      hasRecved := s.hasRecved + bt
      recvs := s.recvs ++
        [⟨b.id, s.hasRecved + bt, min (s.bodyLen - (s.hasRecved + bt)) tpMaxRecvSize⟩]
      trace := s.trace ++
        [.recvReq ⟨b.id, s.hasRecved + bt,
          min (s.bodyLen - (s.hasRecved + bt)) tpMaxRecvSize⟩] } := by
  have hlen : min (s.bodyLen - (s.hasRecved + bt)) tpMaxRecvSize ≠ 0 := by
    unfold tpMaxRecvSize
    omega
  simp only [Port.recvPart]
  rw [if_neg hmore, hbody, asyncRecv_open]
  · exact hopen
  · exact hlen

theorem iOnRecvStrand_open (hopen : s.isOpen = true) (bt : ℤ) :
    s.iOnRecvStrand env bt 0 =
      if s.flag = 0 then s.recvBody env
      else if s.flag = 1 then s.recvHeader env
      else if s.flag = 2 then s.recvPart env bt
      else s := by
  unfold Port.iOnRecvStrand
  rw [if_neg (by simp [hopen])]

theorem iOnRecvStrand_body (hopen : s.isOpen = true) (hflag : s.flag = 0) (bt : ℤ) :
    s.iOnRecvStrand env bt 0 = s.recvBody env := by
  rw [iOnRecvStrand_open hopen, if_pos hflag]

theorem iOnRecvStrand_header (hopen : s.isOpen = true) (hflag : s.flag = 1) (bt : ℤ) :
    s.iOnRecvStrand env bt 0 = s.recvHeader env := by
  rw [iOnRecvStrand_open hopen, if_neg (by omega), if_pos hflag]

theorem iOnRecvStrand_part (hopen : s.isOpen = true) (hflag : s.flag = 2) (bt : ℤ) :
    s.iOnRecvStrand env bt 0 = s.recvPart env bt := by
  rw [iOnRecvStrand_open hopen, if_neg (by omega), if_neg (by omega), if_pos hflag]

end

end DevFramework.Netport
