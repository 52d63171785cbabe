import DevFramework.Netport.Frame

/-! # The send machine in equations

`i_send_message_strand` for a socket that is closed, one with a write under way and an idle one, and
`i_on_send_strand` with and without a command in the list.
-/
namespace DevFramework.Netport
set_option autoImplicit false
set_option maxHeartbeats 250000

def Event.sent? : Event → Option CmdInfo
  | .sendReq ci => some ci
  | _ => none

def Event.released? : Event → Option CmdInfo
  | .release ci => some ci
  | _ => none

theorem iSendMessageStrand_closed (s : Port) (hclosed : s.isOpen = false) (ci : CmdInfo) :
    s.iSendMessageStrand ci = s.log (.release ci) := by
  unfold Port.iSendMessageStrand
  rw [if_pos (by simp [hclosed])]

theorem iSendMessageStrand_listed (s : Port) (hopen : s.isOpen = true) (hcur : s.curSend ≠ none)
    (ci : CmdInfo) :
    s.iSendMessageStrand ci = { s with cmdInfoList := s.cmdInfoList ++ [ci] } := by
  unfold Port.iSendMessageStrand
  rw [if_neg (by simp [hopen]), if_pos (Option.isSome_iff_ne_none.mpr hcur)]

theorem iSendMessageStrand_started (s : Port) (hopen : s.isOpen = true) (hcur : s.curSend = none)
    {ci : CmdInfo} (hbody : ci.cmdBody ≠ []) :
    s.iSendMessageStrand ci = { s with
      curSend := some ci
      sends := s.sends ++ [⟨ci, ci.cmdBody⟩]
      trace := s.trace ++ [.sendReq ci] } := by
  have hguard : ¬ (ci.cmdBody.length = 0 ∨ s.isOpen = false) := by simp [hbody, hopen]
  unfold Port.iSendMessageStrand Port.asyncSend
  rw [if_neg (by simp [hopen]), if_neg (by simp [hcur])]
  simp only
  rw [if_neg hguard]
  rfl

/-- What `i_on_send_strand` does before it looks at the list. -/
def sentEvents (s : Port) (bt : ℤ) : List Event :=
  (if s.sendCb then [Event.sendCb bt] else []) ++ s.curSend.toList.map Event.release

theorem iOnSendStrand_last (s : Port) (bt : ℤ) (hlist : s.cmdInfoList = []) :
    s.iOnSendStrand bt = { s with curSend := none, trace := s.trace ++ sentEvents s bt } := by
  obtain ⟨flag, hasRecved, cmdHdr, cmdBody, bodyLen, errCb, recvCb, sendCb, curSend, cmdInfoList,
    isOpen, sockRecvCb, sockSendCb, sockErrCb, recvs, sends, queue, made, posted, trace⟩ := s
  obtain rfl : cmdInfoList = [] := hlist
  cases sendCb <;> cases curSend <;>
    simp [Port.iOnSendStrand, Port.releaseCurSend, Port.log, sentEvents]

theorem iOnSendStrand_next (s : Port) (bt : ℤ) {ci : CmdInfo} {list : List CmdInfo}
    (hlist : s.cmdInfoList = ci :: list) : s.iOnSendStrand bt = ({ s with
      curSend := none
      cmdInfoList := list
      trace := s.trace ++ sentEvents s bt } : Port).iSendMessageStrand ci := by
  obtain ⟨flag, hasRecved, cmdHdr, cmdBody, bodyLen, errCb, recvCb, sendCb, curSend, cmdInfoList,
    isOpen, sockRecvCb, sockSendCb, sockErrCb, recvs, sends, queue, made, posted, trace⟩ := s
  obtain rfl : cmdInfoList = ci :: list := hlist
  cases sendCb <;> cases curSend <;>
    simp [Port.iOnSendStrand, Port.releaseCurSend, Port.log, sentEvents]

theorem iOnSendStrand_started (s : Port) (bt : ℤ) (hopen : s.isOpen = true) {ci : CmdInfo}
    {list : List CmdInfo} (hlist : s.cmdInfoList = ci :: list) (hbody : ci.cmdBody ≠ []) :
    s.iOnSendStrand bt = { s with
      curSend := some ci
      cmdInfoList := list
      sends := s.sends ++ [⟨ci, ci.cmdBody⟩]
      trace := s.trace ++ (sentEvents s bt ++ [.sendReq ci]) } := by
  rw [iOnSendStrand_next s bt hlist, iSendMessageStrand_started]
  · simp
  · exact hopen
  · rfl
  · exact hbody

theorem sentEvents_sent (s : Port) (bt : ℤ) :
    (sentEvents s bt).filterMap Event.sent? = [] := by
  unfold sentEvents
  cases s.sendCb <;> cases s.curSend <;> rfl

theorem sentEvents_released (s : Port) (bt : ℤ) :
    (sentEvents s bt).filterMap Event.released? = s.curSend.toList := by
  unfold sentEvents
  cases s.sendCb <;> cases s.curSend <;> rfl

theorem cleared_not_mem_sentEvents (s : Port) (bt : ℤ) : Event.cleared ∉ sentEvents s bt := by
  unfold sentEvents
  cases s.sendCb <;> cases s.curSend <;> simp

end DevFramework.Netport
