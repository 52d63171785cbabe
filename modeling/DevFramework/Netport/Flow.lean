import DevFramework.Netport.Sending
import DevFramework.Netport.Receiving

/-! # What leaves a netport

While a netport works undisturbed and its strand takes every call, the bytes that it has written,
and those of the write under way, are the commands sent so far, one after another.
-/
namespace DevFramework.Netport
open Transition
set_option autoImplicit false
set_option maxHeartbeats 250000

def Event.written : Event → List UInt8
  | .wrote bytes => bytes
  | _ => []

/-- The bytes that the kernel has taken. -/
def Port.wrote (s : Port) : List UInt8 := s.trace.flatMap Event.written

structure Flow (s : Port) : Prop where
  sending : Sending s
  callback : s.sockSendCb = true
  active : s.sends.length + s.onSends = s.curSend.toList.length
  bytes : s.wrote ++ s.sends.flatMap SendReq.left = s.sent.flatMap CmdInfo.cmdBody

/-- What a strand call does to the writes: nothing, or it starts one, or it ends the last one. -/
inductive SendStep (s t : Port) : Prop where
  | quiet (hcur : t.curSend = s.curSend) (hsends : t.sends = s.sends) (hons : t.onSends = s.onSends)
      (hsent : t.sent = s.sent)
  | started (ci : CmdInfo) (hcur : t.curSend = some ci) (hidle : s.sends = [])
      (hsends : t.sends = [⟨ci, ci.cmdBody⟩]) (hons : t.onSends = 0) (hsent : t.sent = s.sent ++ [ci])
  | finished (hcur : t.curSend = none) (hidle : s.sends = []) (hsends : t.sends = [])
      (hons : t.onSends = 0) (hsent : t.sent = s.sent)

section
variable {ks : ℕ → UInt8} {env : Env} {s t : Port} {calls : List StrandCall}

theorem flow_bound (load : ℕ) : Flow (bound load) := by
  refine ⟨sending_bound load, rfl, ?_, rfl⟩
  have : (bound load).onSends = 0 := onSends_replicate_other load
  rw [this]
  rfl

theorem Flow.of_sendStep (h : Flow s) (hsending : Sending t) (hcb : t.sockSendCb = s.sockSendCb)
    (hwrote : t.wrote = s.wrote) (hst : SendStep s t) : Flow t := by
  have hbytes := h.bytes
  refine ⟨hsending, hcb.trans h.callback, ?_, ?_⟩
  · cases hst with
    | quiet hcur hsends hons _ => rw [hcur, hsends, hons, h.active]
    | started ci hcur _ hsends hons _ =>
      rw [hcur, hsends, hons]
      rfl
    | finished hcur _ hsends hons _ =>
      rw [hcur, hsends, hons]
      rfl
  · cases hst with
    | quiet _ hsends _ hsent => rw [hwrote, hsends, hsent, hbytes]
    | started ci _ hidle hsends _ hsent =>
      rw [hidle, List.flatMap_nil, List.append_nil] at hbytes
      rw [hwrote, hsends, hsent, List.flatMap_append, ← hbytes]
      rfl
    | finished _ hidle hsends _ hsent =>
      rw [hidle] at hbytes
      rw [hwrote, hsends, hsent, hbytes]

theorem SendStep.pop {rest : List StrandCall} (h : SendStep { s with queue := rest } t)
    (hons : s.onSends = rest.countP StrandCall.isOnSend) : SendStep s t := by
  cases h with
  | quiet hcur hsends hons' hsent => exact .quiet hcur hsends (hons'.trans hons.symm) hsent
  | started ci hcur hidle hsends hons' hsent => exact .started ci hcur hidle hsends hons' hsent
  | finished hcur hidle hsends hons' hsent => exact .finished hcur hidle hsends hons' hsent

/-- What a step of the strand leaves alone on the send side. -/
structure SendKept (s t : Port) : Prop where
  callback : t.sockSendCb = s.sockSendCb
  posted : t.posted = s.posted
  wrote : t.wrote = s.wrote

theorem ofReceiver_written {evs : List Event} (h : ∀ e ∈ evs, e.ofReceiver = true) :
    evs.flatMap Event.written = [] := by
  refine List.flatMap_eq_nil_iff.mpr fun e he => ?_
  have := h e he
  cases e <;> first | rfl | cases this

theorem RecvOnly.sendStep (h : RecvOnly s t calls) (hcalls : ∀ call ∈ calls, call.isOnSend = false) :
    SendStep s t ∧ SendKept s t := by
  obtain ⟨_, _, _, _, _, _, _, evs, rfl, -, hall⟩ := h
  have hcount : calls.countP StrandCall.isOnSend = 0 :=
    List.countP_eq_zero.mpr fun call hcall => by simp [hcalls call hcall]
  refine ⟨.quiet rfl rfl ?_ ?_, rfl, rfl, ?_⟩
  · rw [Port.onSends, List.countP_append, hcount]
    rfl
  · rw [Port.sent, List.filterMap_append, (ofReceiver_silent hall).1, List.append_nil]
    rfl
  · rw [Port.wrote, List.flatMap_append, ofReceiver_written hall, List.append_nil]
    rfl

theorem Flow.sendMessage (h : Flow s) (hopen : s.isOpen = true) {ci : CmdInfo}
    {rest : List StrandCall} (hq : s.queue = .sendMessage ci :: rest) :
    SendStep s ({ s with queue := rest }.iSendMessageStrand ci) ∧
      SendKept s ({ s with queue := rest }.iSendMessageStrand ci) := by
  have hactive := h.active
  have hons : s.onSends = rest.countP StrandCall.isOnSend := by
    rw [Port.onSends, hq]
    rfl
  have hbody : ci.cmdBody ≠ [] := by
    refine h.sending.nonempty ci ?_
    rw [h.sending.order hopen, Port.waiting, hq]
    simp [StrandCall.command?]
  by_cases hcur : s.curSend = none
  · rw [hcur] at hactive
    have hnone : s.sends.length = 0 ∧ s.onSends = 0 := Nat.add_eq_zero_iff.mp hactive
    have hidle := List.length_eq_zero_iff.mp hnone.1
    rw [iSendMessageStrand_started { s with queue := rest } hopen hcur hbody]
    refine ⟨.started ci rfl hidle ?_ (hons.symm.trans hnone.2) List.filterMap_append, rfl, rfl, ?_⟩
    · rw [hidle]
      rfl
    · rw [Port.wrote, List.flatMap_append]
      exact List.append_nil _
  · rw [iSendMessageStrand_listed { s with queue := rest } hopen hcur]
    exact ⟨.quiet rfl rfl hons.symm rfl, rfl, rfl, rfl⟩

theorem sentEvents_written (s : Port) (bt : ℤ) : (sentEvents s bt).flatMap Event.written = [] := by
  unfold sentEvents
  cases s.sendCb <;> cases s.curSend <;> rfl

theorem Flow.onSend (h : Flow s) (hopen : s.isOpen = true) {bt err : ℤ} {rest : List StrandCall}
    (hq : s.queue = .onSend bt err :: rest) :
    SendStep s ({ s with queue := rest }.iOnSendStrand bt) ∧
      SendKept s ({ s with queue := rest }.iOnSendStrand bt) := by
  have hactive := h.active
  have hons : s.onSends = rest.countP StrandCall.isOnSend + 1 := by
    rw [Port.onSends, hq]
    exact List.countP_cons_of_pos rfl
  have hone : s.curSend.toList.length ≤ 1 := by cases s.curSend <;> simp
  have hidle : s.sends = [] := List.length_eq_zero_iff.mp (by omega)
  have hrest : rest.countP StrandCall.isOnSend = 0 := by omega
  by_cases hlist : s.cmdInfoList = []
  · rw [iOnSendStrand_last { s with queue := rest } bt hlist]
    refine ⟨.finished rfl hidle hidle hrest ?_, rfl, rfl, ?_⟩
    · rw [Port.sent, List.filterMap_append, sentEvents_sent, List.append_nil]
      rfl
    · rw [Port.wrote, List.flatMap_append, sentEvents_written, List.append_nil]
      rfl
  · obtain ⟨ci, list, hlist⟩ := List.exists_cons_of_ne_nil hlist
    have hbody : ci.cmdBody ≠ [] := by
      refine h.sending.nonempty ci ?_
      rw [h.sending.order hopen, hlist]
      simp
    rw [iOnSendStrand_started { s with queue := rest } bt hopen hlist hbody]
    refine ⟨.started ci rfl hidle ?_ hrest ?_, rfl, rfl, ?_⟩
    · rw [hidle]
      rfl
    · rw [Port.sent, List.filterMap_append, List.filterMap_append, sentEvents_sent]
      rfl
    · rw [Port.wrote, List.flatMap_append, List.flatMap_append, sentEvents_written]
      exact List.append_nil _

theorem Flow.exec (env : Env) (h : Flow s) (hopen : s.isOpen = true) {call : StrandCall}
    {rest : List StrandCall} (hq : s.queue = call :: rest) (hcall : call.ends = false) :
    SendStep s ({ s with queue := rest }.exec env call) ∧
      SendKept s ({ s with queue := rest }.exec env call) := by
  have hons : call.isOnSend = false → s.onSends = rest.countP StrandCall.isOnSend := by
    intro hno
    rw [Port.onSends, hq, List.countP_cons_of_neg (by simp [hno])]
  cases call with
  | sendMessage ci => exact h.sendMessage hopen hq
  | onRecv bt err =>
    obtain ⟨calls, hr, hcalls⟩ := iOnRecvStrand_frame env { s with queue := rest } bt err
    obtain ⟨hst, hkept⟩ := hr.sendStep (by
      rcases hcalls with rfl | rfl <;> simp [StrandCall.isOnSend])
    exact ⟨hst.pop (hons rfl), hkept.callback, hkept.posted, hkept.wrote⟩
  | onSend bt err => exact h.onSend hopen hq
  | onError err => cases hcall
  | doClear => cases hcall
  | other => exact ⟨.quiet rfl rfl (hons rfl).symm rfl, rfl, rfl, rfl⟩

/-! ## Every step -/

theorem Sending.only (h : Sending s) {i : ℕ} {r : SendReq} (hr : s.sends[i]? = some r) :
    i = 0 ∧ s.sends = [r] := by
  have hone := h.one
  obtain ⟨hi, hget⟩ := List.getElem?_eq_some_iff.mp hr
  obtain ⟨q, hq⟩ := List.length_eq_one_iff.mp (by omega : s.sends.length = 1)
  simp only [hq, List.length_singleton, Nat.lt_one_iff] at hi
  subst hi
  rw [hq] at hr
  exact ⟨rfl, hq.trans (congrArg (fun x => [x]) (Option.some.inj hr))⟩

theorem endings_head (hcalm : s.endings = []) {call : StrandCall} {rest : List StrandCall}
    (hq : s.queue = call :: rest) : call.ends = false := by
  rw [Port.endings, hq, List.filter_eq_nil_iff] at hcalm
  simpa using hcalm call List.mem_cons_self

theorem received_unsent (s : Port) (i : ℕ) (r : RecvReq) (bytes : List UInt8) :
    (s.received i r bytes).wrote = s.wrote ∧ (s.received i r bytes).sent = s.sent := by
  refine ⟨?_, log_sent _ rfl⟩
  simp [Port.wrote, Port.received, Port.log, Event.written]

theorem Flow.transmit (h : Flow s) (ht : Sending t) {i n : ℕ}
    (hs : step (accepting ks) s (.transmit i n) = some t) : Flow t := by
  obtain ⟨r, hr, -, -, -, rfl⟩ := step_transmit_iff.mp hs
  obtain ⟨rfl, hone⟩ := h.sending.only hr
  have hbytes := h.bytes
  have hactive := h.active
  rw [hone] at hbytes hactive
  have hsends : s.sends.set 0 { r with left := r.left.drop n } =
      [{ r with left := r.left.drop n }] := by
    rw [hone]
    rfl
  refine ⟨ht, h.callback, ?_, ?_⟩
  · show (s.sends.set 0 _).length + s.onSends = s.curSend.toList.length
    rw [hsends]
    exact hactive
  · have hwrote : (({ s with sends := s.sends.set 0 { r with left := r.left.drop n } } : Port).log
        (.wrote (r.left.take n))).wrote = s.wrote ++ r.left.take n := by
      simp [Port.wrote, Port.log, Event.written]
    rw [hwrote, log_sent _ rfl]
    show _ ++ (s.sends.set 0 _).flatMap SendReq.left = s.sent.flatMap CmdInfo.cmdBody
    rw [hsends, ← hbytes]
    simp

theorem Flow.sendDone (h : Flow s) (ht : Sending t) {i : ℕ}
    (hs : step (accepting ks) s (.sendDone i) = some t) : Flow t := by
  obtain ⟨r, hr, hleft, rfl⟩ := step_sendDone_iff.mp hs
  obtain ⟨rfl, hone⟩ := h.sending.only hr
  have hbytes := h.bytes
  have hactive := h.active
  have hsends : s.sends.eraseIdx 0 = [] := by
    rw [hone]
    rfl
  rw [hone] at hbytes hactive
  rw [if_pos h.callback, post_free rfl] at ht ⊢
  refine ⟨ht, h.callback, ?_, ?_⟩
  · show (s.sends.eraseIdx 0).length + (s.queue ++ _).countP _ = s.curSend.toList.length
    rw [hsends, List.countP_append, ← hactive, List.countP_cons_of_pos rfl]
    simp only [List.length_nil, List.countP_nil, List.length_singleton, Port.onSends]
    omega
  · show s.wrote ++ (s.sends.eraseIdx 0).flatMap SendReq.left = s.sent.flatMap CmdInfo.cmdBody
    rw [hsends, ← hbytes]
    simp [hleft]

theorem flow_step (h : Flow s) (hopen : s.isOpen = true) (hcalm : s.endings = []) {a : Action}
    (ha : a.disturbs = false) (hs : step (accepting ks) s a = some t) : Flow t := by
  have hsending := sending_step h.sending hs
  cases a with
  | send buf =>
    obtain ⟨-, rfl⟩ | ⟨-, rfl⟩ := step_send_iff.mp hs
    · exact h
    · refine h.of_sendStep hsending rfl rfl (.quiet rfl rfl ?_ rfl)
      exact List.countP_append.trans (Nat.add_zero _)
  | clear => cases ha
  | other =>
    obtain rfl := Option.some.inj hs
    refine h.of_sendStep hsending rfl rfl (.quiet rfl rfl ?_ rfl)
    exact List.countP_append.trans (Nat.add_zero _)
  | work =>
    obtain ⟨call, rest, hq, rfl⟩ := step_work_iff.mp hs
    obtain ⟨hst, hkept⟩ := h.exec (accepting ks) hopen hq (endings_head hcalm hq)
    exact h.of_sendStep hsending hkept.callback hkept.wrote hst
  | recvDone i bytes =>
    obtain ⟨r, -, -, rfl⟩ := step_recvDone_iff.mp hs
    obtain ⟨hwrote, hsent⟩ := received_unsent s i r bytes
    split at hsending
    next hcb =>
      rw [post_free rfl] at hsending
      rw [if_pos hcb, post_free rfl]
      refine h.of_sendStep hsending rfl hwrote (.quiet rfl rfl ?_ hsent)
      exact List.countP_append.trans (Nat.add_zero _)
    next hcb =>
      rw [if_neg hcb]
      exact h.of_sendStep hsending rfl hwrote (.quiet rfl rfl rfl hsent)
  | recvFail i err => cases ha
  | transmit i n => exact h.transmit hsending hs
  | sendDone i => exact h.sendDone hsending hs
  | sendFail i err => cases ha

end

end DevFramework.Netport
