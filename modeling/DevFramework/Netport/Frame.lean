import DevFramework.Netport.Port

/-! # What the parts of a netport leave alone

The receive machine touches no command and no callback, and does nothing to the strand but post an
error; `i_do_clear` is given in one equation.
-/
namespace DevFramework.Netport
set_option autoImplicit false
set_option maxHeartbeats 250000

theorem post_busy {env : Env} {s : Port} (h : env.busy s.queue.length = true) (call : StrandCall) :
    s.post env call = s.log (.refused call) := if_pos h

theorem post_free {env : Env} {s : Port} (h : env.busy s.queue.length = false)
    (call : StrandCall) : s.post env call = { s with queue := s.queue ++ [call] } :=
  if_neg (by simp [h])

theorem post_isOpen {env : Env} (s : Port) (call : StrandCall) :
    (s.post env call).isOpen = s.isOpen := by
  unfold Port.post
  split <;> rfl

theorem post_queue (env : Env) (s : Port) (call : StrandCall) :
    ∃ calls, (s.post env call).queue = s.queue ++ calls ∧ (calls = [] ∨ calls = [call]) := by
  unfold Port.post
  split
  · exact ⟨[], (List.append_nil _).symm, .inl rfl⟩
  · exact ⟨[call], rfl, .inr rfl⟩

/-! ## The receive machine -/

/-- The events of the receive machine. -/
def Event.ofReceiver : Event → Bool
  | .recvReq _ | .recvCb _ | .releaseBuf _ | .nullBody | .refused (.onError _) => true
  | _ => false

/-- `t` is `s` after work of the receive machine that posts the calls `calls`. -/
def RecvOnly (s t : Port) (calls : List StrandCall) : Prop :=
  ∃ flag hasRecved cmdHdr cmdBody bodyLen recvs made evs,
    t = { s with
      flag := flag
      hasRecved := hasRecved
      cmdHdr := cmdHdr
      cmdBody := cmdBody
      bodyLen := bodyLen
      recvs := recvs
      made := made
      queue := s.queue ++ calls
      trace := s.trace ++ evs } ∧
    s.made ≤ made ∧ ∀ e ∈ evs, e.ofReceiver = true

section Receiver
variable {env : Env} {s t u : Port} {calls : List StrandCall}

theorem RecvOnly.trans (h : RecvOnly s t []) (h' : RecvOnly t u calls) : RecvOnly s u calls := by
  obtain ⟨f, hr, ch, cb, bl, rs, m, evs, rfl, hm, hall⟩ := h
  obtain ⟨f', hr', ch', cb', bl', rs', m', evs', rfl, hm', hall'⟩ := h'
  refine ⟨f', hr', ch', cb', bl', rs', m', evs ++ evs', ?_, hm.trans hm', ?_⟩
  · simp
  · intro e he
    rcases List.mem_append.mp he with he | he
    · exact hall e he
    · exact hall' e he

theorem RecvOnly.set (s : Port) (flag hasRecved : ℤ) (cmdHdr cmdBody : Option Buf) (bodyLen : ℤ)
    {made : ℕ} (hm : s.made ≤ made) :
    RecvOnly s { s with
      flag := flag
      hasRecved := hasRecved
      cmdHdr := cmdHdr
      cmdBody := cmdBody
      bodyLen := bodyLen
      made := made } [] :=
  ⟨flag, hasRecved, cmdHdr, cmdBody, bodyLen, s.recvs, made, [], by simp, hm, by simp⟩

theorem RecvOnly.log (s : Port) {e : Event} (he : e.ofReceiver = true) : RecvOnly s (s.log e) [] :=
  ⟨s.flag, s.hasRecved, s.cmdHdr, s.cmdBody, s.bodyLen, s.recvs, s.made, [e], by simp [Port.log],
    le_rfl, by simpa⟩

theorem RecvOnly.refl (s : Port) : RecvOnly s s [] := .set s _ _ _ _ _ le_rfl

theorem RecvOnly.queue (h : RecvOnly s t calls) : t.queue = s.queue ++ calls := by
  obtain ⟨_, _, _, _, _, _, _, evs, rfl, -, -⟩ := h
  rfl

theorem RecvOnly.trace (h : RecvOnly s t calls) : s.trace <+: t.trace := by
  obtain ⟨_, _, _, _, _, _, _, evs, rfl, -, -⟩ := h
  exact List.prefix_append _ _

theorem asyncRecv_frame (s : Port) (buf : Option Buf) (offset len : ℤ) :
    RecvOnly s (s.asyncRecv buf offset len) [] := by
  unfold Port.asyncRecv
  split
  · exact .refl s
  · simp only
    split
    · exact .refl s
    · exact ⟨s.flag, s.hasRecved, s.cmdHdr, s.cmdBody, s.bodyLen, _, s.made, [_],
        by simp only [Port.log, List.append_nil]; rfl, le_rfl, by simp [Event.ofReceiver]⟩

theorem iProcessCommand_frame (env : Env) (s : Port) : RecvOnly s (s.iProcessCommand env) [] := by
  unfold Port.iProcessCommand
  simp only
  split
  · exact .refl s
  split
  · exact .log s rfl
  split <;> exact .log s rfl

theorem freeBody_frame (s : Port) : RecvOnly s s.freeBody [] := by
  unfold Port.freeBody
  split
  · exact .refl s
  · exact (RecvOnly.set s _ _ _ _ _ le_rfl).trans (.log _ rfl)

theorem recvBody_frame (env : Env) (s : Port) : RecvOnly s (s.recvBody env) [] :=
  (iProcessCommand_frame env s).trans <| (freeBody_frame _).trans <|
    (RecvOnly.set _ _ _ _ _ _ le_rfl).trans (asyncRecv_frame _ _ _ _)

theorem iOnError_frame (env : Env) (s : Port) (err : ℤ) :
    ∃ calls, RecvOnly s (s.iOnError env err) calls ∧ (calls = [] ∨ calls = [.onError err]) := by
  unfold Port.iOnError Port.post
  split
  · exact ⟨[], .log s rfl, .inl rfl⟩
  · exact ⟨[.onError err], ⟨s.flag, s.hasRecved, s.cmdHdr, s.cmdBody, s.bodyLen, s.recvs, s.made,
      [], by simp, le_rfl, by simp⟩, .inr rfl⟩

/-- `i_on_recv_strand` posts nothing but the error for a bad header. -/
theorem iOnRecvStrand_frame (env : Env) (s : Port) (bt err : ℤ) :
    ∃ calls, RecvOnly s (s.iOnRecvStrand env bt err) calls ∧
      (calls = [] ∨ calls = [.onError badHeader]) := by
  unfold Port.iOnRecvStrand
  split
  · exact ⟨[], .refl s, .inl rfl⟩
  split
  · exact ⟨[], recvBody_frame env s, .inl rfl⟩
  split
  · unfold Port.recvHeader
    split
    · exact iOnError_frame env s badHeader
    · simp only
      split
      · split <;>
          exact ⟨[], (RecvOnly.set s _ _ _ _ _ (Nat.le_succ _)).trans (asyncRecv_frame _ _ _ _),
            .inl rfl⟩
      · exact ⟨[], (RecvOnly.set s _ _ _ _ _ le_rfl).trans (recvBody_frame env _), .inl rfl⟩
  split
  · unfold Port.recvPart
    simp only
    split
    · exact ⟨[], (RecvOnly.set s _ _ _ _ _ le_rfl).trans (recvBody_frame env _), .inl rfl⟩
    · exact ⟨[], (RecvOnly.set s _ _ _ _ _ le_rfl).trans (asyncRecv_frame _ _ _ _), .inl rfl⟩
  · exact ⟨[], .refl s, .inl rfl⟩

end Receiver

/-! ## The send side -/

def StrandCall.isOnRecv : StrandCall → Bool
  | .onRecv _ _ => true
  | _ => false

/-- The calls that end a connection. -/
def StrandCall.ends : StrandCall → Bool
  | .onError _ | .doClear => true
  | _ => false

/-- The events of the send side. -/
def Event.ofSender : Event → Bool
  | .sendReq _ | .wrote _ | .sendCb _ | .release _ => true
  | .refused call => !call.isOnRecv
  | _ => false

/-- `t` is `s` after work of the send side that posts the calls `calls`. -/
def SendOnly (s t : Port) (calls : List StrandCall) : Prop :=
  ∃ curSend cmdInfoList sockErrCb sends made posted evs,
    t = { s with
      curSend := curSend
      cmdInfoList := cmdInfoList
      sockErrCb := sockErrCb
      sends := sends
      made := made
      posted := posted
      queue := s.queue ++ calls
      trace := s.trace ++ evs } ∧
    s.made ≤ made ∧ ∀ e ∈ evs, e.ofSender = true

section Sender
variable {env : Env} {s t u : Port} {calls : List StrandCall}

theorem SendOnly.trans (h : SendOnly s t []) (h' : SendOnly t u calls) : SendOnly s u calls := by
  obtain ⟨cs, l, ec, ss, m, ps, evs, rfl, hm, hall⟩ := h
  obtain ⟨cs', l', ec', ss', m', ps', evs', rfl, hm', hall'⟩ := h'
  refine ⟨cs', l', ec', ss', m', ps', evs ++ evs', ?_, hm.trans hm', ?_⟩
  · simp
  · intro e he
    rcases List.mem_append.mp he with he | he
    · exact hall e he
    · exact hall' e he

theorem SendOnly.set (s : Port) (curSend : Option CmdInfo) (cmdInfoList : List CmdInfo)
    (sockErrCb : Bool) (sends : List SendReq) (posted : List CmdInfo) {made : ℕ}
    (hm : s.made ≤ made) :
    SendOnly s { s with
      curSend := curSend
      cmdInfoList := cmdInfoList
      sockErrCb := sockErrCb
      sends := sends
      made := made
      posted := posted } [] :=
  ⟨curSend, cmdInfoList, sockErrCb, sends, made, posted, [], by simp, hm, by simp⟩

theorem SendOnly.log (s : Port) {e : Event} (he : e.ofSender = true) : SendOnly s (s.log e) [] :=
  ⟨s.curSend, s.cmdInfoList, s.sockErrCb, s.sends, s.made, s.posted, [e], by simp [Port.log],
    le_rfl, by simpa⟩

theorem SendOnly.refl (s : Port) : SendOnly s s [] := .set s _ _ _ _ _ le_rfl

theorem SendOnly.queue (h : SendOnly s t calls) : t.queue = s.queue ++ calls := by
  obtain ⟨_, _, _, _, _, _, evs, rfl, -, -⟩ := h
  rfl

theorem SendOnly.recvs (h : SendOnly s t calls) : t.recvs = s.recvs := by
  obtain ⟨_, _, _, _, _, _, evs, rfl, -, -⟩ := h
  rfl

theorem SendOnly.trace (h : SendOnly s t calls) : s.trace <+: t.trace := by
  obtain ⟨_, _, _, _, _, _, evs, rfl, -, -⟩ := h
  exact List.prefix_append _ _

theorem post_frame (env : Env) (s : Port) {call : StrandCall} (hcall : call.isOnRecv = false) :
    ∃ calls, SendOnly s (s.post env call) calls ∧ (calls = [] ∨ calls = [call]) := by
  unfold Port.post
  split
  · exact ⟨[], .log s (by simp [Event.ofSender, hcall]), .inl rfl⟩
  · exact ⟨[call], ⟨s.curSend, s.cmdInfoList, s.sockErrCb, s.sends, s.made, s.posted, [], by simp,
      le_rfl, by simp⟩, .inr rfl⟩

theorem asyncSend_frame (s : Port) (ci : CmdInfo) : SendOnly s (s.asyncSend ci) [] := by
  unfold Port.asyncSend
  simp only
  split
  · exact .refl s
  · exact (SendOnly.set s _ _ _ _ _ le_rfl).trans (.log _ rfl)

theorem iSendMessageStrand_frame (s : Port) (ci : CmdInfo) :
    SendOnly s (s.iSendMessageStrand ci) [] := by
  unfold Port.iSendMessageStrand
  split
  · exact .log s rfl
  split
  · exact .set s _ _ _ _ _ le_rfl
  · exact (SendOnly.set s _ _ _ _ _ le_rfl).trans (asyncSend_frame _ ci)

theorem releaseCurSend_frame (s : Port) : SendOnly s s.releaseCurSend [] := by
  unfold Port.releaseCurSend
  split
  · exact .refl s
  · exact (SendOnly.set s _ _ _ _ _ le_rfl).trans (.log _ rfl)

theorem iOnSendStrand_frame (s : Port) (bt : ℤ) : SendOnly s (s.iOnSendStrand bt) [] := by
  have hcb : SendOnly s (if s.sendCb then s.log (.sendCb bt) else s) [] := by
    split
    · exact .log s rfl
    · exact .refl s
  have hrelease := hcb.trans (releaseCurSend_frame _)
  unfold Port.iOnSendStrand
  simp only
  split
  · exact hrelease
  · exact hrelease.trans ((SendOnly.set _ _ _ _ _ _ le_rfl).trans (iSendMessageStrand_frame _ _))

theorem sendMessage_frame (env : Env) (s : Port) (buf : List UInt8) :
    ∃ calls, SendOnly s (s.sendMessage env buf) calls ∧
      (calls = [] ∨ calls = [.sendMessage ⟨s.made, Port.command env.ks buf⟩]) := by
  unfold Port.sendMessage
  simp only
  split
  · exact ⟨[], (SendOnly.set s _ _ _ _ _ (Nat.le_succ _)).trans (.log _ rfl), .inl rfl⟩
  · exact ⟨_, ⟨s.curSend, s.cmdInfoList, s.sockErrCb, s.sends, s.made + 1, _, [],
      by simp only [List.append_nil]; rfl, Nat.le_succ _, by simp⟩, .inr rfl⟩

theorem errorOccur_frame (env : Env) (s : Port) (err : ℤ) :
    ∃ calls, SendOnly s (s.errorOccur env err) calls ∧ (calls = [] ∨ calls = [.onError err]) := by
  unfold Port.errorOccur
  split
  · obtain ⟨calls, hpost, hcalls⟩ := post_frame env { s with sockErrCb := false }
      (show (StrandCall.onError err).isOnRecv = false from rfl)
    exact ⟨calls, (SendOnly.set s _ _ _ _ _ le_rfl).trans hpost, hcalls⟩
  · exact ⟨[], .refl s, .inl rfl⟩

end Sender

/-! ## Clearing -/

/-- What `i_do_clear` releases, in its order. -/
def clearEvents (s : Port) : List Event :=
  s.cmdInfoList.map Event.release ++ s.curSend.toList.map Event.release ++
    (s.cmdHdr.toList ++ s.cmdBody.toList).map (fun b => Event.releaseBuf b.id) ++ [.cleared]

theorem iDoClear_eq (s : Port) : s.iDoClear = { s with
    recvCb := false
    sendCb := false
    errCb := false
    curSend := none
    cmdInfoList := []
    isOpen := false
    sockRecvCb := !s.isOpen && s.sockRecvCb
    sockSendCb := !s.isOpen && s.sockSendCb
    sockErrCb := !s.isOpen && s.sockErrCb
    cmdHdr := none
    cmdBody := none
    trace := s.trace ++ clearEvents s } := by
  obtain ⟨flag, hasRecved, cmdHdr, cmdBody, bodyLen, errCb, recvCb, sendCb, curSend, cmdInfoList,
    isOpen, sockRecvCb, sockSendCb, sockErrCb, recvs, sends, queue, made, posted, trace⟩ := s
  cases isOpen <;> cases curSend <;> cases cmdHdr <;> cases cmdBody <;>
    simp [Port.iDoClear, Port.close, Port.releaseCurSend, Port.freeBody, Port.log, clearEvents]

/-- A strand call posts nothing but the error for a bad header. -/
theorem exec_posts (env : Env) (s : Port) (call : StrandCall) :
    ∃ calls, (s.exec env call).queue = s.queue ++ calls ∧
      (calls = [] ∨ call.isOnRecv = true ∧ calls = [.onError badHeader]) := by
  cases call with
  | sendMessage ci => exact ⟨[], (iSendMessageStrand_frame s ci).queue, .inl rfl⟩
  | onRecv bt err =>
    obtain ⟨calls, hr, hcalls⟩ := iOnRecvStrand_frame env s bt err
    exact ⟨calls, hr.queue, hcalls.imp_right fun h => ⟨rfl, h⟩⟩
  | onSend bt err => exact ⟨[], (iOnSendStrand_frame s bt).queue, .inl rfl⟩
  | onError err =>
    refine ⟨[], ?_, .inl rfl⟩
    rw [List.append_nil]
    simp only [Port.exec, Port.iOnErrorStrand, iDoClear_eq]
    split <;> rfl
  | doClear =>
    refine ⟨[], ?_, .inl rfl⟩
    rw [List.append_nil]
    simp only [Port.exec, iDoClear_eq]
  | other => exact ⟨[], (List.append_nil _).symm, .inl rfl⟩

/-! ## What a step is -/

section Step
variable {env : Env} {s t : Port}

theorem step_send_iff {buf : List UInt8} : step env s (.send buf) = some t ↔
    buf = [] ∧ t = s ∨ headerLen ≤ buf.length ∧ t = s.sendMessage env buf := by
  have hpos : 0 < headerLen := by decide
  cases buf with
  | nil => simp [step, eq_comm, hpos.ne']
  | cons b bs => simp [step, @eq_comm _ t]

theorem step_work_iff : step env s .work = some t ↔
    ∃ call rest, s.queue = call :: rest ∧ t = { s with queue := rest }.exec env call := by
  simp only [step, Port.work]
  split
  next hq => simp [hq]
  next call rest hq => simp [hq, @eq_comm _ t]

theorem step_recvDone_iff {i : ℕ} {bytes : List UInt8} : step env s (.recvDone i bytes) = some t ↔
    ∃ r, s.recvs[i]? = some r ∧ (bytes.length : ℤ) = r.len ∧
      t = if s.sockRecvCb then (s.received i r bytes).post env (.onRecv r.len 0)
        else s.received i r bytes := by
  simp only [step, Port.recvDone]
  split
  next hr => simp [hr]
  next r hr =>
    simp only [hr, Option.some.injEq, exists_eq_left']
    rw [ite_not]
    split
    next hlen => exact ⟨fun h => ⟨hlen, (Option.some.inj h).symm⟩, fun h => h.2 ▸ rfl⟩
    next hlen => simp [hlen]

theorem step_recvFail_iff {i : ℕ} {err : ℤ} : step env s (.recvFail i err) = some t ↔
    i < s.recvs.length ∧ t = { s with recvs := s.recvs.eraseIdx i }.errorOccur env err := by
  simp only [step, Port.recvFail]
  split
  next hr => simpa using fun hi => absurd (List.getElem?_eq_none_iff.mp hr) (Nat.not_le.mpr hi)
  next r hr => simp [(List.getElem?_eq_some_iff.mp hr).1, @eq_comm _ t]

theorem step_transmit_iff {i n : ℕ} : step env s (.transmit i n) = some t ↔
    ∃ r, s.sends[i]? = some r ∧ n ≠ 0 ∧ n ≤ r.left.length ∧ s.isOpen = true ∧
      t = { s with sends := s.sends.set i { r with left := r.left.drop n } }.log
        (.wrote (r.left.take n)) := by
  simp only [step, Port.transmit]
  split
  next hr => simp [hr]
  next r hr =>
    simp only [hr, Option.some.injEq, exists_eq_left']
    split
    next h =>
      refine iff_of_false nofun ?_
      rintro ⟨h0, hle, ho, -⟩
      rcases h with h | h | h
      · exact h0 h
      · omega
      · simp [h] at ho
    next h =>
      push Not at h
      simp [h, @eq_comm _ t]

theorem step_sendDone_iff {i : ℕ} : step env s (.sendDone i) = some t ↔
    ∃ r, s.sends[i]? = some r ∧ r.left = [] ∧
      t = if s.sockSendCb then
          { s with sends := s.sends.eraseIdx i }.post env (.onSend r.cmd.cmdBody.length 0)
        else { s with sends := s.sends.eraseIdx i } := by
  simp only [step, Port.sendDone]
  split
  next hr => simp [hr]
  next r hr => cases hleft : r.left <;> simp [hr, hleft, @eq_comm _ t]

theorem step_sendFail_iff {i : ℕ} {err : ℤ} : step env s (.sendFail i err) = some t ↔
    i < s.sends.length ∧ t = { s with sends := s.sends.eraseIdx i }.errorOccur env err := by
  simp only [step, Port.sendFail]
  split
  next hr => simpa using fun hi => absurd (List.getElem?_eq_none_iff.mp hr) (Nat.not_le.mpr hi)
  next r hr => simp [(List.getElem?_eq_some_iff.mp hr).1, @eq_comm _ t]

/-- The steps of the send side and of the owner of the netport. -/
def Action.ofSender : Action → Bool
  | .send _ | .clear | .other | .transmit _ _ | .sendDone _ | .sendFail _ _ => true
  | _ => false

/-- The steps that end a connection from outside. -/
def Action.disturbs : Action → Bool
  | .clear | .recvFail _ _ | .sendFail _ _ => true
  | _ => false

/-- They leave the receive machine alone, post no receive completion, and end the connection only
when they are there for it. -/
theorem sender_step_frame {a : Action} (ha : a.ofSender = true) (hs : step env s a = some t) :
    ∃ calls, SendOnly s t calls ∧
      ∀ call ∈ calls, call.isOnRecv = false ∧ (call.ends = true → a.disturbs = true) := by
  have hone : ∀ {u : Port} {call : StrandCall}, call.isOnRecv = false →
      (call.ends = true → a.disturbs = true) →
      (∃ calls, SendOnly s u calls ∧ (calls = [] ∨ calls = [call])) →
      ∃ calls, SendOnly s u calls ∧
        ∀ call ∈ calls, call.isOnRecv = false ∧ (call.ends = true → a.disturbs = true) := by
    rintro u call hcall hends ⟨calls, hu, rfl | rfl⟩
    · exact ⟨[], hu, by simp⟩
    · exact ⟨[call], hu, by simpa using ⟨hcall, hends⟩⟩
  cases a with
  | send buf =>
    obtain ⟨-, rfl⟩ | ⟨-, rfl⟩ := step_send_iff.mp hs
    · exact ⟨[], .refl _, by simp⟩
    · exact hone rfl (by simp [StrandCall.ends]) (sendMessage_frame env s buf)
  | clear =>
    obtain rfl := Option.some.inj hs
    exact hone rfl (fun _ => rfl) (post_frame env s rfl)
  | other =>
    obtain rfl := Option.some.inj hs
    exact hone rfl (by simp [StrandCall.ends]) (post_frame env s rfl)
  | transmit i n =>
    obtain ⟨r, -, -, -, -, rfl⟩ := step_transmit_iff.mp hs
    exact ⟨[], (SendOnly.set s _ _ _ _ _ le_rfl).trans (.log _ rfl), by simp⟩
  | sendDone i =>
    obtain ⟨r, -, -, rfl⟩ := step_sendDone_iff.mp hs
    have hset : SendOnly s { s with sends := s.sends.eraseIdx i } [] := .set s _ _ _ _ _ le_rfl
    split
    · obtain ⟨calls, hpost, hcalls⟩ := post_frame env { s with sends := s.sends.eraseIdx i }
        (show (StrandCall.onSend r.cmd.cmdBody.length 0).isOnRecv = false from rfl)
      exact hone rfl (by simp [StrandCall.ends]) ⟨calls, hset.trans hpost, hcalls⟩
    · exact ⟨[], hset, by simp⟩
  | sendFail i err =>
    obtain ⟨-, rfl⟩ := step_sendFail_iff.mp hs
    obtain ⟨calls, herr, hcalls⟩ := errorOccur_frame env { s with sends := s.sends.eraseIdx i } err
    exact hone (show (StrandCall.onError err).isOnRecv = false from rfl) (fun _ => rfl)
      ⟨calls, (SendOnly.set s _ _ _ _ _ le_rfl).trans herr, hcalls⟩
  | work => cases ha
  | recvDone i bytes => cases ha
  | recvFail i err => cases ha

/-! ## The trace -/

theorem post_trace (s : Port) (call : StrandCall) : s.trace <+: (s.post env call).trace := by
  unfold Port.post
  split
  · exact List.prefix_append _ _
  · exact List.prefix_rfl

theorem iDoClear_trace (s : Port) : s.trace <+: s.iDoClear.trace := by
  rw [iDoClear_eq]
  exact List.prefix_append _ _

theorem exec_trace (s : Port) (call : StrandCall) : s.trace <+: (s.exec env call).trace := by
  cases call with
  | sendMessage ci => exact (iSendMessageStrand_frame s ci).trace
  | onRecv bt err =>
    obtain ⟨calls, hr, -⟩ := iOnRecvStrand_frame env s bt err
    exact hr.trace
  | onSend bt err => exact (iOnSendStrand_frame s bt).trace
  | onError err =>
    refine List.IsPrefix.trans ?_ (iDoClear_trace _)
    split
    · exact List.prefix_append _ _
    · exact List.prefix_rfl
  | doClear => exact iDoClear_trace s
  | other => exact List.prefix_rfl

theorem step_trace {a : Action} (hs : step env s a = some t) : s.trace <+: t.trace := by
  by_cases ha : a.ofSender = true
  · obtain ⟨calls, hst, -⟩ := sender_step_frame ha hs
    exact hst.trace
  cases a with
  | work =>
    obtain ⟨call, rest, -, rfl⟩ := step_work_iff.mp hs
    exact exec_trace { s with queue := rest } call
  | recvDone i bytes =>
    obtain ⟨r, -, -, rfl⟩ := step_recvDone_iff.mp hs
    have hreceived : s.trace <+: (s.received i r bytes).trace := List.prefix_append _ _
    split
    · exact hreceived.trans (post_trace _ _)
    · exact hreceived
  | recvFail i err =>
    obtain ⟨-, rfl⟩ := step_recvFail_iff.mp hs
    obtain ⟨calls, hst, -⟩ := errorOccur_frame env { s with recvs := s.recvs.eraseIdx i } err
    exact hst.trace
  | _ => exact absurd rfl ha

end Step

end DevFramework.Netport
