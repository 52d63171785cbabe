import DevFramework.ThreadPool.Pool
import DevFramework.Foundations.Transition
import DevFramework.Netport.Receiver
import DevFramework.Netport.Sending

/-! # When a connection stalls

The receive machine lives from one completion to the next, and each of them needs a strand call.
When the worker has more than `MAX_TASK_SIZE` calls, `post_call` refuses it; nobody looks at the
answer.
-/
namespace DevFramework.Netport
open Transition ThreadPool
set_option autoImplicit false
set_option maxHeartbeats 250000

/-- An error or a clear is queued or has been handled. -/
def Ending (s : Port) : Prop := (∃ call ∈ s.queue, call.ends = true) ∨ Event.cleared ∈ s.trace

/-- Something will move the connection on. -/
def Alive (s : Port) : Prop :=
  s.recvs ≠ [] ∨ (∃ call ∈ s.queue, call.isOnRecv = true) ∨ Ending s

/-- What the receive machine relies on until the netport is cleared. -/
structure Ready (s : Port) : Prop where
  isOpen : s.isOpen = true
  callback : s.sockRecvCb = true
  hdr : ∃ b, s.cmdHdr = some b
  phase : s.flag = 0 ∨ s.flag = 1 ∨ s.flag = 2 ∧ ∃ b, s.cmdBody = some b

/-- The header that has come is not one. -/
def BadHdr (s : Port) : Prop := s.flag = 1 ∧ clone ((s.cmdHdr.map Buf.bytes).getD []) = none

/-- Unless the connection is ending, the worker takes what keeps it alive: the completion of a read,
the error of a failed read (which is the first error of the socket), the error for a bad header. -/
def Answered (env : Env) (s : Port) : Action → Prop
  | .recvDone _ _ => Ending s ∨ env.busy s.queue.length = false
  | .recvFail _ _ => Ending s ∨ s.sockErrCb = true ∧ env.busy s.queue.length = false
  | .work => Ending s ∨ ∀ bt err rest, s.queue = .onRecv bt err :: rest → BadHdr s →
      env.busy rest.length = false
  | _ => True

section
variable {env : Env} {s t : Port} {calls : List StrandCall}

/-! ## Ending -/

theorem Ending.of_append (h : Ending s) (hqueue : t.queue = s.queue ++ calls)
    (htrace : s.trace <+: t.trace) : Ending t := by
  rcases h with ⟨call, hcall, hends⟩ | h
  · exact .inl ⟨call, by rw [hqueue]; exact List.mem_append_left _ hcall, hends⟩
  · exact .inr (htrace.subset h)

theorem iDoClear_cleared (s : Port) : Event.cleared ∈ s.iDoClear.trace := by
  rw [iDoClear_eq]
  simp [clearEvents]

theorem Ending.exec {call : StrandCall} (h : call.ends = true ∨ Ending s) :
    Ending (s.exec env call) := by
  cases call with
  | onError err => exact .inr (iDoClear_cleared _)
  | doClear => exact .inr (iDoClear_cleared _)
  | sendMessage ci =>
    exact (h.resolve_left nofun).of_append (iSendMessageStrand_frame s ci).queue (exec_trace s _)
  | onRecv bt err =>
    obtain ⟨calls, hr, -⟩ := iOnRecvStrand_frame env s bt err
    exact (h.resolve_left nofun).of_append hr.queue hr.trace
  | onSend bt err =>
    exact (h.resolve_left nofun).of_append (iOnSendStrand_frame s bt).queue (exec_trace s _)
  | other => exact h.resolve_left nofun

theorem ending_step (h : Ending s) {a : Action} (hs : step env s a = some t) : Ending t := by
  by_cases ha : a.ofSender = true
  · obtain ⟨calls, hst, -⟩ := sender_step_frame ha hs
    exact h.of_append hst.queue hst.trace
  cases a with
  | work =>
    obtain ⟨call, rest, hq, rfl⟩ := step_work_iff.mp hs
    refine Ending.exec ?_
    rcases h with ⟨c, hc, hends⟩ | h
    · rw [hq] at hc
      rcases List.mem_cons.mp hc with rfl | hc
      · exact .inl hends
      · exact .inr (.inl ⟨c, hc, hends⟩)
    · exact .inr (.inr h)
  | recvDone i bytes =>
    have htrace := step_trace hs
    obtain ⟨r, -, -, rfl⟩ := step_recvDone_iff.mp hs
    split at htrace
    next hcb =>
      obtain ⟨calls, hqueue, -⟩ := post_queue env (s.received i r bytes) (.onRecv r.len 0)
      rw [if_pos hcb]
      exact h.of_append hqueue htrace
    next hcb =>
      rw [if_neg hcb]
      exact h.of_append (List.append_nil _).symm htrace
  | recvFail i err =>
    obtain ⟨-, rfl⟩ := step_recvFail_iff.mp hs
    obtain ⟨calls, hst, -⟩ := errorOccur_frame env { s with recvs := s.recvs.eraseIdx i } err
    exact h.of_append hst.queue hst.trace
  | _ => exact absurd rfl ha

/-! ## The receive machine stays ready -/

theorem SendOnly.ready (hst : SendOnly s t calls) (h : Ready s) : Ready t := by
  obtain ⟨_, _, _, _, _, _, evs, rfl, -, -⟩ := hst
  exact ⟨h.isOpen, h.callback, h.hdr, h.phase⟩

theorem Ready.received (h : Ready s) (i : ℕ) (r : RecvReq) (bytes : List UInt8) :
    Ready (s.received i r bytes) := by
  refine ⟨h.isOpen, h.callback, ?_, h.phase.imp_right (Or.imp_right fun hp => ⟨hp.1, ?_⟩)⟩
  · obtain ⟨b, hb⟩ := h.hdr
    exact ⟨Port.fill r bytes b, by simp [Port.received, Port.log, hb]⟩
  · obtain ⟨b, hb⟩ := hp.2
    exact ⟨Port.fill r bytes b, by simp [Port.received, Port.log, hb]⟩

theorem Ready.post (h : Ready s) (call : StrandCall) : Ready (s.post env call) := by
  unfold Port.post
  split
  · exact ⟨h.isOpen, h.callback, h.hdr, h.phase⟩
  · exact ⟨h.isOpen, h.callback, h.hdr, h.phase⟩

theorem Ready.recvBody (env : Env) (h : Ready s) :
    Ready (s.recvBody env) ∧ (s.recvBody env).queue = s.queue ∧
      ∃ r, (s.recvBody env).recvs = s.recvs ++ [r] := by
  obtain ⟨b, hb⟩ := h.hdr
  rw [recvBody_eq h.isOpen hb]
  exact ⟨⟨h.isOpen, h.callback, ⟨_, rfl⟩, .inr (.inl rfl)⟩, rfl, _, rfl⟩

/-- One strand call of the receive machine: it asks for the next bytes, or the header is bad. -/
theorem Ready.onRecv (env : Env) (h : Ready s) (bt : ℤ) :
    (Ready (s.iOnRecvStrand env bt 0) ∧ (s.iOnRecvStrand env bt 0).queue = s.queue ∧ ¬ BadHdr s ∧
      ∃ r, (s.iOnRecvStrand env bt 0).recvs = s.recvs ++ [r]) ∨
    BadHdr s ∧ s.iOnRecvStrand env bt 0 = s.iOnError env badHeader := by
  obtain ⟨b, hb⟩ := h.hdr
  have hset : Ready { s with flag := 0 } := ⟨h.isOpen, h.callback, h.hdr, .inl rfl⟩
  have hset' : Ready { s with hasRecved := 0, flag := 0 } := ⟨h.isOpen, h.callback, h.hdr, .inl rfl⟩
  have hgood : s.flag ≠ 1 → ¬ BadHdr s := fun hf hbad => hf hbad.1
  rcases h.phase with hf | hf | ⟨hf, b', hb'⟩
  · rw [iOnRecvStrand_body h.isOpen hf]
    obtain ⟨hready, hqueue, hrecvs⟩ := h.recvBody env
    exact .inl ⟨hready, hqueue, hgood (by omega), hrecvs⟩
  · rw [iOnRecvStrand_header h.isOpen hf]
    cases hsh : clone b.bytes with
    | none =>
      refine .inr ⟨⟨hf, ?_⟩, recvHeader_bad hb hsh⟩
      rw [hb]
      exact hsh
    | some sh =>
      have hnot : ¬ BadHdr s := by
        rintro ⟨-, hbad⟩
        rw [hb] at hbad
        exact absurd (hsh.symm.trans hbad) (by simp)
      by_cases hn : getBodyLen sh ≤ 0
      · rw [recvHeader_alone hb hsh hn]
        obtain ⟨hready, hqueue, hrecvs⟩ := hset.recvBody env
        exact .inl ⟨hready, hqueue, hnot, hrecvs⟩
      · rw [recvHeader_body h.isOpen hb hsh (not_le.mp hn)]
        refine .inl ⟨⟨h.isOpen, h.callback, ⟨b, hb⟩, ?_⟩, rfl, hnot, _, rfl⟩
        simp only
        split
        · exact .inr (.inr ⟨rfl, _, rfl⟩)
        · exact .inl rfl
  · rw [iOnRecvStrand_part h.isOpen hf]
    by_cases hlast : s.hasRecved + bt = s.bodyLen
    · rw [recvPart_last hlast]
      obtain ⟨hready, hqueue, hrecvs⟩ := hset'.recvBody env
      exact .inl ⟨hready, hqueue, hgood (by omega), hrecvs⟩
    · rw [recvPart_next h.isOpen hb' hlast]
      exact .inl ⟨⟨h.isOpen, h.callback, h.hdr, .inr (.inr ⟨hf, b', hb'⟩)⟩, rfl, hgood (by omega), _,
        rfl⟩

/-! ## At most one read -/

/-- One read at most is outstanding or completed; the completions are of successful reads. -/
structure Fed (s : Port) : Prop where
  state : Ready s ∨ s.isOpen = false ∧ Event.cleared ∈ s.trace
  succeeded : ∀ bt err, .onRecv bt err ∈ s.queue → err = 0
  single : s.recvs.length + s.queue.countP StrandCall.isOnRecv ≤ 1

theorem fed_bound (load : ℕ) : Fed (bound load) := by
  refine ⟨.inl ⟨rfl, rfl, ⟨_, rfl⟩, .inr (.inl rfl)⟩, ?_, ?_⟩
  · intro bt err hmem
    cases List.eq_of_mem_replicate hmem
  · have : (bound load).queue.countP StrandCall.isOnRecv = 0 := by
      rw [List.countP_eq_zero]
      intro call hcall
      rw [List.eq_of_mem_replicate hcall]
      decide
    rw [this]
    rfl

theorem alive_bound (load : ℕ) : Alive (bound load) := .inl (List.cons_ne_nil _ _)

theorem not_ending_bound (load : ℕ) : ¬ Ending (bound load) := by
  rintro (⟨call, hcall, hends⟩ | h)
  · cases List.eq_of_mem_replicate hcall
    cases hends
  · simp [bound] at h

theorem SendOnly.fed (hst : SendOnly s t calls) (hcalls : ∀ call ∈ calls, call.isOnRecv = false)
    (h : Fed s) : Fed t := by
  have hready := hst.ready
  have htrace := hst.trace
  obtain ⟨_, _, _, _, _, _, evs, rfl, -, -⟩ := hst
  refine ⟨h.state.imp hready fun hc => ⟨hc.1, htrace.subset hc.2⟩, ?_, ?_⟩
  · intro bt err hmem
    rcases List.mem_append.mp hmem with hmem | hmem
    · exact h.succeeded bt err hmem
    · exact absurd (hcalls _ hmem) (by simp [StrandCall.isOnRecv])
  · have : calls.countP StrandCall.isOnRecv = 0 :=
      List.countP_eq_zero.mpr fun call hcall => by simp [hcalls call hcall]
    simpa [this] using h.single

theorem Fed.pop (h : Fed s) {call : StrandCall} {rest : List StrandCall}
    (hq : s.queue = call :: rest) : Fed { s with queue := rest } := by
  refine ⟨h.state.imp_left fun hr => ⟨hr.isOpen, hr.callback, hr.hdr, hr.phase⟩, ?_, ?_⟩
  · intro bt err hmem
    exact h.succeeded bt err (by rw [hq]; exact List.mem_cons_of_mem _ hmem)
  · have hcount : rest.countP StrandCall.isOnRecv ≤ s.queue.countP StrandCall.isOnRecv := by
      rw [hq, List.countP_cons]
      omega
    exact (Nat.add_le_add_left hcount _).trans h.single

theorem Fed.doClear (h : Fed s) : Fed s.iDoClear := by
  have hcleared := iDoClear_cleared s
  rw [iDoClear_eq] at hcleared ⊢
  exact ⟨.inr ⟨rfl, hcleared⟩, h.succeeded, h.single⟩

theorem Fed.onRecv (h : Fed s) {bt err : ℤ} {rest : List StrandCall}
    (hq : s.queue = .onRecv bt err :: rest) :
    Fed ({ s with queue := rest }.iOnRecvStrand env bt err) := by
  obtain rfl := h.succeeded bt err (by rw [hq]; exact List.mem_cons_self)
  have hpop := h.pop hq
  have hnone : s.recvs = [] ∧ rest.countP StrandCall.isOnRecv = 0 := by
    have hsingle := h.single
    rw [hq, List.countP_cons_of_pos rfl] at hsingle
    exact ⟨List.length_eq_zero_iff.mp (by omega), by omega⟩
  rcases hpop.state with hready | ⟨hclosed, hcleared⟩
  · rcases hready.onRecv env bt with ⟨hready', hqueue, -, r, hrecvs⟩ | ⟨-, hbad⟩
    · refine ⟨.inl hready', ?_, ?_⟩
      · rw [hqueue]
        exact hpop.succeeded
      · rw [hrecvs, hqueue]
        simp [hnone.1, hnone.2]
    · rw [hbad]
      obtain ⟨calls, hpost, hcalls⟩ := post_frame env { s with queue := rest }
        (show (StrandCall.onError badHeader).isOnRecv = false from rfl)
      refine hpost.fed ?_ hpop
      rcases hcalls with rfl | rfl <;> simp [StrandCall.isOnRecv]
  · rw [show ({ s with queue := rest } : Port).iOnRecvStrand env bt 0 = _ from if_pos (.inr hclosed)]
    exact hpop

theorem Fed.exec (h : Fed s) {call : StrandCall} {rest : List StrandCall}
    (hq : s.queue = call :: rest) : Fed ({ s with queue := rest }.exec env call) := by
  have hpop := h.pop hq
  cases call with
  | sendMessage ci => exact (iSendMessageStrand_frame _ ci).fed (by simp) hpop
  | onRecv bt err => exact h.onRecv hq
  | onSend bt err => exact (iOnSendStrand_frame _ bt).fed (by simp) hpop
  | onError err =>
    refine Fed.doClear ?_
    split
    · exact ⟨hpop.state.imp (fun hr => ⟨hr.isOpen, hr.callback, hr.hdr, hr.phase⟩)
        fun hc => ⟨hc.1, List.mem_append_left _ hc.2⟩, hpop.succeeded, hpop.single⟩
    · exact hpop
  | doClear => exact hpop.doClear
  | other => exact hpop

theorem fed_step (h : Fed s) {a : Action} (hs : step env s a = some t) : Fed t := by
  by_cases ha : a.ofSender = true
  · obtain ⟨calls, hst, hcalls⟩ := sender_step_frame ha hs
    exact hst.fed (fun call hcall => (hcalls call hcall).1) h
  cases a with
  | work =>
    obtain ⟨call, rest, hq, rfl⟩ := step_work_iff.mp hs
    exact h.exec hq
  | recvDone i bytes =>
    obtain ⟨r, hr, -, rfl⟩ := step_recvDone_iff.mp hs
    have hlen : (s.recvs.eraseIdx i).length + 1 = s.recvs.length := by
      obtain ⟨hi, -⟩ := List.getElem?_eq_some_iff.mp hr
      rw [List.length_eraseIdx_of_lt hi]
      omega
    have hsingle := h.single
    have hstate : Ready (s.received i r bytes) ∨ (s.received i r bytes).isOpen = false ∧
        Event.cleared ∈ (s.received i r bytes).trace :=
      h.state.imp (fun hr => hr.received i r bytes) fun hc => ⟨hc.1, List.mem_append_left _ hc.2⟩
    split
    · refine ⟨hstate.imp (fun hr => hr.post _) fun hc => ?_, ?_, ?_⟩
      · exact ⟨(post_isOpen _ _).trans hc.1, (post_trace _ _).subset hc.2⟩
      · intro bt err hmem
        unfold Port.post at hmem
        split at hmem
        · exact h.succeeded bt err hmem
        · rcases List.mem_append.mp hmem with hmem | hmem
          · exact h.succeeded bt err hmem
          · cases List.mem_singleton.mp hmem
            rfl
      · unfold Port.post
        split
        · show (s.recvs.eraseIdx i).length + s.queue.countP StrandCall.isOnRecv ≤ 1
          omega
        · show (s.recvs.eraseIdx i).length +
            (s.queue ++ [StrandCall.onRecv r.len 0]).countP StrandCall.isOnRecv ≤ 1
          rw [List.countP_append, List.countP_cons_of_pos rfl]
          simp only [List.countP_nil]
          omega
    · refine ⟨hstate, h.succeeded, ?_⟩
      show (s.recvs.eraseIdx i).length + s.queue.countP StrandCall.isOnRecv ≤ 1
      omega
  | recvFail i err =>
    obtain ⟨hi, rfl⟩ := step_recvFail_iff.mp hs
    obtain ⟨calls, hst, hcalls⟩ := errorOccur_frame env { s with recvs := s.recvs.eraseIdx i } err
    refine hst.fed (by rcases hcalls with rfl | rfl <;> simp [StrandCall.isOnRecv]) ?_
    refine ⟨h.state.imp_left fun hr => ⟨hr.isOpen, hr.callback, hr.hdr, hr.phase⟩, h.succeeded, ?_⟩
    exact (Nat.add_le_add_right (List.length_eraseIdx_le _ _) _).trans h.single
  | _ => exact absurd rfl ha

/-! ## Staying alive -/

theorem not_alive (hrecvs : t.recvs = []) (hqueue : t.queue.countP StrandCall.isOnRecv = 0)
    (hend : ¬ Ending t) : ¬ Alive t := by
  rintro (h | ⟨call, hcall, hrecv⟩ | h)
  · exact h hrecvs
  · exact List.countP_eq_zero.mp hqueue call hcall hrecv
  · exact hend h

theorem Alive.of_append (h : Alive s) (hrecvs : t.recvs = s.recvs)
    (hqueue : t.queue = s.queue ++ calls) (htrace : s.trace <+: t.trace) : Alive t := by
  rcases h with h | ⟨call, hcall, hrecv⟩ | h
  · exact .inl (by rwa [hrecvs])
  · exact .inr (.inl ⟨call, by rw [hqueue]; exact List.mem_append_left _ hcall, hrecv⟩)
  · exact .inr (.inr (h.of_append hqueue htrace))

theorem Fed.ready (h : Fed s) (hend : ¬ Ending s) : Ready s :=
  h.state.resolve_right fun hc => hend (.inr hc.2)

/-- An outstanding read is the only one, and no completion waits. -/
theorem Fed.only (h : Fed s) {i : ℕ} (hi : i < s.recvs.length) :
    s.recvs.eraseIdx i = [] ∧ s.queue.countP StrandCall.isOnRecv = 0 := by
  have hsingle := h.single
  refine ⟨List.length_eq_zero_iff.mp ?_, by omega⟩
  rw [List.length_eraseIdx_of_lt hi]
  omega

theorem refused_not_ending (hend : ¬ Ending s) (hqueue : t.queue = s.queue) {evs : List Event}
    (htrace : t.trace = s.trace ++ evs) (hevs : Event.cleared ∉ evs) : ¬ Ending t := by
  rintro (⟨call, hcall, hends⟩ | h)
  · exact hend (.inl ⟨call, hqueue ▸ hcall, hends⟩)
  · rw [htrace] at h
    exact hend (.inr ((List.mem_append.mp h).resolve_right hevs))

theorem alive_work_iff (hfed : Fed s) (halive : Alive s) (hend : ¬ Ending s) {call : StrandCall}
    {rest : List StrandCall} (hq : s.queue = call :: rest) :
    Alive ({ s with queue := rest }.exec env call) ↔ Answered env s .work := by
  have hready : Ready { s with queue := rest } := by
    have := hfed.ready hend
    exact ⟨this.isOpen, this.callback, this.hdr, this.phase⟩
  have hpopEnd : ¬ Ending { s with queue := rest } := by
    rintro (⟨c, hc, hends⟩ | h)
    · exact hend (.inl ⟨c, by rw [hq]; exact List.mem_cons_of_mem _ hc, hends⟩)
    · exact hend (.inr h)
  have hquiet : call.isOnRecv = false → Alive { s with queue := rest } := by
    intro hcall
    rcases halive with h | ⟨c, hc, hrecv⟩ | h
    · exact .inl h
    · rw [hq] at hc
      rcases List.mem_cons.mp hc with rfl | hc
      · exact absurd (hcall.symm.trans hrecv) (by simp)
      · exact .inr (.inl ⟨c, hc, hrecv⟩)
    · exact absurd h hend
  have hanswered : call.isOnRecv = false → Answered env s .work := by
    intro hcall
    refine .inr fun bt err rest' hq' _ => ?_
    obtain ⟨rfl, -⟩ := List.cons.inj (hq.symm.trans hq')
    cases hcall
  have hnoEnd : call.ends = false :=
    Bool.eq_false_iff.mpr fun hends => hend (.inl ⟨call, by rw [hq]; exact List.mem_cons_self, hends⟩)
  cases call with
  | sendMessage ci =>
    have hst := iSendMessageStrand_frame { s with queue := rest } ci
    exact iff_of_true ((hquiet rfl).of_append hst.recvs hst.queue hst.trace) (hanswered rfl)
  | onSend bt err =>
    have hst := iOnSendStrand_frame { s with queue := rest } bt
    exact iff_of_true ((hquiet rfl).of_append hst.recvs hst.queue hst.trace) (hanswered rfl)
  | other => exact iff_of_true (hquiet rfl) (hanswered rfl)
  | onError err => cases hnoEnd
  | doClear => cases hnoEnd
  | onRecv bt err =>
    obtain rfl := hfed.succeeded bt err (by rw [hq]; exact List.mem_cons_self)
    rcases hready.onRecv env bt with ⟨-, -, hgood, r, hrecvs⟩ | ⟨hbad, herror⟩
    · refine iff_of_true (.inl ?_) (.inr fun _ _ _ _ hbad => absurd hbad hgood)
      show (Port.iOnRecvStrand env { s with queue := rest } bt 0).recvs ≠ []
      rw [hrecvs]
      simp
    · -- the error for the bad header is all that is left of the connection
      show Alive (Port.iOnRecvStrand env { s with queue := rest } bt 0) ↔ _
      rw [herror]
      have hsingle := hfed.single
      rw [hq, List.countP_cons_of_pos rfl] at hsingle
      rcases Bool.eq_false_or_eq_true (env.busy rest.length) with hbusy | hbusy
      · refine iff_of_false ?_ ?_
        · rw [Port.iOnError, post_busy]
          · exact not_alive (List.length_eq_zero_iff.mp (by omega : s.recvs.length = 0))
              (by show rest.countP _ = 0; omega) (refused_not_ending hpopEnd rfl rfl (by simp))
          · exact hbusy
        · rintro (h | h)
          · exact hend h
          · exact absurd (hbusy.symm.trans (h bt 0 rest hq hbad)) (by simp)
      · refine iff_of_true ?_ (.inr fun _ _ rest' hq' _ => ?_)
        · rw [Port.iOnError, post_free]
          · exact .inr (.inr (.inl ⟨.onError badHeader, by simp, rfl⟩))
          · exact hbusy
        · obtain ⟨-, rfl⟩ := List.cons.inj (hq.symm.trans hq')
          exact hbusy

/-- A step leaves a connection alive exactly if it is answered. -/
theorem alive_step_iff (hfed : Fed s) (halive : Alive s) {a : Action} (hs : step env s a = some t) :
    Alive t ↔ Answered env s a := by
  by_cases hend : Ending s
  · refine iff_of_true (.inr (.inr (ending_step hend hs))) ?_
    cases a <;> first | exact .inl hend | trivial
  by_cases ha : a.ofSender = true
  · obtain ⟨calls, hst, -⟩ := sender_step_frame ha hs
    refine iff_of_true (halive.of_append hst.recvs hst.queue hst.trace) ?_
    cases a <;> trivial
  have hready := hfed.ready hend
  cases a with
  | work =>
    obtain ⟨call, rest, hq, rfl⟩ := step_work_iff.mp hs
    exact alive_work_iff hfed halive hend hq
  | recvDone i bytes =>
    obtain ⟨r, hr, -, rfl⟩ := step_recvDone_iff.mp hs
    obtain ⟨hnil, hcount⟩ := hfed.only (List.getElem?_eq_some_iff.mp hr).1
    rw [if_pos hready.callback]
    rcases Bool.eq_false_or_eq_true (env.busy (s.received i r bytes).queue.length) with hbusy | hbusy
    · rw [post_busy hbusy]
      refine iff_of_false ?_ ?_
      · exact not_alive hnil hcount (refused_not_ending hend rfl (List.append_assoc _ _ _) (by simp))
      · rintro (h | h)
        · exact hend h
        · exact absurd (hbusy.symm.trans h) (by simp)
    · rw [post_free hbusy]
      exact iff_of_true (.inr (.inl ⟨.onRecv r.len 0, by simp, rfl⟩)) (.inr hbusy)
  | recvFail i err =>
    obtain ⟨hi, rfl⟩ := step_recvFail_iff.mp hs
    obtain ⟨hnil, hcount⟩ := hfed.only hi
    unfold Port.errorOccur
    rcases Bool.eq_false_or_eq_true s.sockErrCb with hcb | hcb
    · rw [if_pos hcb, Port.iOnError]
      rcases Bool.eq_false_or_eq_true (env.busy s.queue.length) with hbusy | hbusy
      · refine iff_of_false ?_ ?_
        · rw [post_busy]
          · exact not_alive hnil hcount (refused_not_ending hend rfl rfl (by simp))
          · exact hbusy
        · rintro (h | h)
          · exact hend h
          · exact absurd (hbusy.symm.trans h.2) (by simp)
      · refine iff_of_true ?_ (.inr ⟨hcb, hbusy⟩)
        rw [post_free]
        · exact .inr (.inr (.inl ⟨.onError err, by simp, rfl⟩))
        · exact hbusy
    · rw [if_neg (by simp [hcb])]
      refine iff_of_false ?_ ?_
      · exact not_alive hnil hcount (refused_not_ending hend rfl (List.append_nil _).symm (by simp))
      · rintro (h | h)
        · exact hend h
        · exact absurd (hcb.symm.trans h.1) (by simp)
  | _ => exact absurd rfl ha

end

/-! ## Runs -/

/-- A connection whose steps are all answered does not stall, and a step that is not answered
stalls it. -/
theorem never_stalls (env : Env) (load : ℕ) (s : Port)
    (h : Reach (step env) (Answered env) (bound load) s) :
    Alive s ∧ ∀ a t, step env s a = some t → (Alive t ↔ Answered env s a) := by
  have hinv : Fed s ∧ Alive s := by
    refine h.invariant (P := fun u => Fed u ∧ Alive u) ⟨fed_bound load, alive_bound load⟩ ?_
    rintro u a v ⟨hfed, halive⟩ hok hs
    exact ⟨fed_step hfed hs, (alive_step_iff hfed halive hs).mpr hok⟩
  exact ⟨hinv.2, fun a t hs => alive_step_iff hinv.1 hinv.2 hs⟩

/-- A netport on a worker of the thread pool. -/
def poolEnv : Env := { busy := busyAt .x64, ks := fun _ => 0 }

theorem never_stalls_header :
    ∃ s, run (step poolEnv) (bound 0) [.recvDone 0 (List.replicate headerLen 0)] = some s ∧
      s.queue = [.onRecv headerLen 0] ∧ Alive s := by
  have hok : Answered poolEnv (bound 0) (.recvDone 0 (List.replicate headerLen 0)) :=
    .inr (by decide)
  exact ⟨_, rfl, rfl, (never_stalls poolEnv 0 _ (Reach.refl.tail hok rfl)).1⟩

/-- The header comes while the worker holds 1000001 calls: the completion is refused, and nothing is
left that could move the connection on. -/
theorem busy_worker_stalls :
    ∃ s, run (step poolEnv) (bound 1000001) [.recvDone 0 (List.replicate headerLen 0)] = some s ∧
      ¬ Alive s := by
  have hbusy : poolEnv.busy (bound 1000001).queue.length = true := by
    rw [show (bound 1000001).queue = List.replicate 1000001 .other from rfl, List.length_replicate]
    decide
  have hnot : ¬ Answered poolEnv (bound 1000001) (.recvDone 0 (List.replicate headerLen 0)) := by
    rintro (h | h)
    · exact not_ending_bound _ h
    · exact absurd (hbusy.symm.trans h) (by simp)
  refine ⟨_, rfl, fun halive => hnot ?_⟩
  exact (alive_step_iff (fed_bound _) (alive_bound _) rfl).mp halive

end DevFramework.Netport
