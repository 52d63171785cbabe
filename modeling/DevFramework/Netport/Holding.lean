import DevFramework.Foundations.Issued
import DevFramework.Netport.Receiver
import DevFramework.Netport.Sending

/-! # The buffers a netport holds

A read names the header buffer or the body buffer, and a write the body of `cur_send_`. The receive
machine starts a read when the one before has completed, and releases the body between the two; a
command is released when its write has completed. `i_do_clear` releases everything, so it keeps this
only while nothing is outstanding.
-/
namespace DevFramework.Netport
set_option autoImplicit false
set_option maxHeartbeats 250000

theorem length_eraseIdx_succ {α : Type*} {l : List α} {i : ℕ} {a : α} (ha : l[i]? = some a) :
    (l.eraseIdx i).length + 1 = l.length := by
  have hlt := (List.getElem?_eq_some_iff.mp ha).1
  rw [List.length_eraseIdx_of_lt hlt]
  omega

/-! ## The read side -/

def Event.freed? : Event → Option ℕ
  | .releaseBuf id => some id
  | _ => none

namespace Port

/-- The receive buffers released. -/
def freed (s : Port) : List ℕ := s.trace.filterMap Event.freed?

/-- The receive buffers held. -/
def buffers (s : Port) : List ℕ := (s.cmdHdr.toList ++ s.cmdBody.toList).map Buf.id

end Port

/-- `n` completions of reads have not reached the strand yet. -/
structure Reading (s : Port) (n : ℕ) : Prop where
  one : s.recvs.length + n ≤ 1
  closed : s.isOpen = false → s.recvs = []
  named : ∀ r ∈ s.recvs, r.buf ∈ s.buffers
  issued : Issued s.made (s.freed ++ s.buffers)

section Reading
variable {env : Env} {s t : Port} {n : ℕ}

theorem freed_append {evs : List Event} (htrace : t.trace = s.trace ++ evs) :
    t.freed = s.freed ++ evs.filterMap Event.freed? := by
  rw [Port.freed, htrace, List.filterMap_append]
  rfl

/-- A step that releases no buffer and asks for nothing. -/
theorem Reading.frame (h : Reading s n) {m : ℕ} {evs : List Event}
    (hone : t.recvs.length + m ≤ s.recvs.length + n) (hrecvs : t.recvs ⊆ s.recvs)
    (hopen : t.isOpen = s.isOpen) (hbufs : t.buffers = s.buffers) (hmade : s.made ≤ t.made)
    (htrace : t.trace = s.trace ++ evs) (hevs : ∀ e ∈ evs, e.freed? = none) : Reading t m := by
  have hfreed : t.freed = s.freed := by
    rw [freed_append htrace, List.filterMap_eq_nil_iff.mpr hevs, List.append_nil]
  refine ⟨hone.trans h.one, fun hclosed => ?_, fun r hr => ?_, ?_⟩
  · rw [hopen] at hclosed
    rw [h.closed hclosed] at hrecvs
    exact List.subset_nil.mp hrecvs
  · rw [hbufs]
    exact h.named r (hrecvs hr)
  · rw [hfreed, hbufs]
    exact h.issued.mono hmade

theorem Reading.mono (h : Reading s n) {m : ℕ} (hle : m ≤ n) : Reading s m :=
  ⟨(Nat.add_le_add_left hle _).trans h.one, h.closed, h.named, h.issued⟩

/-- A read has ended. -/
theorem Reading.ended (h : Reading s n) {i : ℕ} {r : RecvReq} (hr : s.recvs[i]? = some r) :
    Reading { s with recvs := s.recvs.eraseIdx i } (n + 1) := by
  have hone := h.one
  have hlen := length_eraseIdx_succ hr
  refine ⟨?_, fun hclosed => ?_, fun r hr => h.named r (List.mem_of_mem_eraseIdx hr), h.issued⟩
  · show (s.recvs.eraseIdx i).length + _ ≤ 1
    omega
  · rw [h.closed hclosed]
    rfl

theorem Reading.log (h : Reading s n) {e : Event} (he : e.freed? = none) : Reading (s.log e) n :=
  h.frame le_rfl (List.Subset.refl _) rfl rfl le_rfl rfl (by simpa using he)

theorem Reading.sendOnly {calls : List StrandCall} (h : Reading s n) (hst : SendOnly s t calls) :
    Reading t n := by
  obtain ⟨_, _, _, _, _, _, evs, rfl, hmade, hall⟩ := hst
  refine h.frame le_rfl (List.Subset.refl _) rfl rfl hmade rfl fun e he => ?_
  have hof := hall e he
  cases e <;> first | rfl | cases hof

theorem Reading.post (h : Reading s n) (call : StrandCall) : Reading (s.post env call) n := by
  unfold Port.post
  split
  · exact h.log rfl
  · exact ⟨h.one, h.closed, h.named, h.issued⟩

/-- A read may be started when none is outstanding and no completion is on its way. -/
theorem Reading.asyncRecv (h : Reading s n) (hidle : s.recvs = [] ∧ n = 0) {buf : Option Buf}
    (hbuf : ∀ b, buf = some b → b.id ∈ s.buffers) (offset len : ℤ) :
    Reading (s.asyncRecv buf offset len) n := by
  obtain ⟨hrecvs, rfl⟩ := hidle
  unfold Port.asyncRecv
  split
  · exact h
  · rename_i b
    simp only
    split
    · exact h
    · rename_i hguard
      refine ⟨?_, fun hclosed => absurd (.inr hclosed) hguard, fun r hr => ?_, ?_⟩
      · simp [Port.log, hrecvs]
      · simp only [Port.log, hrecvs, List.nil_append, List.mem_singleton] at hr
        rw [hr]
        exact hbuf b rfl
      · have hevs : ∀ e ∈ [Event.recvReq ⟨b.id, offset, len⟩], e.freed? = none := by
          simp [Event.freed?]
        rw [freed_append (s := s) rfl, List.filterMap_eq_nil_iff.mpr hevs, List.append_nil]
        exact h.issued

/-- The body is released while no read is outstanding. -/
theorem Reading.freeBody (h : Reading s n) (hrecvs : s.recvs = []) : Reading s.freeBody n := by
  have hone := h.one
  have hissued := h.issued
  have hnamed : ∀ r ∈ s.recvs, r.buf ∈ s.freeBody.buffers := by
    rw [hrecvs]
    exact nofun
  rw [freeBody_eq] at hnamed ⊢
  refine ⟨hone, h.closed, hnamed, hissued.moved fun id => ?_⟩
  rw [freed_append (s := s) rfl]
  obtain hnone | ⟨b, hb⟩ := Option.eq_none_or_eq_some s.cmdBody
  · simp [Port.buffers, freeEvents, hnone]
  · simp only [Port.buffers, freeEvents, hb, Option.toList_some, Option.toList_none, List.map_cons,
      List.map_nil, List.append_nil, List.map_append, List.count_append,
      List.filterMap_cons_some (show (Event.releaseBuf b.id).freed? = some b.id from rfl),
      List.filterMap_nil]
    omega

theorem Reading.process (h : Reading s n) (hrecvs : s.recvs = []) :
    Reading (s.iProcessCommand env) n ∧ (s.iProcessCommand env).recvs = [] := by
  unfold Port.iProcessCommand
  simp only
  split
  · exact ⟨h, hrecvs⟩
  split
  · exact ⟨h.log rfl, hrecvs⟩
  split <;> exact ⟨h.log rfl, hrecvs⟩

theorem mem_buffers_cmdHdr {b : Buf} (hb : s.cmdHdr = some b) : b.id ∈ s.buffers := by
  simp [Port.buffers, hb]

theorem mem_buffers_cmdBody {b : Buf} (hb : s.cmdBody = some b) : b.id ∈ s.buffers := by
  simp [Port.buffers, hb]

/-- The command is delivered, its body released, and the next header asked for. -/
theorem Reading.recvBody (h : Reading s n) (hidle : s.recvs = [] ∧ n = 0) :
    Reading (s.recvBody env) n := by
  obtain ⟨hprocess, hrecvs⟩ : Reading (s.iProcessCommand env) n ∧ _ := h.process hidle.1
  have hfree := hprocess.freeBody hrecvs
  have hnone : (s.iProcessCommand env).freeBody.recvs = [] := by
    rw [freeBody_eq]
    exact hrecvs
  have hzero : Reading { (s.iProcessCommand env).freeBody with
      bodyLen := 0
      flag := 1
      cmdHdr := (s.iProcessCommand env).freeBody.cmdHdr.map fun b : Buf =>
        { b with bytes := List.replicate headerLen 0 } } n := by
    refine hfree.frame le_rfl (List.Subset.refl _) rfl ?_ le_rfl (List.append_nil _).symm nofun
    simp only [Port.buffers]
    cases (s.iProcessCommand env).freeBody.cmdHdr <;> rfl
  exact hzero.asyncRecv ⟨hnone, hidle.2⟩ (fun b hb => mem_buffers_cmdHdr hb) 0 headerLen

theorem Reading.recvHeader (h : Reading s n) (hidle : s.recvs = [] ∧ n = 0) :
    Reading (s.recvHeader env) n := by
  have hset : ∀ flag : ℤ, Reading { s with flag := flag } n := fun _ =>
    ⟨h.one, h.closed, h.named, h.issued⟩
  -- a body buffer that is still there would be lost, not released
  have hnew : ∀ flag bodyLen : ℤ, ∀ bytes, Reading { s with
      made := s.made + 1
      cmdBody := some ⟨s.made, bytes⟩
      bodyLen := bodyLen
      flag := flag } n := by
    intro flag bodyLen bytes
    refine ⟨h.one, h.closed, by rw [hidle.1]; exact nofun, h.issued.next.moved fun id => ?_⟩
    simp only [Port.freed, Port.buffers, List.map_append, List.count_append, Option.toList_some,
      List.map_cons, List.map_nil]
    omega
  unfold Port.recvHeader
  split
  · exact h.post _
  simp only
  split
  · split
    · exact (hnew _ _ _).asyncRecv hidle (fun b hb => mem_buffers_cmdBody hb) 0 _
    · exact (hnew _ _ _).asyncRecv hidle (fun b hb => mem_buffers_cmdBody hb) 0 _
  · exact (hset 0).recvBody hidle

theorem Reading.recvPart (h : Reading s n) (hidle : s.recvs = [] ∧ n = 0) (bt : ℤ) :
    Reading (s.recvPart env bt) n := by
  have hset : ∀ flag hasRecved : ℤ, Reading { s with flag := flag, hasRecved := hasRecved } n :=
    fun _ _ => ⟨h.one, h.closed, h.named, h.issued⟩
  unfold Port.recvPart
  simp only
  split
  · exact (hset _ _).recvBody hidle
  · exact (hset s.flag (s.hasRecved + bt)).asyncRecv hidle (fun b hb => mem_buffers_cmdBody hb) _ _

/-- `i_on_recv_strand` runs on a completion, so no read is outstanding. -/
theorem Reading.onRecv (h : Reading s (n + 1)) (bt err : ℤ) :
    Reading (s.iOnRecvStrand env bt err) n := by
  have hone := h.one
  have hidle : s.recvs = [] ∧ n = 0 := by
    rw [← List.length_eq_zero_iff]
    omega
  have hpop : Reading s n := h.mono (Nat.le_succ n)
  unfold Port.iOnRecvStrand
  split
  · exact hpop
  split
  · exact hpop.recvBody hidle
  split
  · exact hpop.recvHeader hidle
  split
  · exact hpop.recvPart hidle bt
  · exact hpop

/-- `i_do_clear` while no read is outstanding. -/
theorem Reading.doClear (h : Reading s n) (hrecvs : s.recvs = []) : Reading s.iDoClear n := by
  rw [iDoClear_eq]
  refine ⟨h.one, fun _ => hrecvs, by rw [hrecvs]; exact nofun, h.issued.moved fun id => ?_⟩
  have hfreed : (clearEvents s).filterMap Event.freed? = s.buffers := by
    have hcommands : ∀ l : List CmdInfo, (l.map Event.release).filterMap Event.freed? = [] := by
      intro l
      rw [List.filterMap_map]
      exact List.filterMap_eq_nil_iff.mpr fun _ _ => rfl
    have hbufs : ∀ l : List Buf,
        (l.map fun b => Event.releaseBuf b.id).filterMap Event.freed? = l.map Buf.id := by
      intro l
      rw [List.filterMap_map]
      exact congrFun List.filterMap_eq_map' l
    simp only [clearEvents, List.filterMap_append, hcommands, hbufs, List.nil_append]
    exact List.append_nil _
  rw [freed_append (s := s) rfl, hfreed]
  exact le_of_eq (congrArg _ (List.append_nil _))

end Reading

/-! ## The write side -/

/-- The commands that have been released or that the netport still holds. -/
def Port.commands (s : Port) (waiting : List CmdInfo) : List CmdInfo :=
  s.released ++ s.curSend.toList ++ s.cmdInfoList ++ waiting

/-- `n` completions of writes have not reached the strand yet, nor the commands of `waiting`. -/
structure Writing (s : Port) (n : ℕ) (waiting : List CmdInfo) : Prop where
  inFlight : s.isOpen = true → s.sends.length + n ≤ s.curSend.toList.length
  closed : s.isOpen = false → s.sends = []
  named : ∀ r ∈ s.sends, s.curSend = some r.cmd
  issued : Issued s.made ((s.commands waiting).map CmdInfo.id)

section Writing
variable {env : Env} {s t : Port} {n : ℕ} {waiting : List CmdInfo}

theorem released_append {evs : List Event} (htrace : t.trace = s.trace ++ evs) :
    t.released = s.released ++ evs.filterMap Event.released? := by
  rw [Port.released, htrace, List.filterMap_append]
  rfl

/-- A step that releases no command and sends none. -/
theorem Writing.frame (h : Writing s n waiting) {m : ℕ} {evs : List Event}
    (hflight : t.sends.length + m ≤ s.sends.length + n)
    (hsends : ∀ r ∈ t.sends, ∃ r' ∈ s.sends, r'.cmd = r.cmd) (hopen : t.isOpen = s.isOpen)
    (hcur : t.curSend = s.curSend) (hlist : t.cmdInfoList = s.cmdInfoList)
    (hmade : s.made ≤ t.made) (htrace : t.trace = s.trace ++ evs)
    (hevs : ∀ e ∈ evs, e.released? = none) : Writing t m waiting := by
  have hreleased : t.released = s.released := by
    rw [released_append htrace, List.filterMap_eq_nil_iff.mpr hevs, List.append_nil]
  refine ⟨fun ho => ?_, fun hclosed => ?_, fun r hr => ?_, ?_⟩
  · rw [hopen] at ho
    rw [hcur]
    exact hflight.trans (h.inFlight ho)
  · rw [hopen] at hclosed
    refine List.eq_nil_iff_forall_not_mem.mpr fun r hr => ?_
    obtain ⟨r', hr', -⟩ := hsends r hr
    rw [h.closed hclosed] at hr'
    cases hr'
  · obtain ⟨r', hr', hcmd⟩ := hsends r hr
    rw [hcur, h.named r' hr', hcmd]
  · rw [Port.commands, hreleased, hcur, hlist]
    exact h.issued.mono hmade

theorem Writing.mono (h : Writing s n waiting) {m : ℕ} (hle : m ≤ n) : Writing s m waiting :=
  ⟨fun ho => (Nat.add_le_add_left hle _).trans (h.inFlight ho), h.closed, h.named, h.issued⟩

/-- A write has ended. -/
theorem Writing.ended (h : Writing s n waiting) {i : ℕ} {r : SendReq} (hr : s.sends[i]? = some r) :
    Writing { s with sends := s.sends.eraseIdx i } (n + 1) waiting := by
  have hlen := length_eraseIdx_succ hr
  refine ⟨fun ho => ?_, fun hclosed => ?_, fun r hr => h.named r (List.mem_of_mem_eraseIdx hr),
    h.issued⟩
  · have hflight := h.inFlight ho
    show (s.sends.eraseIdx i).length + _ ≤ s.curSend.toList.length
    omega
  · rw [h.closed hclosed]
    rfl

theorem Writing.log (h : Writing s n waiting) {e : Event} (he : e.released? = none) :
    Writing (s.log e) n waiting :=
  h.frame le_rfl (fun r hr => ⟨r, hr, rfl⟩) rfl rfl rfl le_rfl rfl (by simpa using he)

theorem Writing.recvOnly {calls : List StrandCall} (h : Writing s n waiting)
    (hst : RecvOnly s t calls) : Writing t n waiting := by
  obtain ⟨_, _, _, _, _, _, _, evs, rfl, hmade, hall⟩ := hst
  refine h.frame le_rfl (fun r hr => ⟨r, hr, rfl⟩) rfl rfl rfl hmade rfl fun e he => ?_
  have hof := hall e he
  cases e <;> first | rfl | cases hof

theorem Writing.post (h : Writing s n waiting) (call : StrandCall) :
    Writing (s.post env call) n waiting := by
  unfold Port.post
  split
  · exact h.log rfl
  · exact ⟨h.inFlight, h.closed, h.named, h.issued⟩

/-- The places of a command, for counting. -/
theorem count_commands (s : Port) (waiting : List CmdInfo) (id : ℕ) :
    ((s.commands waiting).map CmdInfo.id).count id =
      (s.released.map CmdInfo.id).count id + (s.curSend.toList.map CmdInfo.id).count id +
        (s.cmdInfoList.map CmdInfo.id).count id + (waiting.map CmdInfo.id).count id := by
  simp only [Port.commands, List.map_append, List.count_append]

theorem count_cons_ids (ci : CmdInfo) (l : List CmdInfo) (id : ℕ) :
    ((ci :: l).map CmdInfo.id).count id = [ci.id].count id + (l.map CmdInfo.id).count id := by
  rw [List.map_cons, ← List.singleton_append, List.count_append]

/-- `async_send` of `cur_send_` while no write is outstanding. -/
theorem Writing.asyncSend {ci : CmdInfo} (h : Writing s n waiting) (hcur : s.curSend = some ci)
    (hidle : s.sends = [] ∧ n = 0) : Writing (s.asyncSend ci) n waiting := by
  obtain ⟨hsends, rfl⟩ := hidle
  unfold Port.asyncSend
  simp only
  split
  · exact h
  · rename_i hguard
    have hreleased : (({ s with sends := s.sends ++ [⟨ci, ci.cmdBody⟩] } : Port).log
        (.sendReq ci)).released = s.released :=
      (released_append (s := s) rfl).trans (List.append_nil _)
    refine ⟨fun _ => ?_, fun hclosed => absurd (.inr hclosed) hguard, fun r hr => ?_, ?_⟩
    · simp [Port.log, hsends, hcur]
    · simp only [Port.log, hsends, List.nil_append, List.mem_singleton] at hr
      rw [hr]
      exact hcur
    · rw [Port.commands, hreleased]
      exact h.issued

/-- `i_send_message_strand` of a command that waited. -/
theorem Writing.sendMessage {ci : CmdInfo} (h : Writing s n (ci :: waiting)) :
    Writing (s.iSendMessageStrand ci) n waiting := by
  unfold Port.iSendMessageStrand
  split
  · -- the socket is closed
    have hreleased : (s.log (.release ci)).released = s.released ++ [ci] :=
      (released_append (s := s) rfl).trans rfl
    refine ⟨h.inFlight, h.closed, h.named, h.issued.moved fun id => ?_⟩
    rw [count_commands, count_commands, count_cons_ids, hreleased, List.map_append,
      List.count_append, List.map_singleton]
    simp only [Port.log]
    omega
  split
  · refine ⟨h.inFlight, h.closed, h.named, h.issued.moved fun id => ?_⟩
    rw [count_commands, count_commands, count_cons_ids, List.map_append, List.count_append,
      List.map_singleton]
    simp only [Port.released]
    omega
  · rename_i hopen hcur
    have hopen : s.isOpen = true := by simpa using hopen
    have hcur : s.curSend = none := by simpa using hcur
    have hidle : s.sends = [] ∧ n = 0 := by
      have hflight := h.inFlight hopen
      rw [hcur, Option.toList_none, List.length_nil] at hflight
      rw [← List.length_eq_zero_iff]
      omega
    refine Writing.asyncSend ⟨fun _ => ?_, fun _ => hidle.1, ?_, ?_⟩ rfl hidle
    · rw [hidle.1, hidle.2]
      exact Nat.zero_le _
    · rw [hidle.1]
      exact List.forall_mem_nil _
    · refine h.issued.moved fun id => ?_
      rw [count_commands, count_commands, count_cons_ids, hcur]
      simp only [Port.released, Option.toList_some, Option.toList_none, List.map_nil,
        List.map_singleton, List.count_nil]
      omega

/-- `i_on_send_strand` runs on a completion, so no write is outstanding. -/
theorem Writing.onSend (h : Writing s (n + 1) waiting) (bt : ℤ) :
    Writing (s.iOnSendStrand bt) n waiting := by
  have hidle : s.sends = [] ∧ (s.isOpen = true → n = 0) := by
    cases hopen : s.isOpen with
    | false => exact ⟨h.closed hopen, nofun⟩
    | true =>
      have hflight := h.inFlight hopen
      have hone : s.curSend.toList.length ≤ 1 := by cases s.curSend <;> simp
      rw [← List.length_eq_zero_iff]
      exact ⟨by omega, fun _ => by omega⟩
  have hsent : ∀ {list waiting' : List CmdInfo},
      (∀ id, (list.map CmdInfo.id).count id + (waiting'.map CmdInfo.id).count id =
        (s.cmdInfoList.map CmdInfo.id).count id + (waiting.map CmdInfo.id).count id) →
      Writing { s with
        curSend := none
        cmdInfoList := list
        trace := s.trace ++ sentEvents s bt } n waiting' := by
    intro list waiting' hcount
    refine ⟨fun ho => ?_, fun _ => hidle.1, ?_, h.issued.moved fun id => ?_⟩
    · rw [hidle.1, hidle.2 ho]
      exact le_rfl
    · rw [hidle.1]
      exact nofun
    · have hreleased := sentEvents_released s bt
      rw [count_commands, count_commands, released_append (s := s) rfl, hreleased, List.map_append,
        List.count_append]
      have := hcount id
      simp only [Option.toList_none, List.map_nil, List.count_nil]
      omega
  cases hlist : s.cmdInfoList with
  | nil =>
    rw [iOnSendStrand_last s bt hlist]
    refine hsent fun id => ?_
    rfl
  | cons ci list =>
    rw [iOnSendStrand_next s bt hlist]
    refine (hsent fun id => ?_).sendMessage
    rw [hlist, count_cons_ids, count_cons_ids]
    omega

/-- `i_do_clear` while no write is outstanding. -/
theorem Writing.doClear (h : Writing s n waiting) (hsends : s.sends = []) :
    Writing s.iDoClear n waiting := by
  rw [iDoClear_eq]
  refine ⟨nofun, fun _ => hsends, by rw [hsends]; exact nofun, h.issued.moved fun id => ?_⟩
  rw [count_commands, count_commands, released_append (s := s) rfl, clearEvents_released,
    List.map_append, List.map_append, List.count_append, List.count_append]
  simp only [Option.toList_none, List.map_nil, List.count_nil]
  omega

end Writing

end DevFramework.Netport
