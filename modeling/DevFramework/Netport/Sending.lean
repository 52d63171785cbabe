import Mathlib.Data.List.Nodup
import DevFramework.Netport.Sender

/-! # Where a command is

A posted command waits in its strand call, then in `cmd_info_list_`, then it is `cur_send_` until
its write completes; or it is released without being sent, by the strand call that finds the socket
closed or by `i_do_clear`.
-/
namespace DevFramework.Netport
open Transition
set_option autoImplicit false
set_option maxHeartbeats 250000

def StrandCall.command? : StrandCall → Option CmdInfo
  | .sendMessage ci => some ci
  | _ => none

def StrandCall.isOnSend : StrandCall → Bool
  | .onSend _ _ => true
  | _ => false

namespace Port

/-- The commands whose strand call has not run. -/
def waiting (s : Port) : List CmdInfo := s.queue.filterMap StrandCall.command?

/-- The commands handed to `async_send`, in order. -/
def sent (s : Port) : List CmdInfo := s.trace.filterMap Event.sent?

/-- The commands released, in order. -/
def released (s : Port) : List CmdInfo := s.trace.filterMap Event.released?

/-- The completions of writes that wait on the strand. -/
def onSends (s : Port) : ℕ := s.queue.countP StrandCall.isOnSend

end Port

structure Sending (s : Port) : Prop where
  fresh : ∀ ci ∈ s.posted, ci.id < s.made
  nodup : s.posted.Nodup
  nonempty : ∀ ci ∈ s.posted, ci.cmdBody ≠ []
  /-- while the socket is open, the posted commands are sent, listed, or wait, in this order -/
  order : s.isOpen = true → s.posted = s.sent ++ (s.cmdInfoList ++ s.waiting)
  sentPrefix : s.sent <+: s.posted
  places : ∀ ci, s.posted.count ci = s.released.count ci + s.curSend.toList.count ci +
    s.cmdInfoList.count ci + s.waiting.count ci
  idle : s.curSend = none → s.cmdInfoList = []
  one : s.sends.length ≤ 1
  inFlight : s.isOpen = true → s.sends.length + s.onSends ≤ s.curSend.toList.length
  closed : s.isOpen = false → s.curSend = none
  cleared : Event.cleared ∈ s.trace → s.isOpen = false

theorem waiting_replicate_other (n : ℕ) :
    (List.replicate n StrandCall.other).filterMap StrandCall.command? = [] := by
  rw [List.filterMap_eq_nil_iff]
  intro call hcall
  rw [List.eq_of_mem_replicate hcall]
  rfl

theorem onSends_replicate_other (n : ℕ) :
    (List.replicate n StrandCall.other).countP StrandCall.isOnSend = 0 := by
  rw [List.countP_eq_zero]
  intro call hcall
  rw [List.eq_of_mem_replicate hcall]
  decide

theorem sending_bound (load : ℕ) : Sending (bound load) := by
  have hwait : (bound load).waiting = [] := waiting_replicate_other load
  have hons : (bound load).onSends = 0 := onSends_replicate_other load
  refine ⟨?_, List.nodup_nil, ?_, ?_, List.nil_prefix, ?_, fun _ => rfl, Nat.zero_le 1, ?_, ?_, ?_⟩
  · simp [bound]
  · simp [bound]
  · intro _
    rw [hwait]
    rfl
  · intro ci
    rw [hwait]
    rfl
  · intro _
    rw [hons]
    rfl
  · simp [bound]
  · simp [bound]

section Steps
variable {env : Env} {s t : Port}

/-! ## Steps that move no command -/

/-- The calls posted are neither commands nor completions of writes, and the events are of no
command. -/
theorem Sending.frame (h : Sending s) {calls : List StrandCall} {evs : List Event}
    (hmade : s.made ≤ t.made) (hposted : t.posted = s.posted) (hopen : t.isOpen = s.isOpen)
    (hcur : t.curSend = s.curSend) (hlist : t.cmdInfoList = s.cmdInfoList)
    (hsends : t.sends.length ≤ s.sends.length) (hqueue : t.queue = s.queue ++ calls)
    (htrace : t.trace = s.trace ++ evs) (hcalls : calls.filterMap StrandCall.command? = [])
    (hons : t.sends.length + calls.countP StrandCall.isOnSend ≤ s.sends.length)
    (hsent : evs.filterMap Event.sent? = []) (hrel : evs.filterMap Event.released? = [])
    (hclear : Event.cleared ∉ evs) : Sending t := by
  have hwait : t.waiting = s.waiting := by
    rw [Port.waiting, hqueue, List.filterMap_append, hcalls, List.append_nil]
    rfl
  have hsent' : t.sent = s.sent := by
    rw [Port.sent, htrace, List.filterMap_append, hsent, List.append_nil]
    rfl
  have hrel' : t.released = s.released := by
    rw [Port.released, htrace, List.filterMap_append, hrel, List.append_nil]
    rfl
  have hons' : t.onSends = s.onSends + calls.countP StrandCall.isOnSend := by
    rw [Port.onSends, hqueue, List.countP_append]
    rfl
  refine ⟨?_, ?_, ?_, ?_, ?_, ?_, ?_, ?_, ?_, ?_, ?_⟩
  · rw [hposted]
    exact fun ci hci => (h.fresh ci hci).trans_le hmade
  · rw [hposted]
    exact h.nodup
  · rw [hposted]
    exact h.nonempty
  · rw [hopen, hposted, hsent', hlist, hwait]
    exact h.order
  · rw [hposted, hsent']
    exact h.sentPrefix
  · rw [hposted, hrel', hcur, hlist, hwait]
    exact h.places
  · rw [hcur, hlist]
    exact h.idle
  · exact hsends.trans h.one
  · rw [hopen, hcur, hons']
    intro ho
    have := h.inFlight ho
    omega
  · rw [hopen, hcur]
    exact h.closed
  · rw [htrace, hopen]
    intro hmem
    rcases List.mem_append.mp hmem with hmem | hmem
    · exact h.cleared hmem
    · exact absurd hmem hclear

theorem ofReceiver_silent {evs : List Event} (h : ∀ e ∈ evs, e.ofReceiver = true) :
    evs.filterMap Event.sent? = [] ∧ evs.filterMap Event.released? = [] ∧
      Event.cleared ∉ evs := by
  refine ⟨?_, ?_, fun hmem => by cases h _ hmem⟩ <;>
  · rw [List.filterMap_eq_nil_iff]
    intro e he
    have := h e he
    cases e <;> first | rfl | cases this

theorem Sending.recvOnly (h : Sending s) {calls : List StrandCall} (hr : RecvOnly s t calls)
    (hcalls : calls = [] ∨ ∃ err, calls = [.onError err]) : Sending t := by
  obtain ⟨f, hr, ch, cb, bl, rs, m, evs, rfl, hm, hall⟩ := hr
  obtain ⟨hsent, hrel, hclear⟩ := ofReceiver_silent hall
  refine h.frame hm rfl rfl rfl rfl le_rfl rfl rfl ?_ ?_ hsent hrel hclear <;>
  · obtain rfl | ⟨err, rfl⟩ := hcalls <;> simp [StrandCall.command?, StrandCall.isOnSend]

/-- A posted call that is no command and no completion of a write, or its refusal. -/
theorem Sending.post (h : Sending s) {call : StrandCall} (hcmd : call.command? = none)
    (hons : call.isOnSend = false) : Sending (s.post env call) := by
  unfold Port.post
  split
  · exact h.frame le_rfl rfl rfl rfl rfl le_rfl (List.append_nil _).symm rfl rfl le_rfl
      (by simp [Event.sent?]) (by simp [Event.released?]) (by simp)
  · exact h.frame le_rfl rfl rfl rfl rfl le_rfl rfl (List.append_nil _).symm
      (by simp [hcmd]) (by simp [hons]) rfl rfl (by simp)

theorem sent_append (s : Port) (evs : List Event) :
    ({ s with trace := s.trace ++ evs } : Port).sent = s.sent ++ evs.filterMap Event.sent? :=
  List.filterMap_append

theorem Sending.pop (h : Sending s) {call : StrandCall} {rest : List StrandCall}
    (hq : s.queue = call :: rest) (hcmd : call.command? = none) :
    Sending { s with queue := rest } := by
  have hwait : s.waiting = rest.filterMap StrandCall.command? := by
    rw [Port.waiting, hq, List.filterMap_cons_none hcmd]
  have hons : rest.countP StrandCall.isOnSend ≤ s.onSends := by
    rw [Port.onSends, hq, List.countP_cons]
    omega
  refine ⟨h.fresh, h.nodup, h.nonempty, ?_, h.sentPrefix, ?_, h.idle, h.one, ?_, h.closed,
    h.cleared⟩
  · intro ho
    rw [h.order ho, hwait]
    rfl
  · intro ci
    rw [h.places ci, hwait]
    rfl
  · intro ho
    exact (Nat.add_le_add_left hons _).trans (h.inFlight ho)

/-! ## Steps that move a command -/

/-- The next command is sent: `cur_send_` is released if there is one, and `ci` takes its place. -/
theorem Sending.start (h : Sending s) (ci : CmdInfo) (list : List CmdInfo) (evs : List Event)
    (hopen : s.isOpen = true) (hmade : t.made = s.made) (hposted : t.posted = s.posted)
    (hopen' : t.isOpen = true) (hcur : t.curSend = some ci) (hlist : t.cmdInfoList = list)
    (hsends : t.sends.length = 1) (hons : t.onSends = 0)
    (htrace : t.trace = s.trace ++ (evs ++ [.sendReq ci]))
    (hnext : s.cmdInfoList ++ s.waiting = ci :: (list ++ t.waiting))
    (hsent : evs.filterMap Event.sent? = [])
    (hrel : evs.filterMap Event.released? = s.curSend.toList) (hclear : Event.cleared ∉ evs) :
    Sending t := by
  have hsent' : t.sent = s.sent ++ [ci] := by
    rw [Port.sent, htrace, List.filterMap_append, List.filterMap_append, hsent]
    rfl
  have hrel' : t.released = s.released ++ s.curSend.toList := by
    rw [Port.released, htrace, List.filterMap_append, List.filterMap_append, hrel]
    simp [Port.released, Event.released?]
  have horder : t.posted = t.sent ++ (list ++ t.waiting) := by
    rw [hposted, h.order hopen, hnext, hsent']
    simp
  refine ⟨?_, ?_, ?_, ?_, ?_, ?_, ?_, hsends.le, ?_, ?_, ?_⟩
  · rw [hposted, hmade]
    exact h.fresh
  · rw [hposted]
    exact h.nodup
  · rw [hposted]
    exact h.nonempty
  · intro _
    rw [hlist]
    exact horder
  · rw [horder]
    exact List.prefix_append _ _
  · intro c
    have hplaces := h.places c
    have hcount := congrArg (List.count c) hnext
    rw [List.count_append, ← List.singleton_append, List.count_append, List.count_append] at hcount
    rw [hposted, hplaces, hrel', hcur, hlist, List.count_append, Option.toList_some]
    omega
  · rw [hcur]
    exact fun hnone => absurd hnone (by simp)
  · intro _
    rw [hsends, hons, hcur]
    rfl
  · intro hclosed
    rw [hopen'] at hclosed
    cases hclosed
  · rw [htrace, hopen']
    intro hmem
    have := h.cleared
    simp [hopen, hclear] at hmem this
    exact absurd hmem this

theorem Sending.sendMessage (h : Sending s) {ci : CmdInfo} {rest : List StrandCall}
    (hq : s.queue = .sendMessage ci :: rest) :
    Sending ({ s with queue := rest }.iSendMessageStrand ci) := by
  have hwait : s.waiting = ci :: rest.filterMap StrandCall.command? := by
    rw [Port.waiting, hq]
    rfl
  have hons : s.onSends = rest.countP StrandCall.isOnSend := by
    rw [Port.onSends, hq]
    rfl
  rcases Bool.eq_false_or_eq_true s.isOpen with hopen | hopen
  · have horder := h.order hopen
    have hflight := h.inFlight hopen
    by_cases hcur : s.curSend = none
    · have hlist := h.idle hcur
      rw [hcur] at hflight
      have hnone : s.sends.length = 0 ∧ s.onSends = 0 :=
        Nat.add_eq_zero_iff.mp (Nat.le_zero.mp hflight)
      have hbody : ci.cmdBody ≠ [] := by
        refine h.nonempty ci ?_
        rw [horder, hwait]
        simp
      rw [iSendMessageStrand_started { s with queue := rest } hopen hcur hbody]
      refine h.start ci [] [] hopen rfl rfl hopen rfl hlist ?_ ?_ rfl ?_ rfl ?_ (by simp)
      · simp [hnone.1]
      · exact hons.symm.trans hnone.2
      · rw [hlist, hwait]
        rfl
      · rw [hcur]
        rfl
    · rw [iSendMessageStrand_listed { s with queue := rest } hopen hcur]
      refine ⟨h.fresh, h.nodup, h.nonempty, ?_, h.sentPrefix, ?_, fun hnone => absurd hnone hcur,
        h.one, ?_, h.closed, h.cleared⟩
      · intro _
        rw [horder, hwait]
        simp [Port.sent, Port.waiting]
      · intro c
        have := h.places c
        rw [hwait, ← List.singleton_append, List.count_append] at this
        simp only [Port.released, Port.waiting, List.count_append] at this ⊢
        omega
      · intro _
        rw [hons] at hflight
        exact hflight
  · -- the socket is closed: the command is released unsent
    rw [iSendMessageStrand_closed { s with queue := rest } hopen]
    have hsent : (({ s with queue := rest } : Port).log (.release ci)).sent = s.sent :=
      (sent_append { s with queue := rest } _).trans (List.append_nil _)
    refine ⟨h.fresh, h.nodup, h.nonempty, ?_, ?_, ?_, h.idle, h.one, ?_, h.closed, fun _ => hopen⟩
    · intro ho
      exact absurd (hopen.symm.trans ho) (by simp)
    · rw [hsent]
      exact h.sentPrefix
    · intro c
      have := h.places c
      rw [hwait, ← List.singleton_append, List.count_append] at this
      simp only [Port.released, Port.waiting, Port.log, List.filterMap_append, List.count_append,
        List.filterMap_cons_some (show (Event.release ci).released? = some ci from rfl),
        List.filterMap_nil] at this ⊢
      omega
    · intro ho
      exact absurd (hopen.symm.trans ho) (by simp)

theorem Sending.finish (h : Sending s) (bt : ℤ) (hlist : s.cmdInfoList = []) (hsends : s.sends = [])
    (hons : s.onSends = 0) :
    Sending { s with curSend := none, trace := s.trace ++ sentEvents s bt } := by
  have hsent : ({ s with curSend := none, trace := s.trace ++ sentEvents s bt } : Port).sent =
      s.sent := by
    rw [Port.sent, List.filterMap_append, sentEvents_sent, List.append_nil]
    rfl
  have hrel : ({ s with curSend := none, trace := s.trace ++ sentEvents s bt } : Port).released =
      s.released ++ s.curSend.toList := by
    rw [Port.released, List.filterMap_append, sentEvents_released]
    rfl
  refine ⟨h.fresh, h.nodup, h.nonempty, ?_, ?_, ?_, fun _ => hlist, h.one, ?_, fun _ => rfl, ?_⟩
  · intro ho
    rw [hsent]
    exact h.order ho
  · rw [hsent]
    exact h.sentPrefix
  · intro c
    have := h.places c
    rw [hrel, List.count_append]
    simpa [Port.waiting] using this
  · intro _
    show s.sends.length + s.onSends ≤ _
    rw [hsends, hons]
    exact Nat.zero_le _
  · intro hmem
    refine h.cleared ((List.mem_append.mp hmem).resolve_right ?_)
    exact cleared_not_mem_sentEvents s bt

theorem Sending.onSend (h : Sending s) {bt err : ℤ} {rest : List StrandCall}
    (hq : s.queue = .onSend bt err :: rest) :
    Sending ({ s with queue := rest }.iOnSendStrand bt) := by
  have hpop : Sending { s with queue := rest } := h.pop hq rfl
  have hons : s.onSends = rest.countP StrandCall.isOnSend + 1 := by
    rw [Port.onSends, hq]
    exact List.countP_cons_of_pos rfl
  rcases Bool.eq_false_or_eq_true s.isOpen with hopen | hclosed
  · -- the command under way is the one that this completion is of
    have hflight := h.inFlight hopen
    obtain ⟨c, hcur⟩ : ∃ c, s.curSend = some c := by
      cases hcur : s.curSend with
      | none =>
        rw [hcur, hons] at hflight
        simp at hflight
      | some c => exact ⟨c, rfl⟩
    rw [hcur, hons, Option.toList_some, List.length_singleton] at hflight
    have hsends : s.sends = [] := List.length_eq_zero_iff.mp (by omega)
    have hrest : rest.countP StrandCall.isOnSend = 0 := by omega
    by_cases hlist : s.cmdInfoList = []
    · rw [iOnSendStrand_last { s with queue := rest } bt hlist]
      exact hpop.finish bt hlist hsends hrest
    · obtain ⟨ci, list, hlist⟩ := List.exists_cons_of_ne_nil hlist
      have hbody : ci.cmdBody ≠ [] := by
        refine h.nonempty ci ?_
        rw [h.order hopen, hlist]
        simp
      rw [iOnSendStrand_started { s with queue := rest } bt hopen hlist hbody]
      refine hpop.start ci list (sentEvents s bt) hopen rfl rfl hopen rfl rfl ?_ hrest rfl ?_
        (sentEvents_sent s bt) (sentEvents_released s bt) (cleared_not_mem_sentEvents s bt)
      · simp [hsends]
      · show s.cmdInfoList ++ _ = _
        rw [hlist]
        rfl
  · -- a completion after the socket was closed
    have hcur := h.closed hclosed
    have hlist := h.idle hcur
    rw [iOnSendStrand_last { s with queue := rest } bt hlist]
    refine hpop.frame le_rfl rfl rfl hcur.symm rfl le_rfl (List.append_nil _).symm rfl rfl
      le_rfl (sentEvents_sent s bt) ?_ (cleared_not_mem_sentEvents s bt)
    exact (sentEvents_released s bt).trans (congrArg Option.toList hcur)

theorem clearEvents_sent (s : Port) : (clearEvents s).filterMap Event.sent? = [] := by
  rw [List.filterMap_eq_nil_iff]
  intro e he
  simp only [clearEvents, List.mem_append, List.mem_map, List.mem_singleton] at he
  rcases he with ((⟨_, _, rfl⟩ | ⟨_, _, rfl⟩) | ⟨_, _, rfl⟩) | rfl <;> rfl

theorem clearEvents_released (s : Port) :
    (clearEvents s).filterMap Event.released? = s.cmdInfoList ++ s.curSend.toList := by
  have hmap : ∀ l : List CmdInfo, (l.map Event.release).filterMap Event.released? = l := by
    intro l
    rw [List.filterMap_map]
    exact List.filterMap_some
  have hbufs : ∀ l : List Buf,
      (l.map fun b => Event.releaseBuf b.id).filterMap Event.released? = [] := by
    intro l
    rw [List.filterMap_map]
    exact List.filterMap_eq_nil_iff.mpr fun _ _ => rfl
  simp only [clearEvents, List.filterMap_append, hmap, hbufs, List.append_nil]
  exact List.append_nil _

/-- `i_do_clear`: what is listed or under way is released. -/
theorem Sending.doClear (h : Sending s) : Sending s.iDoClear := by
  rw [iDoClear_eq]
  refine ⟨h.fresh, h.nodup, h.nonempty, nofun, ?_, ?_, fun _ => rfl, h.one, nofun, fun _ => rfl,
    fun _ => rfl⟩
  · simp only [Port.sent, List.filterMap_append, clearEvents_sent, List.append_nil]
    exact h.sentPrefix
  · intro c
    have := h.places c
    simp only [Port.released, Port.waiting, List.filterMap_append, clearEvents_released,
      List.count_append, Option.toList_none, List.count_nil] at this ⊢
    omega

theorem Sending.onError (h : Sending s) (err : ℤ) : Sending (s.iOnErrorStrand err) := by
  unfold Port.iOnErrorStrand
  split
  · refine Sending.doClear (h.frame le_rfl rfl rfl rfl rfl le_rfl (List.append_nil _).symm rfl rfl
      le_rfl ?_ ?_ ?_) <;> simp [Event.sent?, Event.released?]
  · exact h.doClear

theorem Sending.exec (h : Sending s) {call : StrandCall} {rest : List StrandCall}
    (hq : s.queue = call :: rest) : Sending ({ s with queue := rest }.exec env call) := by
  cases call with
  | sendMessage ci => exact h.sendMessage hq
  | onRecv bt err =>
    obtain ⟨calls, hr, hcalls⟩ := iOnRecvStrand_frame env { s with queue := rest } bt err
    exact (h.pop hq rfl).recvOnly hr (hcalls.imp_right fun hc => ⟨_, hc⟩)
  | onSend bt err => exact h.onSend hq
  | onError err => exact (h.pop hq rfl).onError err
  | doClear => exact (h.pop hq rfl).doClear
  | other => exact h.pop hq rfl

/-! ## The other steps -/

theorem command_ne_nil (ks : ℕ → UInt8) {buf : List UInt8} (hlen : headerLen ≤ buf.length) :
    Port.command ks buf ≠ [] := by
  intro hnil
  have := congrArg List.length hnil
  simp only [Port.command, List.length_append, List.length_take, List.length_nil] at this
  have hpos : 0 < headerLen := by decide
  omega

theorem Sending.send (h : Sending s) {buf : List UInt8} (hlen : headerLen ≤ buf.length) :
    Sending (s.sendMessage env buf) := by
  unfold Port.sendMessage
  simp only
  split
  · refine h.frame (Nat.le_succ _) rfl rfl rfl rfl le_rfl (List.append_nil _).symm rfl rfl le_rfl
      ?_ ?_ ?_ <;> simp [Event.sent?, Event.released?]
  · have hnew : ∀ ci ∈ s.posted, ci ≠ ⟨s.made, Port.command env.ks buf⟩ := by
      rintro ci hci rfl
      exact lt_irrefl _ (h.fresh _ hci)
    refine ⟨?_, ?_, ?_, ?_, ?_, ?_, h.idle, h.one, ?_, h.closed, h.cleared⟩
    · intro ci hci
      rcases List.mem_append.mp hci with hci | hci
      · exact (h.fresh ci hci).trans (Nat.lt_succ_self _)
      · rw [List.mem_singleton.mp hci]
        exact Nat.lt_succ_self _
    · refine List.nodup_append.mpr ⟨h.nodup, by simp, ?_⟩
      intro ci hci c hc
      rw [List.mem_singleton.mp hc]
      exact hnew ci hci
    · intro ci hci
      rcases List.mem_append.mp hci with hci | hci
      · exact h.nonempty ci hci
      · rw [List.mem_singleton.mp hci]
        exact command_ne_nil env.ks hlen
    · intro ho
      simp only [h.order ho, Port.sent, Port.waiting, List.filterMap_append, List.append_assoc]
      rfl
    · exact h.sentPrefix.trans (List.prefix_append _ _)
    · intro c
      have := h.places c
      simp only [Port.released, Port.waiting, List.filterMap_append, List.count_append,
        List.filterMap_cons_some
          (show (StrandCall.sendMessage _).command? = some _ from rfl),
        List.filterMap_nil] at this ⊢
      omega
    · intro ho
      simpa [Port.onSends, StrandCall.isOnSend] using h.inFlight ho

/-- The end of a write: it may post its completion. -/
theorem Sending.sendDone (h : Sending s) {i : ℕ} (hi : i < s.sends.length) (bt err : ℤ) :
    Sending (if s.sockSendCb then
        ({ s with sends := s.sends.eraseIdx i } : Port).post env (.onSend bt err)
      else { s with sends := s.sends.eraseIdx i }) := by
  have hlen : (s.sends.eraseIdx i).length + 1 = s.sends.length := by
    rw [List.length_eraseIdx_of_lt hi]
    omega
  have hle := Nat.le_of_succ_le hlen.le
  split
  · unfold Port.post
    split
    · refine h.frame le_rfl rfl rfl rfl rfl hle (List.append_nil _).symm rfl rfl hle ?_ ?_ ?_ <;>
        simp [Event.sent?, Event.released?]
    · refine h.frame le_rfl rfl rfl rfl rfl hle rfl (List.append_nil _).symm rfl hlen.le rfl rfl ?_
      simp
  · exact h.frame le_rfl rfl rfl rfl rfl hle (List.append_nil _).symm (List.append_nil _).symm rfl
      hle rfl rfl (by simp)

theorem Sending.errorOccur (h : Sending s) (err : ℤ) : Sending (s.errorOccur env err) := by
  unfold Port.errorOccur
  split
  · refine Sending.post ?_ rfl rfl
    exact h.frame le_rfl rfl rfl rfl rfl le_rfl (List.append_nil _).symm (List.append_nil _).symm
      rfl le_rfl rfl rfl (by simp)
  · exact h

theorem sending_step (h : Sending s) {a : Action} (hs : step env s a = some t) : Sending t := by
  cases a with
  | send buf =>
    obtain ⟨-, rfl⟩ | ⟨hlen, rfl⟩ := step_send_iff.mp hs
    · exact h
    · exact h.send hlen
  | clear =>
    obtain rfl := Option.some.inj hs
    exact h.post rfl rfl
  | other =>
    obtain rfl := Option.some.inj hs
    exact h.post rfl rfl
  | work =>
    obtain ⟨call, rest, hq, rfl⟩ := step_work_iff.mp hs
    exact h.exec hq
  | recvDone i bytes =>
    obtain ⟨r, -, -, rfl⟩ := step_recvDone_iff.mp hs
    have hreceived : Sending (s.received i r bytes) := by
      refine h.frame le_rfl rfl rfl rfl rfl le_rfl (List.append_nil _).symm rfl rfl le_rfl
        ?_ ?_ ?_ <;> simp [Event.sent?, Event.released?]
    split
    · exact hreceived.post rfl rfl
    · exact hreceived
  | recvFail i err =>
    obtain ⟨-, rfl⟩ := step_recvFail_iff.mp hs
    refine Sending.errorOccur ?_ err
    exact h.frame le_rfl rfl rfl rfl rfl le_rfl (List.append_nil _).symm (List.append_nil _).symm
      rfl le_rfl rfl rfl (by simp)
  | transmit i n =>
    obtain ⟨r, -, -, -, -, rfl⟩ := step_transmit_iff.mp hs
    refine h.frame le_rfl rfl rfl rfl rfl ?_ (List.append_nil _).symm rfl rfl ?_ ?_ ?_ ?_ <;>
      simp [Port.log, Event.sent?, Event.released?]
  | sendDone i =>
    obtain ⟨r, hr, -, rfl⟩ := step_sendDone_iff.mp hs
    exact h.sendDone (List.getElem?_eq_some_iff.mp hr).1 _ _
  | sendFail i err =>
    obtain ⟨-, rfl⟩ := step_sendFail_iff.mp hs
    refine Sending.errorOccur ?_ err
    exact h.frame le_rfl rfl rfl rfl rfl (List.length_eraseIdx_le _ _) (List.append_nil _).symm
      (List.append_nil _).symm rfl (List.length_eraseIdx_le _ _) rfl rfl (by simp)

/-! ## A closed socket -/

theorem log_sent (s : Port) {e : Event} (he : e.sent? = none) : (s.log e).sent = s.sent := by
  simp [Port.sent, Port.log, he]

theorem post_sent (s : Port) (call : StrandCall) : (s.post env call).sent = s.sent := by
  unfold Port.post
  split
  · exact log_sent s rfl
  · rfl

theorem errorOccur_closed (env : Env) (s : Port) (err : ℤ) :
    (s.errorOccur env err).isOpen = s.isOpen ∧ (s.errorOccur env err).sent = s.sent := by
  unfold Port.errorOccur
  split
  · exact ⟨post_isOpen _ _, post_sent _ _⟩
  · exact ⟨rfl, rfl⟩

theorem iDoClear_closed (s : Port) : s.iDoClear.isOpen = false ∧ s.iDoClear.sent = s.sent := by
  rw [iDoClear_eq]
  refine ⟨rfl, ?_⟩
  simp only [Port.sent, List.filterMap_append, clearEvents_sent, List.append_nil]

theorem exec_closed (hclosed : s.isOpen = false) (call : StrandCall) :
    (s.exec env call).isOpen = false ∧ (s.exec env call).sent = s.sent := by
  cases call with
  | sendMessage ci =>
    show (s.iSendMessageStrand ci).isOpen = false ∧ (s.iSendMessageStrand ci).sent = s.sent
    rw [iSendMessageStrand_closed s hclosed]
    exact ⟨hclosed, log_sent s rfl⟩
  | onRecv bt err =>
    have : s.iOnRecvStrand env bt err = s := if_pos (.inr hclosed)
    rw [Port.exec, this]
    exact ⟨hclosed, rfl⟩
  | onSend bt err =>
    simp only [Port.exec]
    have hsent : (s.trace ++ sentEvents s bt).filterMap Event.sent? = s.sent := by
      rw [List.filterMap_append, sentEvents_sent, List.append_nil]
      rfl
    by_cases hlist : s.cmdInfoList = []
    · rw [iOnSendStrand_last s bt hlist]
      exact ⟨hclosed, hsent⟩
    · obtain ⟨ci, list, hlist⟩ := List.exists_cons_of_ne_nil hlist
      have hrelease := iSendMessageStrand_closed
        { s with curSend := none, cmdInfoList := list, trace := s.trace ++ sentEvents s bt }
        hclosed ci
      rw [iOnSendStrand_next s bt hlist, hrelease]
      exact ⟨hclosed, (log_sent _ rfl).trans hsent⟩
  | onError err =>
    simp only [Port.exec, Port.iOnErrorStrand]
    obtain ⟨hopen, hsent⟩ := iDoClear_closed (if s.errCb then s.log (.errCb err) else s)
    refine ⟨hopen, hsent.trans ?_⟩
    split
    · exact log_sent s rfl
    · rfl
  | doClear => exact iDoClear_closed s
  | other => exact ⟨hclosed, rfl⟩

/-- A closed socket stays closed, and nothing more is sent. -/
theorem closed_step (hclosed : s.isOpen = false) {a : Action} (hs : step env s a = some t) :
    t.isOpen = false ∧ t.sent = s.sent := by
  cases a with
  | send buf =>
    obtain ⟨-, rfl⟩ | ⟨-, rfl⟩ := step_send_iff.mp hs
    · exact ⟨hclosed, rfl⟩
    · simp only [Port.sendMessage]
      split
      · exact ⟨hclosed, log_sent _ rfl⟩
      · exact ⟨hclosed, rfl⟩
  | clear =>
    obtain rfl := Option.some.inj hs
    exact ⟨(post_isOpen s _).trans hclosed, post_sent s _⟩
  | other =>
    obtain rfl := Option.some.inj hs
    exact ⟨(post_isOpen s _).trans hclosed, post_sent s _⟩
  | work =>
    obtain ⟨call, rest, hq, rfl⟩ := step_work_iff.mp hs
    exact exec_closed (show ({ s with queue := rest } : Port).isOpen = false from hclosed) call
  | recvDone i bytes =>
    obtain ⟨r, -, -, rfl⟩ := step_recvDone_iff.mp hs
    have hsent : (s.received i r bytes).sent = s.sent := log_sent _ rfl
    split
    · exact ⟨(post_isOpen _ _).trans hclosed, (post_sent _ _).trans hsent⟩
    · exact ⟨hclosed, hsent⟩
  | recvFail i err =>
    obtain ⟨-, rfl⟩ := step_recvFail_iff.mp hs
    obtain ⟨hopen, hsent⟩ := errorOccur_closed env { s with recvs := s.recvs.eraseIdx i } err
    exact ⟨hopen.trans hclosed, hsent⟩
  | transmit i n =>
    obtain ⟨r, -, -, -, hopen, -⟩ := step_transmit_iff.mp hs
    exact absurd (hclosed.symm.trans hopen) (by simp)
  | sendDone i =>
    obtain ⟨r, -, -, rfl⟩ := step_sendDone_iff.mp hs
    split
    · exact ⟨(post_isOpen _ _).trans hclosed, post_sent _ _⟩
    · exact ⟨hclosed, rfl⟩
  | sendFail i err =>
    obtain ⟨-, rfl⟩ := step_sendFail_iff.mp hs
    obtain ⟨hopen, hsent⟩ := errorOccur_closed env { s with sends := s.sends.eraseIdx i } err
    exact ⟨hopen.trans hclosed, hsent⟩

end Steps

/-! ## Runs -/

/-- In every run of a netport at most one write is outstanding; the commands are sent in the order
of their posts, each at most once, and none is skipped while the socket is open; each is released
at most once; and once `i_do_clear` has run every command whose strand call has run is released and
nothing is sent any more. -/
theorem commands_sent_in_order (env : Env) (load : ℕ) (s : Port)
    (h : Reachable (step env) (bound load) s) :
    s.sends.length ≤ 1 ∧
    s.posted.Nodup ∧ s.sent <+: s.posted ∧
    (s.isOpen = true → s.posted = s.sent ++ (s.cmdInfoList ++ s.waiting)) ∧
    s.released.Nodup ∧
    (.cleared ∈ s.trace →
      (∀ ci ∈ s.posted, ci ∉ s.waiting → ci ∈ s.released) ∧
      ∀ t, Reachable (step env) s t → t.sent = s.sent) := by
  have hinv : Sending s :=
    h.invariant (sending_bound load) fun _ _ _ hi _ hs => sending_step hi hs
  have honce : ∀ ci, s.posted.count ci ≤ 1 := List.nodup_iff_count_le_one.mp hinv.nodup
  refine ⟨hinv.one, hinv.nodup, hinv.sentPrefix, hinv.order, ?_, fun hcleared => ⟨?_, ?_⟩⟩
  · refine List.nodup_iff_count_le_one.mpr fun ci => ?_
    have hplaces := hinv.places ci
    have := honce ci
    omega
  · intro ci hci hwait
    have hcur := hinv.closed (hinv.cleared hcleared)
    have hlist := hinv.idle hcur
    have hplaces := hinv.places ci
    rw [hcur, hlist, List.count_eq_zero_of_not_mem hwait] at hplaces
    refine List.count_pos_iff.mp ?_
    calc 0 < s.posted.count ci := List.count_pos_iff.mpr hci
      _ = s.released.count ci := hplaces
  · intro t ht
    refine (ht.invariant (P := fun u => u.isOpen = false ∧ u.sent = s.sent)
      ⟨hinv.cleared hcleared, rfl⟩ ?_).2
    rintro u a v ⟨hclosed, hsent⟩ - hs
    obtain ⟨hopen, hkeep⟩ := closed_step hclosed hs
    exact ⟨hopen, hkeep.trans hsent⟩

/-- Two headers without body posted, the first one sent; then the netport is cleared. -/
def sendAndClear : List Action :=
  [.send (List.replicate headerLen 0), .send (List.replicate headerLen 0), .work, .clear, .work,
    .work]

set_option maxRecDepth 4000 in
theorem commands_sent_in_order_cleared :
    ∃ s, run (step ⟨fun _ => false, fun _ => 0⟩) (bound 0) sendAndClear = some s ∧
      s.posted.map CmdInfo.id = [1, 2] ∧ s.sent.map CmdInfo.id = [1] ∧
      ∀ ci ∈ s.posted, ci ∈ s.released := by
  refine ⟨_, rfl, rfl, rfl, fun ci hci => ?_⟩
  have h := commands_sent_in_order ⟨fun _ => false, fun _ => 0⟩ 0 _
    (Reach.of_run (show run _ (bound 0) sendAndClear = some _ from rfl))
  exact (h.2.2.2.2.2 (by decide)).1 ci hci List.not_mem_nil

end DevFramework.Netport
