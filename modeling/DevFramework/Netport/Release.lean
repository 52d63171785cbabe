import Mathlib.Data.List.Perm.Subperm
import DevFramework.Netport.Holding
import DevFramework.Netport.Life

/-! # The buffers of the outstanding operations

An operation uses its buffer until its handler has run, also after the socket was closed. A
completion and a command that have not reached the strand are in the list of the worker or in the
hands of a handler. `i_do_clear` closes the socket and releases every buffer at once, whatever is
outstanding.
-/
namespace DevFramework.Netport
open Transition
set_option autoImplicit false
set_option maxHeartbeats 250000

/-! ## The calls on their way -/

/-- `calls` are the calls that have not run. -/
structure Held (s : Port) (calls : List StrandCall) : Prop where
  reading : Reading s (calls.countP StrandCall.isOnRecv)
  writing : Writing s (calls.countP StrandCall.isOnSend) (calls.filterMap StrandCall.command?)

section Held
variable {env : Env} {s t : Port} {calls calls' : List StrandCall}

theorem Held.fewer (h : Held s calls) (hsub : calls'.Subperm calls) : Held s calls' := by
  have hids : ((calls'.filterMap StrandCall.command?).map CmdInfo.id).Subperm
      ((calls.filterMap StrandCall.command?).map CmdInfo.id) := by
    obtain ⟨l, hperm, hsub⟩ := hsub
    exact ((hperm.filterMap _).map _).symm.subperm.trans ((hsub.filterMap _).map _).subperm
  refine ⟨?_, ?_⟩
  · exact h.reading.mono (hsub.countP_le StrandCall.isOnRecv)
  · have hwriting := h.writing.mono (hsub.countP_le StrandCall.isOnSend)
    refine ⟨hwriting.inFlight, hwriting.closed, hwriting.named, hwriting.issued.moved fun id => ?_⟩
    have := hids.count_le id
    rw [count_commands, count_commands]
    omega

/-- Calls that are no completions and carry no command. -/
theorem Held.more (h : Held s calls) {posted : List StrandCall}
    (hposted : ∀ call ∈ posted, call.isOnRecv = false ∧ call.isOnSend = false ∧
      call.command? = none) : Held s (posted ++ calls) := by
  have hrecv : posted.countP StrandCall.isOnRecv = 0 := by
    refine List.countP_eq_zero.mpr fun call hcall => ?_
    simp [(hposted call hcall).1]
  have hsend : posted.countP StrandCall.isOnSend = 0 := by
    refine List.countP_eq_zero.mpr fun call hcall => ?_
    simp [(hposted call hcall).2.1]
  have hcommands : posted.filterMap StrandCall.command? = [] :=
    List.filterMap_eq_nil_iff.mpr fun call hcall => (hposted call hcall).2.2
  refine ⟨?_, ?_⟩
  · rw [List.countP_append, hrecv, Nat.zero_add]
    exact h.reading
  · rw [List.countP_append, hsend, Nat.zero_add, List.filterMap_append, hcommands]
    exact h.writing

theorem Held.set (h : Held s calls) (recvCb sendCb errCb : Bool) (queue : List StrandCall) :
    Held { s with recvCb := recvCb, sendCb := sendCb, errCb := errCb, queue := queue } calls := by
  obtain ⟨hreading, hwriting⟩ := h
  exact ⟨⟨hreading.one, hreading.closed, hreading.named, hreading.issued⟩,
    ⟨hwriting.inFlight, hwriting.closed, hwriting.named, hwriting.issued⟩⟩

theorem Held.errCb (h : Held s calls) (err : ℤ) : Held (s.log (.errCb err)) calls :=
  ⟨h.reading.log rfl, h.writing.log rfl⟩

theorem Held.clear (h : Held s calls) (hidle : s.recvs = [] ∧ s.sends = []) :
    Held s.iDoClear calls :=
  ⟨h.reading.doClear hidle.1, h.writing.doClear hidle.2⟩

theorem Held.post (h : Held s calls) (call : StrandCall) : Held (s.post env call) calls :=
  ⟨h.reading.post call, h.writing.post call⟩

/-- A call that waited is posted. -/
theorem Held.posted {call : StrandCall} {hand : List StrandCall}
    (h : Held s (call :: (s.queue ++ hand))) :
    Held (s.post env call) ((s.post env call).queue ++ hand) := by
  apply (h.post call).fewer
  obtain ⟨posted, hqueue, rfl | rfl⟩ := post_queue env s call
  · rw [hqueue, List.append_nil]
    exact List.subperm_cons_self
  · rw [hqueue, List.append_assoc]
    exact List.perm_middle.subperm

/-- A strand call runs. If it ends the connection, no operation is outstanding. -/
theorem Held.exec {call : StrandCall} (h : Held s (call :: calls))
    (hidle : call.ends = true → s.recvs = [] ∧ s.sends = []) : Held (s.exec env call) calls := by
  have hreading := h.reading
  have hwriting := h.writing
  cases call with
  | sendMessage ci =>
    exact ⟨hreading.sendOnly (iSendMessageStrand_frame s ci), hwriting.sendMessage⟩
  | onRecv bt err =>
    obtain ⟨posted, hst, -⟩ := iOnRecvStrand_frame env s bt err
    rw [List.countP_cons_of_pos rfl] at hreading
    exact ⟨hreading.onRecv bt err, hwriting.recvOnly hst⟩
  | onSend bt err =>
    rw [List.countP_cons_of_pos rfl] at hwriting
    exact ⟨hreading.sendOnly (iOnSendStrand_frame s bt), hwriting.onSend bt⟩
  | onError err =>
    have hrest := h.fewer List.subperm_cons_self
    simp only [Port.exec, Port.iOnErrorStrand]
    split
    · exact (hrest.errCb err).clear (hidle rfl)
    · exact hrest.clear (hidle rfl)
  | doClear => exact (h.fewer List.subperm_cons_self).clear (hidle rfl)
  | other => exact ⟨hreading, hwriting⟩

theorem Held.work {call : StrandCall} {rest hand : List StrandCall}
    (h : Held s (s.queue ++ hand)) (hqueue : s.queue = call :: rest)
    (hidle : call.ends = true → s.recvs = [] ∧ s.sends = []) :
    Held ({ s with queue := rest }.exec env call)
      (({ s with queue := rest }.exec env call).queue ++ hand) := by
  rw [hqueue] at h
  have hpop : Held { s with queue := rest } (call :: (rest ++ hand)) :=
    h.set s.recvCb s.sendCb s.errCb rest
  obtain ⟨posted, hposted, herror⟩ := exec_posts env { s with queue := rest } call
  have hmore : ∀ call ∈ posted, call.isOnRecv = false ∧ call.isOnSend = false ∧
      call.command? = none := by
    obtain rfl | ⟨-, rfl⟩ := herror
    · exact nofun
    · simp [StrandCall.isOnRecv, StrandCall.isOnSend, StrandCall.command?]
  apply ((hpop.exec hidle).more hmore).fewer
  rw [hposted, ← List.append_assoc]
  exact (List.perm_append_comm.append_right hand).subperm

/-! ## Handlers -/

theorem fill_buffers (r : RecvReq) (bytes : List UInt8) (buf : Option Buf) :
    (buf.map (Port.fill r bytes)).toList.map Buf.id = buf.toList.map Buf.id := by
  cases buf with
  | none => rfl
  | some b => exact congrArg (fun id => [id]) (fill_id r bytes b)

/-- A handler takes its call when its callback is still set. -/
theorem Held.took {call : StrandCall} (h : Held s (call :: calls)) (cb : Bool) :
    Held s ((if cb then [call] else []) ++ calls) := by
  cases cb with
  | true => exact h
  | false => exact h.fewer List.subperm_cons_self

/-- A completion has ended its operation. -/
theorem Taken.held {took : List StrandCall} (ht : Taken s t took) (h : Held s calls) :
    Held t (took ++ calls) := by
  have hreading := h.reading
  have hwriting := h.writing
  cases ht with
  | recvDone i r bytes hr hlen =>
    apply Held.took
    refine ⟨?_, ?_⟩
    · rw [List.countP_cons_of_pos rfl]
      refine (hreading.ended hr).frame le_rfl (List.Subset.refl _) rfl ?_ le_rfl rfl ?_
      · simp only [Port.buffers, Port.received, Port.log, List.map_append, fill_buffers]
      · simp [Event.freed?]
    · exact hwriting.frame le_rfl (fun r hr => ⟨r, hr, rfl⟩) rfl rfl rfl le_rfl rfl
        (by simp [Event.released?])
  | sendDone i r hr =>
    apply Held.took
    refine ⟨⟨hreading.one, hreading.closed, hreading.named, hreading.issued⟩, ?_⟩
    rw [List.countP_cons_of_pos rfl]
    exact hwriting.ended hr
  | recvFail i r err hr =>
    have hended := (hreading.ended hr).mono (Nat.le_succ _)
    apply Held.took
    exact ⟨⟨hended.one, hended.closed, hended.named, hended.issued⟩,
      ⟨hwriting.inFlight, hwriting.closed, hwriting.named, hwriting.issued⟩⟩
  | sendFail i r err hr =>
    have hended := (hwriting.ended hr).mono (Nat.le_succ _)
    apply Held.took
    exact ⟨⟨hreading.one, hreading.closed, hreading.named, hreading.issued⟩,
      ⟨hended.inFlight, hended.closed, hended.named, hended.issued⟩⟩

/-! ## The other steps -/

theorem Held.send {hand : List StrandCall} (h : Held s (s.queue ++ hand)) (buf : List UInt8) :
    Held (s.sendMessage env buf) ((s.sendMessage env buf).queue ++ hand) := by
  have hreading := h.reading
  have hwriting := h.writing
  unfold Port.sendMessage
  simp only
  split
  · refine ⟨?_, ?_⟩
    · exact hreading.frame le_rfl (List.Subset.refl _) rfl rfl (Nat.le_succ _) rfl
        (by simp [Event.freed?])
    · exact hwriting.frame le_rfl (fun r hr => ⟨r, hr, rfl⟩) rfl rfl rfl (Nat.le_succ _) rfl
        (by simp [Event.released?])
  · have hnew : Held { s with
        made := s.made + 1
        queue := s.queue ++ [.sendMessage ⟨s.made, Port.command env.ks buf⟩]
        posted := s.posted ++ [⟨s.made, Port.command env.ks buf⟩] }
        (.sendMessage ⟨s.made, Port.command env.ks buf⟩ :: (s.queue ++ hand)) := by
      refine ⟨?_, hwriting.inFlight, hwriting.closed, hwriting.named, ?_⟩
      · exact hreading.frame le_rfl (List.Subset.refl _) rfl rfl (Nat.le_succ _)
          (List.append_nil _).symm (List.forall_mem_nil _)
      · refine hwriting.issued.next.moved fun id => ?_
        rw [List.count_append, count_commands, count_commands,
          List.filterMap_cons_some (show (StrandCall.sendMessage _).command? = some _ from rfl),
          count_cons_ids]
        simp only [Port.released]
        omega
    apply hnew.fewer
    rw [List.append_assoc]
    exact List.perm_middle.subperm

/-- A step that is no completion and runs no call. -/
theorem Held.step {hand : List StrandCall} (h : Held s (s.queue ++ hand)) {a : Action}
    (ha : a.completes = false) (hwork : a ≠ .work) (hs : step env s a = some t) :
    Held t (t.queue ++ hand) := by
  have hneutral : ∀ call : StrandCall, call.isOnRecv = false → call.isOnSend = false →
      call.command? = none → Held s (call :: (s.queue ++ hand)) := by
    intro call hrecv hsend hcommand
    have hcons : call :: (s.queue ++ hand) = [call] ++ (s.queue ++ hand) := rfl
    rw [hcons]
    refine h.more fun c hc => ?_
    rw [List.mem_singleton.mp hc]
    exact ⟨hrecv, hsend, hcommand⟩
  cases a with
  | send buf =>
    obtain ⟨-, rfl⟩ | ⟨-, rfl⟩ := step_send_iff.mp hs
    · exact h
    · exact h.send buf
  | clear =>
    obtain rfl := Option.some.inj hs
    exact (hneutral .doClear rfl rfl rfl).posted
  | other =>
    obtain rfl := Option.some.inj hs
    exact (hneutral .other rfl rfl rfl).posted
  | transmit i n =>
    obtain ⟨r, hr, -, -, -, rfl⟩ := step_transmit_iff.mp hs
    refine ⟨?_, ?_⟩
    · exact h.reading.frame le_rfl (List.Subset.refl _) rfl rfl le_rfl rfl (by simp [Event.freed?])
    · refine h.writing.frame ?_ ?_ rfl rfl rfl le_rfl rfl (by simp [Event.released?])
      · simp [Port.log]
      · -- the bytes that are left change, the command stays
        intro r' hr'
        rcases List.mem_or_eq_of_mem_set hr' with hold | rfl
        · exact ⟨r', hold, rfl⟩
        · exact ⟨r, List.mem_of_getElem? hr, rfl⟩
  | work => exact absurd rfl hwork
  | recvDone | recvFail | sendDone | sendFail => cases ha

/-! ## Released buffers -/

/-- No outstanding operation names a buffer that was released. -/
def Port.Unreleased (s : Port) : Prop :=
  (∀ r ∈ s.recvs, .releaseBuf r.buf ∉ s.trace) ∧ ∀ r ∈ s.sends, .release r.cmd ∉ s.trace

theorem Held.unreleased (h : Held s calls) : s.Unreleased := by
  refine ⟨fun r hr hfree => ?_, fun r hr hrelease => ?_⟩
  · exact h.reading.issued.apart (h.reading.named r hr) (List.mem_filterMap.mpr ⟨_, hfree, rfl⟩)
  · have hreleased : r.cmd ∈ s.released := List.mem_filterMap.mpr ⟨_, hrelease, rfl⟩
    have hissued := h.writing.issued
    rw [Port.commands, List.append_assoc, List.append_assoc, List.map_append] at hissued
    refine hissued.apart ?_ (List.mem_map_of_mem hreleased)
    rw [h.writing.named r hr]
    simp

theorem clear_releases (h : Held s calls) (hbusy : ¬ (s.recvs = [] ∧ s.sends = [])) :
    ¬ s.iDoClear.Unreleased := by
  rw [iDoClear_eq]
  rintro ⟨hrecvs, hsends⟩
  apply hbusy
  refine ⟨List.eq_nil_iff_forall_not_mem.mpr fun r hr => ?_,
    List.eq_nil_iff_forall_not_mem.mpr fun r hr => ?_⟩
  · obtain ⟨b, hb, hid⟩ := List.mem_map.mp (h.reading.named r hr)
    refine hrecvs r hr (List.mem_append_right _ ?_)
    rw [clearEvents, ← hid]
    exact List.mem_append_left _ (List.mem_append_right _ (List.mem_map_of_mem hb))
  · refine hsends r hr (List.mem_append_right _ ?_)
    rw [clearEvents, h.writing.named r hr]
    simp

/-- The connection ends while an operation is outstanding. -/
theorem Held.ends {call : StrandCall} (h : Held s calls) (hends : call.ends = true)
    (hbusy : ¬ (s.recvs = [] ∧ s.sends = [])) : ¬ (s.exec env call).Unreleased := by
  cases call with
  | onError err =>
    simp only [Port.exec, Port.iOnErrorStrand]
    split
    · exact clear_releases (h.errCb err) hbusy
    · exact clear_releases h hbusy
  | doClear => exact clear_releases h hbusy
  | _ => cases hends

end Held

/-! ## Runs -/

namespace Life
variable {env : Env} {s t : Life}

/-- The guard of a run with one bind in which the connection ends only while no operation is
outstanding. -/
def EndsIdle (s : Life) : Action → Prop
  | .bindSocket => False
  | .port .work => ∀ call rest, s.port.queue = call :: rest → call.ends = true →
      s.port.recvs = [] ∧ s.port.sends = []
  | _ => True

theorem held_step (h : s.binding = none ∧ Held s.port (s.port.queue ++ s.hand)) {a : Action}
    (hok : EndsIdle s a) (hs : step env s a = some t) :
    t.binding = none ∧ Held t.port (t.port.queue ++ t.hand) := by
  obtain ⟨hnone, hheld⟩ := h
  have hbind : a ≠ .bindSocket := by
    rintro rfl
    exact hok
  cases step_inv hbind hnone hs with
  | take a p calls _ hp ht =>
    subst ht
    have hqueue : p.queue = s.port.queue := by
      cases take_inv hp <;> rfl
    refine ⟨rfl, ((take_inv hp).held hheld).fewer ?_⟩
    rw [hqueue, ← List.append_assoc]
    exact List.perm_append_comm.subperm
  | port a p ha hp ht =>
    subst ht
    refine ⟨rfl, ?_⟩
    by_cases hwork : a = .work
    · subst hwork
      obtain ⟨call, rest, hqueue, rfl⟩ := step_work_iff.mp hp
      exact hheld.work hqueue (hok call rest hqueue)
    · exact hheld.step ha hwork hp
  | put i call hi ht =>
    subst ht
    obtain ⟨hlt, rfl⟩ := List.getElem?_eq_some_iff.mp hi
    have hperm := List.getElem_cons_eraseIdx_perm hlt
    refine ⟨rfl, Held.posted (hheld.fewer ?_)⟩
    exact (List.perm_middle.symm.trans (hperm.append_left s.port.queue)).subperm
  | set recvCb sendCb errCb a ha ht =>
    subst ht
    exact ⟨rfl, hheld.set recvCb sendCb errCb s.port.queue⟩

theorem held_bound (load : ℕ) :
    Held (Netport.bound load) ((Netport.bound load).queue ++ (bound load).hand) := by
  have hrecv : (Netport.bound load).queue.countP StrandCall.isOnRecv = 0 := by
    refine List.countP_eq_zero.mpr fun call hcall => ?_
    rw [List.eq_of_mem_replicate hcall]
    decide
  have hsend : (Netport.bound load).queue.countP StrandCall.isOnSend = 0 :=
    onSends_replicate_other load
  have hcommands : (Netport.bound load).queue.filterMap StrandCall.command? = [] :=
    waiting_replicate_other load
  have hbuffers : (Netport.bound load).freed ++ (Netport.bound load).buffers = [0] := rfl
  simp only [bound, List.append_nil]
  refine ⟨⟨?_, (fun hclosed => by cases hclosed), ?_, ?_⟩,
    ⟨fun _ => ?_, fun _ => rfl, List.forall_mem_nil _, ?_⟩⟩
  · rw [hrecv]
    exact le_rfl
  · simp [Netport.bound, Port.buffers]
  · rw [hbuffers]
    exact ⟨List.nodup_singleton 0, by simp [Netport.bound]⟩
  · rw [hsend]
    exact le_rfl
  · rw [hcommands]
    exact ⟨List.nodup_nil, List.forall_mem_nil _⟩

/-- In every run of a netport in which the connection ends only while no operation is outstanding,
no outstanding operation uses a buffer that was released; a step that ends it otherwise is one after
which some operation does. -/
theorem outstanding_not_released (env : Env) (load : ℕ) (s : Life)
    (h : Reach (step env) EndsIdle (bound load) s) :
    s.port.Unreleased ∧ ∀ a t, step env s a = some t → a ≠ .bindSocket →
      (t.port.Unreleased ↔ EndsIdle s a) := by
  have hheld := h.invariant ⟨rfl, held_bound load⟩ fun _ _ _ hi hok hs => held_step hi hok hs
  refine ⟨hheld.2.unreleased, fun a t hs hbind => ⟨fun hfree => ?_, fun hok => ?_⟩⟩
  · cases step_inv hbind hheld.1 hs with
    | port a p ha hp ht =>
      subst ht
      by_cases hwork : a = .work
      · subst hwork
        intro call rest hqueue hends
        obtain ⟨call', rest', hqueue', rfl⟩ := step_work_iff.mp hp
        obtain ⟨rfl, rfl⟩ : call' = call ∧ rest' = rest := by
          rw [hqueue'] at hqueue
          exact List.cons.inj hqueue
        by_contra hbusy
        have hpop := hheld.2.set s.port.recvCb s.port.sendCb s.port.errCb rest'
        exact hpop.ends hends hbusy hfree
      · cases a <;> trivial
    | take a p calls ha =>
      cases a <;> trivial
    | put i call hi ht => trivial
    | set recvCb sendCb errCb a ha ht =>
      obtain ⟨cb, rfl⟩ | ⟨cb, rfl⟩ | ⟨cb, rfl⟩ := ha <;> trivial
  · exact (held_step hheld hok hs).2.unreleased

theorem outstanding_not_released_sending :
    ∃ s, run (step ⟨fun _ => false, fun _ => 0⟩) (bound 0)
        [.port (.send (List.replicate headerLen 0)), .port .work] = some s ∧
      s.port.recvs.length = 1 ∧ s.port.sends.length = 1 ∧ s.port.Unreleased := by
  have hsend : Reach (step ⟨fun _ => false, fun _ => 0⟩) EndsIdle (bound 0) _ :=
    Reach.refl.tail (a := Action.port (.send (List.replicate headerLen 0))) trivial rfl
  have hwork := hsend.tail (a := Action.port .work)
    (by
      intro call rest hqueue hends
      cases hqueue
      cases hends) rfl
  exact ⟨_, rfl, rfl, rfl, (outstanding_not_released _ 0 _ hwork).1⟩

/-- A clear runs while the netport waits for a header. -/
theorem outstanding_released :
    ∃ s, run (step ⟨fun _ => false, fun _ => 0⟩) (bound 0) [.port .clear, .port .work] = some s ∧
      ∃ r ∈ s.port.recvs, .releaseBuf r.buf ∈ s.port.trace := by
  refine ⟨_, rfl, ⟨0, 0, headerLen⟩, ?_, ?_⟩ <;> decide

end Life

end DevFramework.Netport
