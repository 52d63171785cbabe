import DevFramework.Netport.Life
import DevFramework.Netport.Parsing
import DevFramework.Netport.Sender

/-! # What the upper layer hears of a netport

Errors come from the read, from the write and from a bad header, and each is a strand call of its
own. The strand decides: the first call that ends the connection calls the error callback at most
and then runs `i_do_clear`, which empties the three callbacks and closes the socket.
-/
namespace DevFramework.Netport
open Transition
set_option autoImplicit false
set_option maxHeartbeats 250000

/-- A call of the upper layer. -/
def Event.upper : Event → Bool
  | .recvCb _ | .sendCb _ | .errCb _ => true
  | _ => false

/-! ## Before the first clear -/

/-- The connection has not ended, and no error has been reported. -/
structure Before (s : Port) : Prop where
  uncleared : Event.cleared ∉ s.trace
  errors : s.errors = []

/-- Events that neither report an error nor end the connection. -/
def Event.harmless : Event → Bool
  | .errCb _ | .cleared => false
  | _ => true

section
variable {env : Env} {s t : Port}

theorem harmless_errors {evs : List Event} (h : ∀ e ∈ evs, e.harmless = true) :
    evs.filterMap Event.error? = [] := by
  refine List.filterMap_eq_nil_iff.mpr fun e he => ?_
  have hharm := h e he
  cases e <;> first | rfl | cases hharm

theorem Before.append (h : Before s) {evs : List Event} (htrace : t.trace = s.trace ++ evs)
    (hevs : ∀ e ∈ evs, e.harmless = true) : Before t := by
  refine ⟨?_, ?_⟩
  · rw [htrace, List.mem_append]
    rintro (hold | hnew)
    · exact h.uncleared hold
    · exact absurd (hevs _ hnew) (by decide)
  · rw [Port.errors, htrace, List.filterMap_append, harmless_errors hevs, List.append_nil]
    exact h.errors

theorem Before.recvOnly {calls : List StrandCall} (h : Before s) (hst : RecvOnly s t calls) :
    Before t := by
  obtain ⟨_, _, _, _, _, _, _, evs, rfl, -, hall⟩ := hst
  refine h.append rfl fun e he => ?_
  have hof := hall e he
  cases e <;> first | rfl | cases hof

theorem Before.sendOnly {calls : List StrandCall} (h : Before s) (hst : SendOnly s t calls) :
    Before t := by
  obtain ⟨_, _, _, _, _, _, evs, rfl, -, hall⟩ := hst
  refine h.append rfl fun e he => ?_
  have hof := hall e he
  cases e <;> first | rfl | cases hof

theorem Before.post (h : Before s) (call : StrandCall) : Before (s.post env call) := by
  unfold Port.post
  split
  · exact h.append rfl (by simp [Event.harmless])
  · exact h.append (List.append_nil _).symm nofun

/-! ## After it -/

/-- The connection has ended: the callbacks are empty and the socket is closed. Before the end there
was one error at most, after it the upper layer has heard nothing. -/
structure After (s : Port) : Prop where
  closed : s.isOpen = false
  recvCb : s.recvCb = false
  sendCb : s.sendCb = false
  errCb : s.errCb = false
  history : ∃ before after, s.trace = before ++ .cleared :: after ∧ .cleared ∉ before ∧
    (before.filterMap Event.error?).length ≤ 1 ∧ ∀ e ∈ after, e.upper = false

theorem After.append (h : After s) {evs : List Event} (htrace : t.trace = s.trace ++ evs)
    (hopen : t.isOpen = s.isOpen) (hrecv : t.recvCb = s.recvCb) (hsend : t.sendCb = s.sendCb)
    (herr : t.errCb = s.errCb) (hevs : ∀ e ∈ evs, e.upper = false) : After t := by
  obtain ⟨before, after, hold, hfirst, hone, hquiet⟩ := h.history
  refine ⟨hopen.trans h.closed, hrecv.trans h.recvCb, hsend.trans h.sendCb, herr.trans h.errCb,
    before, after ++ evs, ?_, hfirst, hone, fun e he => ?_⟩
  · rw [htrace, hold, List.append_assoc]
    rfl
  · rcases List.mem_append.mp he with hbefore | hnew
    · exact hquiet e hbefore
    · exact hevs e hnew

theorem After.post (h : After s) (call : StrandCall) : After (s.post env call) := by
  unfold Port.post
  split
  · exact h.append rfl rfl rfl rfl rfl (by simp [Event.upper])
  · exact h.append (List.append_nil _).symm rfl rfl rfl rfl nofun

theorem clearEvents_silent (s : Port) : ∃ evs, clearEvents s = evs ++ [.cleared] ∧
    (∀ e ∈ evs, e.harmless = true) ∧ ∀ e ∈ evs, e.upper = false := by
  refine ⟨_, rfl, ?_, ?_⟩ <;>
    · intro e he
      simp only [List.mem_append, List.mem_map] at he
      rcases he with (⟨_, _, rfl⟩ | ⟨_, _, rfl⟩) | ⟨_, _, rfl⟩ <;> rfl

/-- The first `i_do_clear`, after one error at most. -/
theorem after_iDoClear (huncleared : Event.cleared ∉ s.trace) (hone : s.errors.length ≤ 1) :
    After s.iDoClear := by
  obtain ⟨evs, hclear, hharm, -⟩ := clearEvents_silent s
  rw [iDoClear_eq]
  refine ⟨rfl, rfl, rfl, rfl, s.trace ++ evs, [], ?_, ?_, ?_, nofun⟩
  · simp only [hclear, List.append_assoc]
  · rw [List.mem_append]
    rintro (hold | hnew)
    · exact huncleared hold
    · exact absurd (hharm _ hnew) (by decide)
  · rw [List.filterMap_append, harmless_errors hharm, List.append_nil]
    exact hone

/-- Any later one. -/
theorem After.iDoClear (h : After s) : After s.iDoClear := by
  obtain ⟨evs, hclear, -, hupper⟩ := clearEvents_silent s
  rw [iDoClear_eq]
  refine h.append rfl h.closed.symm h.recvCb.symm h.sendCb.symm h.errCb.symm fun e he => ?_
  rw [hclear] at he
  rcases List.mem_append.mp he with hrelease | hend
  · exact hupper e hrelease
  · rw [List.mem_singleton.mp hend]
    rfl

/-! ## Steps -/

theorem before_exec (h : Before s) (call : StrandCall) :
    Before (s.exec env call) ∨ After (s.exec env call) := by
  cases call with
  | sendMessage ci => exact .inl (h.sendOnly (iSendMessageStrand_frame s ci))
  | onRecv bt err =>
    obtain ⟨calls, hr, -⟩ := iOnRecvStrand_frame env s bt err
    exact .inl (h.recvOnly hr)
  | onSend bt err => exact .inl (h.sendOnly (iOnSendStrand_frame s bt))
  | onError err =>
    refine .inr (after_iDoClear ?_ ?_)
    · split
      · simpa [Port.log] using h.uncleared
      · exact h.uncleared
    · split
      · have herrors : (s.log (.errCb err)).errors = s.errors ++ [err] :=
          List.filterMap_append
        rw [herrors, h.errors]
        exact le_rfl
      · rw [h.errors]
        exact Nat.zero_le 1
  | doClear =>
    refine .inr (after_iDoClear h.uncleared ?_)
    rw [h.errors]
    exact Nat.zero_le 1
  | other => exact .inl h

theorem after_exec (h : After s) (call : StrandCall) : After (s.exec env call) := by
  cases call with
  | sendMessage ci =>
    have hrelease : s.exec env (.sendMessage ci) = s.log (.release ci) :=
      iSendMessageStrand_closed s h.closed ci
    rw [hrelease]
    exact h.append rfl rfl rfl rfl rfl (by simp [Event.upper])
  | onRecv bt err =>
    have hstill : s.exec env (.onRecv bt err) = s := if_pos (.inr h.closed)
    rw [hstill]
    exact h
  | onSend bt err =>
    have hsent : ∀ e ∈ sentEvents s bt, e.upper = false := by
      intro e he
      simp only [sentEvents, h.sendCb, Bool.false_eq_true, if_false, List.nil_append,
        List.mem_map] at he
      obtain ⟨ci, -, rfl⟩ := he
      rfl
    simp only [Port.exec]
    by_cases hlist : s.cmdInfoList = []
    · rw [iOnSendStrand_last s bt hlist]
      exact h.append rfl rfl rfl rfl rfl hsent
    · obtain ⟨ci, list, hlist⟩ := List.exists_cons_of_ne_nil hlist
      have hmid : After { s with
          curSend := none
          cmdInfoList := list
          trace := s.trace ++ sentEvents s bt } := h.append rfl rfl rfl rfl rfl hsent
      rw [iOnSendStrand_next s bt hlist, iSendMessageStrand_closed _ hmid.closed]
      exact hmid.append rfl rfl rfl rfl rfl (by simp [Event.upper])
  | onError err =>
    have hquiet : s.exec env (.onError err) = s.iDoClear := by
      simp [Port.exec, Port.iOnErrorStrand, h.errCb]
    rw [hquiet]
    exact h.iDoClear
  | doClear => exact h.iDoClear
  | other => exact h

/-- A handler calls no callback of the upper layer. -/
theorem Taken.kept {calls : List StrandCall} (h : Taken s t calls) :
    ∃ evs, t.trace = s.trace ++ evs ∧ t.isOpen = s.isOpen ∧ t.recvCb = s.recvCb ∧
      t.sendCb = s.sendCb ∧ t.errCb = s.errCb ∧
      (∀ e ∈ evs, e.harmless = true) ∧ ∀ e ∈ evs, e.upper = false := by
  cases h with
  | recvDone i r bytes hr hlen =>
    exact ⟨[.received bytes], rfl, rfl, rfl, rfl, rfl, by simp [Event.harmless],
      by simp [Event.upper]⟩
  | sendDone | recvFail | sendFail =>
    exact ⟨[], (List.append_nil _).symm, rfl, rfl, rfl, rfl, nofun, nofun⟩

/-- A step that is no completion. -/
theorem port_step {a : Action} (h : Before s ∨ After s) (ha : a.completes = false)
    (hs : step env s a = some t) : Before t ∨ After t := by
  cases a with
  | send buf =>
    obtain ⟨-, rfl⟩ | ⟨-, rfl⟩ := step_send_iff.mp hs
    · exact h
    · simp only [Port.sendMessage]
      split
      · refine h.imp (fun h => h.append rfl (by simp [Event.harmless])) fun h => ?_
        exact h.append rfl rfl rfl rfl rfl (by simp [Event.upper])
      · refine h.imp (fun h => h.append (List.append_nil _).symm nofun) fun h => ?_
        exact h.append (List.append_nil _).symm rfl rfl rfl rfl nofun
  | clear =>
    obtain rfl := Option.some.inj hs
    exact h.imp (fun h => h.post _) fun h => h.post _
  | other =>
    obtain rfl := Option.some.inj hs
    exact h.imp (fun h => h.post _) fun h => h.post _
  | work =>
    obtain ⟨call, rest, -, rfl⟩ := step_work_iff.mp hs
    rcases h with hbefore | hafter
    · exact before_exec (s := { s with queue := rest }) ⟨hbefore.uncleared, hbefore.errors⟩ call
    · have hpop : After { s with queue := rest } :=
        hafter.append (List.append_nil _).symm rfl rfl rfl rfl nofun
      exact .inr (after_exec hpop call)
  | transmit i n =>
    obtain ⟨r, -, -, -, hopen, rfl⟩ := step_transmit_iff.mp hs
    rcases h with hbefore | hafter
    · exact .inl (hbefore.append rfl (by simp [Event.harmless]))
    · exact absurd (hafter.closed.symm.trans hopen) (by simp)
  | recvDone | recvFail | sendDone | sendFail => cases ha

end

namespace Life

/-- The guard of a run with one bind, after whose first `i_do_clear` no callback is set again. -/
def BoundOnce (s : Life) : Action → Prop
  | .bindSocket => False
  | .setRecvCallback _ | .setSendCallback _ | .setErrorCallback _ => Event.cleared ∉ s.port.trace
  | _ => True

theorem bounded_step {env : Env} {s t : Life} {a : Action}
    (h : s.binding = none ∧ (Before s.port ∨ After s.port)) (hok : BoundOnce s a)
    (hs : step env s a = some t) : t.binding = none ∧ (Before t.port ∨ After t.port) := by
  obtain ⟨hnone, hport⟩ := h
  have hbind : a ≠ .bindSocket := by
    rintro rfl
    exact hok
  cases step_inv hbind hnone hs with
  | take a p calls _ hp ht =>
    subst ht
    obtain ⟨evs, htrace, hopen, hrecv, hsend, herr, hharm, hupper⟩ := (take_inv hp).kept
    refine ⟨rfl, hport.imp (fun h => h.append htrace hharm) fun h => ?_⟩
    exact h.append htrace hopen hrecv hsend herr hupper
  | port a p ha hp ht =>
    subst ht
    exact ⟨rfl, port_step hport ha hp⟩
  | put i call _ ht =>
    subst ht
    exact ⟨rfl, hport.imp (fun h => h.post call) fun h => h.post call⟩
  | set recvCb sendCb errCb a ha ht =>
    subst ht
    have huncleared : Event.cleared ∉ s.port.trace := by
      obtain ⟨cb, rfl⟩ | ⟨cb, rfl⟩ | ⟨cb, rfl⟩ := ha <;> exact hok
    refine ⟨rfl, hport.imp (fun h => ⟨h.uncleared, h.errors⟩) fun h => ?_⟩
    obtain ⟨before, after, htrace, -⟩ := h.history
    exact absurd (by rw [htrace]; exact List.mem_append_right _ List.mem_cons_self) huncleared

/-- In every run of a netport bound once, however completions, errors, clears and what their
handlers post come after one another, the error callback is called at most once, and once
`i_do_clear` has run the upper layer hears nothing any more. -/
theorem silent_after_clear (env : Env) (load : ℕ) (s : Life)
    (h : Reach (step env) BoundOnce (bound load) s) :
    s.port.errors.length ≤ 1 ∧ ∀ before after, s.port.trace = before ++ .cleared :: after →
      ∀ e ∈ after, e.upper = false := by
  have hstart : Before (Netport.bound load) := ⟨by simp [Netport.bound], rfl⟩
  have hinv : s.binding = none ∧ (Before s.port ∨ After s.port) :=
    h.invariant ⟨rfl, .inl hstart⟩ fun _ _ _ hi hok hs => bounded_step hi hok hs
  rcases hinv.2 with hbefore | hafter
  · refine ⟨by rw [hbefore.errors]; exact Nat.zero_le 1, fun before after htrace => ?_⟩
    refine absurd ?_ hbefore.uncleared
    rw [htrace]
    exact List.mem_append_right _ List.mem_cons_self
  · obtain ⟨first, last, htrace, huncleared, hone, hquiet⟩ := hafter.history
    refine ⟨?_, fun before after hsplit => ?_⟩
    · have hlast : last.filterMap Event.error? = [] := by
        refine List.filterMap_eq_nil_iff.mpr fun e he => ?_
        have hupper := hquiet e he
        cases e <;> first | rfl | cases hupper
      have hrest : (Event.cleared :: last).filterMap Event.error? = [] := by
        rw [List.filterMap_cons_none rfl]
        exact hlast
      rw [Port.errors, htrace, List.filterMap_append, hrest, List.append_nil]
      exact hone
    · -- no clear is earlier than the first one
      rw [htrace] at hsplit
      rcases List.append_eq_append_iff.mp hsplit with ⟨mid, hbefore, hrest⟩ | ⟨mid, hfirst, hrest⟩
      · rcases List.cons_eq_append_iff.mp hrest with ⟨-, heq⟩ | ⟨mid', -, heq⟩
        · cases heq
          exact hquiet
        · intro e he
          apply hquiet e
          rw [heq]
          exact List.mem_append_right _ (List.mem_cons_of_mem _ he)
      · rcases List.cons_eq_append_iff.mp hrest with ⟨-, heq⟩ | ⟨mid', rfl, -⟩
        · cases heq
          exact hquiet
        · refine absurd ?_ huncleared
          rw [hfirst]
          exact List.mem_append_right _ List.mem_cons_self

/-- The write and the read fail, the first error reaches the strand, and a clear comes after it. -/
def bothFail : List Action :=
  [.port (.send (List.replicate (headerLen + 1) 7)), .port .work, .port (.sendFail 0 104),
    .port (.recvFail 0 125), .put 0, .port .clear, .port .work, .port .work]

theorem silent_after_clear_bothFail :
    ∃ s, run (step ⟨fun _ => false, fun _ => 0⟩) (bound 0) bothFail = some s ∧
      s.port.errors = [104] ∧ s.port.errors.length ≤ 1 ∧ ∀ before after,
        s.port.trace = before ++ .cleared :: after → ∀ e ∈ after, e.upper = false := by
  have hok : ∀ a ∈ bothFail, ∀ u, BoundOnce u a := by
    intro a ha u
    simp only [bothFail, List.mem_cons, List.not_mem_nil, or_false] at ha
    obtain rfl | rfl | rfl | rfl | rfl | rfl | rfl | rfl := ha <;> exact trivial
  have hrun : (run (step ⟨fun _ => false, fun _ => 0⟩) (bound 0) bothFail).map
      (fun s => s.port.errors) = some [104] := by
    decide +kernel
  obtain ⟨s, hs, herrors⟩ := Option.map_eq_some_iff.mp hrun
  exact ⟨s, hs, herrors, silent_after_clear _ 0 s (Reach.of_run_ok hok hs)⟩

end Life

end DevFramework.Netport
