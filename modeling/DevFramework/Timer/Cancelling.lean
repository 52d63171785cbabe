import DevFramework.Timer.Waiting

/-! # What a cancel that has returned promises

The locked section of `i_cancel` leaves no task of its timer in the buckets. It does not see a task
that the task thread has already taken out with its batch: that callback starts later, whether the
cancel has returned or not. A cancel returns clean (`ReturnsClean`) if there is no such task, and no
wait of the same timer has come in between.
-/
namespace DevFramework.Timer.Timers
open OrderedMap Transition
set_option autoImplicit false
set_option maxHeartbeats 250000

/-! ## Silenced timers -/

/-- A cancel of the timer has returned, and there has been no wait on it since. -/
def Silenced (sid : ℤ) (log : List Event) : Prop :=
  ∃ before after, log = before ++ .cancelReturned sid :: after ∧
    ∀ task ms time, .waited task ms time ∈ after → task.sid ≠ sid

theorem silenced_concat {sid : ℤ} {log : List Event} {ev : Event} :
    Silenced sid (log ++ [ev]) ↔ ev = .cancelReturned sid ∨
      Silenced sid log ∧ ∀ task ms time, ev = .waited task ms time → task.sid ≠ sid := by
  constructor
  · rintro ⟨before, after, heq, hquiet⟩
    rcases List.eq_nil_or_concat after with rfl | ⟨after, last, rfl⟩
    · exact .inl (List.head_eq_of_cons_eq (List.append_inj' heq rfl).2)
    · rw [List.concat_eq_append, ← List.cons_append, ← List.append_assoc] at heq
      obtain ⟨hlog, hlast⟩ := List.append_inj' heq rfl
      cases hlast
      refine .inr ⟨⟨before, after, hlog, fun task ms time hw => hquiet task ms time ?_⟩, ?_⟩
      · rw [List.concat_eq_append]
        exact List.mem_append_left _ hw
      · rintro task ms time rfl
        apply hquiet task ms time
        rw [List.concat_eq_append]
        exact List.mem_append_right _ List.mem_cons_self
  · rintro (rfl | ⟨⟨before, after, rfl, hquiet⟩, hev⟩)
    · exact ⟨log, [], rfl, nofun⟩
    · refine ⟨before, after ++ [ev], by simp, fun task ms time hw => ?_⟩
      rcases List.mem_append.mp hw with hold | hnew
      · exact hquiet task ms time hold
      · exact hev task ms time (List.mem_singleton.mp hnew).symm

/-- No callback has been started of a timer that was silenced at that time. -/
def Obeyed (log : List Event) : Prop :=
  ∀ before e time, before ++ [.started e time] <+: log → ¬ Silenced e.task.sid before

theorem obeyed_concat {log : List Event} {ev : Event} (h : Obeyed log)
    (hev : ∀ e time, ev = .started e time → ¬ Silenced e.task.sid log) : Obeyed (log ++ [ev]) := by
  intro before e time hprefix
  rcases List.prefix_concat_iff.mp hprefix with heq | hold
  · obtain ⟨rfl, hlast⟩ := List.append_inj' heq rfl
    cases hlast
    exact hev e time rfl
  · exact h before e time hold

/-! ## The invariant -/

structure Quiet (s : Timers) : Prop where
  filed : Filed s.manager.sidMap s.manager.timeWaitMap
  exited : s.manager.exit = true → s.manager.queued = []
  marks : ∀ c ∈ s.cancels, c.mark ≤ s.manager.accepted.length ∧
    ∀ e ∈ s.manager.queued, e.task.sid = c.sid → c.mark ≤ e.serial
  silent : ∀ sid, Silenced sid s.log → (∀ task ∈ s.waits, task.sid ≠ sid) ∧
    (∀ e ∈ s.manager.queued, e.task.sid ≠ sid) ∧ ∀ e ∈ s.manager.taskThread.rest, e.task.sid ≠ sid
  obeyed : Obeyed s.log

theorem quiet_init (now : ℤ) : Quiet (init now) := by
  refine ⟨⟨nofun, nofun, List.nodup_nil⟩, fun _ => rfl, nofun, ?_, ?_⟩
  · rintro sid ⟨before, after, heq, -⟩
    exact absurd heq.symm (List.append_ne_nil_of_right_ne_nil _ (List.cons_ne_nil _ _))
  · intro before e time hprefix
    have hnil := List.prefix_nil.mp hprefix
    exact absurd hnil (List.append_ne_nil_of_right_ne_nil _ (List.cons_ne_nil _ _))

/-- The guard of a run in which every cancel returns with nothing of its timer under way: no wait
before its lock, nothing in the batch that is being dispatched, nothing filed since the cancel had
the lock. -/
def ReturnsClean (s : Timers) (a : Action) : Prop :=
  ∀ i c, a = .cancelReturn i → s.cancels[i]? = some c →
    (∀ task ∈ s.waits, task.sid ≠ c.sid) ∧
    (∀ e ∈ s.manager.taskThread.rest, e.task.sid ≠ c.sid) ∧
    ∀ e ∈ s.manager.queued, e.task.sid = c.sid → e.serial < c.mark

section Steps
variable {s t : Timers}

/-- Once `exit_` is set the buckets stay empty, and the serial numbers go on from where they are. -/
theorem accepted_step {s t : Manager} {a : Timer.Action}
    (hover : s.exit = true → s.queued = []) (hfiled : Filed s.sidMap s.timeWaitMap)
    (hs : Timer.step s a = some t) :
    s.accepted.length ≤ t.accepted.length ∧ (t.exit = true → t.queued = []) := by
  rcases maps_step hs with ⟨task, rfl, rfl⟩ | ⟨sid, rfl, rfl⟩ | ⟨hacc, hmaps⟩
  · obtain ⟨sm, tw, cl, ce, re, heq, -⟩ := Manager.cancelOwn_frame s task.sid
    unfold Manager.iPostTask
    cases hexit : s.exit with
    | true => exact ⟨le_rfl, fun _ => hover hexit⟩
    | false =>
      rw [heq]
      refine ⟨by simp [Manager.enqueue], fun hgone => ?_⟩
      exact absurd (hgone.symm.trans hexit) (by decide)
  · obtain ⟨_, _, _, _, _, heq, -⟩ := Manager.iCancel_frame s sid
    obtain ⟨-, hsub, -⟩ := queued_iCancel hfiled sid
    refine ⟨by rw [heq], fun hgone => ?_⟩
    have hexit : s.exit = true := by
      rw [heq] at hgone
      exact hgone
    rw [hover hexit] at hsub
    exact List.subset_nil.mp hsub
  · refine ⟨by rw [hacc], fun hgone => ?_⟩
    rcases hmaps with ⟨-, htime, hexit, -⟩ | ⟨-, htime, hexit, -⟩ | ⟨-, htime, -⟩
    · unfold Manager.queued
      rw [htime]
      exact hover (hexit ▸ hgone)
    · have hsub := items_erase_subset (m := s.timeWaitMap) s.tmpTime
      have hempty : items s.timeWaitMap = [] := hover (hexit ▸ hgone)
      unfold Manager.queued
      rw [htime]
      rw [hempty] at hsub
      exact List.subset_nil.mp hsub
    · unfold Manager.queued
      rw [htime]
      rfl

/-- A step of the manager that posts only tasks of timers that are not silenced. -/
theorem Quiet.inManager {b : Timer.Action} (h : Quiet s) (hs : s.inManager b = some t)
    (hpost : ∀ task, b = .post task → ¬ Silenced task.sid s.log) : Quiet t := by
  obtain ⟨m, hm, rfl⟩ := Option.map_eq_some_iff.mp hs
  obtain ⟨hfiled, hqueued⟩ := queued_step h.filed hm
  obtain ⟨hlen, hover⟩ := accepted_step h.exited h.filed hm
  refine ⟨hfiled, hover, fun c hc => ?_, fun sid hsid => ?_, h.obeyed⟩
  · obtain ⟨hmark, hnew⟩ := h.marks c hc
    refine ⟨hmark.trans hlen, fun e he heq => ?_⟩
    rcases hqueued e he with hold | ⟨task, -, -, rfl⟩
    · exact hnew e hold heq
    · exact hmark
  · obtain ⟨hwaits, hfree, hbatch⟩ := h.silent sid hsid
    refine ⟨hwaits, fun e he => ?_, fun e he => ?_⟩
    · rcases hqueued e he with hold | ⟨task, hb, -, rfl⟩
      · exact hfree e hold
      · rintro rfl
        exact hpost task hb hsid
    · rcases rest_step hm with hsub | ⟨-, hrest⟩
      · exact hbatch e (hsub he)
      · rw [hrest] at he
        apply hfree e
        apply (items_perm s.manager.tmpTime s.manager.timeWaitMap).mem_iff.mpr
        exact List.mem_append_left _ he

/-- Waits and cancels that have been there before. -/
theorem Quiet.clients (h : Quiet s) {waits : List TimerTask} {cancels : List Cancelling}
    (hwaits : waits ⊆ s.waits)
    (hcancels : ∀ c ∈ cancels, ∃ c' ∈ s.cancels, c.sid = c'.sid ∧ c.mark = c'.mark) :
    Quiet { s with waits := waits, cancels := cancels } := by
  refine ⟨h.filed, h.exited, fun c hc => ?_, fun sid hsid => ?_, h.obeyed⟩
  · obtain ⟨c', hc', hsid, hmark⟩ := hcancels c hc
    rw [hsid, hmark]
    exact h.marks c' hc'
  · obtain ⟨hold, hfree, hbatch⟩ := h.silent sid hsid
    exact ⟨fun task hw => hold task (hwaits hw), hfree, hbatch⟩

/-- An entry of the log that silences no one and is a callback of no silenced timer. -/
theorem Quiet.logs (h : Quiet s) {ev : Event} (hreturn : ∀ sid, ev ≠ .cancelReturned sid)
    (hstarted : ∀ e time, ev = .started e time → ¬ Silenced e.task.sid s.log) :
    Quiet { s with log := s.log ++ [ev] } := by
  refine ⟨h.filed, h.exited, h.marks, fun sid hsid => h.silent sid ?_, obeyed_concat h.obeyed hstarted⟩
  exact ((silenced_concat.mp hsid).resolve_left (hreturn sid)).1

theorem quiet_wait (h : Quiet s) (sid ms : ℤ) (cb : Option ℕ)
    (hs : step s (.wait sid ms cb) = some t) : Quiet t := by
  cases hs
  refine ⟨h.filed, h.exited, h.marks, fun sid' hsid => ?_, obeyed_concat h.obeyed nofun⟩
  obtain ⟨hold, hother⟩ := (silenced_concat.mp hsid).resolve_left nofun
  obtain ⟨hwaits, hfree, hbatch⟩ := h.silent sid' hold
  refine ⟨fun task hw => ?_, hfree, hbatch⟩
  rcases List.mem_append.mp hw with hbefore | hnew
  · exact hwaits task hbefore
  · exact hother task ms s.manager.now (by rw [List.mem_singleton.mp hnew])

theorem quiet_cancel (h : Quiet s) (sid : ℤ) (hs : step s (.cancel sid) = some t) : Quiet t := by
  simp only [step, Timers.inManager] at hs
  obtain ⟨m, hm, rfl⟩ := Option.map_eq_some_iff.mp hs
  have hafter : Quiet { s with manager := m } := by
    refine h.inManager (Option.map_eq_some_iff.mpr ⟨m, hm, rfl⟩) fun task hpost => ?_
    cases hpost
  have hlen := (accepted_step h.exited h.filed hm).1
  have hfree : ∀ e ∈ m.queued, e.task.sid ≠ sid := by
    cases hm
    obtain ⟨-, hsub, hno⟩ := queued_iCancel h.filed sid
    cases hexit : s.manager.exit with
    | true =>
      rw [h.exited hexit] at hsub
      intro e he
      exact absurd (hsub he) List.not_mem_nil
    | false => exact hno hexit
  refine ⟨hafter.filed, hafter.exited, fun c hc => ?_, hafter.silent, hafter.obeyed⟩
  rcases List.mem_append.mp hc with hold | hnew
  · exact hafter.marks c hold
  · rw [List.mem_singleton.mp hnew]
    exact ⟨hlen, fun e he heq => absurd heq (hfree e he)⟩

theorem quiet_cancelReturn (h : Quiet s) {i : ℕ} (hok : ReturnsClean s (.cancelReturn i))
    (hs : step s (.cancelReturn i) = some t) : Quiet t := by
  simp only [step] at hs
  split at hs
  · cases hs
  rename_i c hc
  split at hs <;> cases hs
  obtain ⟨hwaits, hbatch, hfiled⟩ := hok i c rfl hc
  have hfree : ∀ e ∈ s.manager.queued, e.task.sid ≠ c.sid := by
    intro e he heq
    have hmark := (h.marks c (List.mem_of_getElem? hc)).2 e he heq
    have hlt := hfiled e he heq
    omega
  refine ⟨h.filed, h.exited, fun c' hc' => h.marks c' (List.mem_of_mem_eraseIdx hc'),
    fun sid hsid => ?_, obeyed_concat h.obeyed fun _ _ heq => by cases heq⟩
  rcases silenced_concat.mp hsid with hnow | ⟨hold, -⟩
  · cases hnow
    exact ⟨hwaits, hfree, hbatch⟩
  · exact h.silent sid hold

theorem quiet_taskStep (h : Quiet s) (hs : step s .taskStep = some t) : Quiet t := by
  simp only [step] at hs
  have hlogged : Quiet { s with log := s.log ++ s.manager.starts } := by
    unfold Manager.starts
    split
    · rename_i e rest hpc
      split
      · refine h.logs (fun _ heq => by cases heq) fun e' time heq hsilenced => ?_
        cases heq
        apply (h.silent _ hsilenced).2.2 e
        · rw [hpc]
          exact List.mem_cons_self
        · rfl
      · rw [List.append_nil]
        exact h
    · rw [List.append_nil]
      exact h
  exact hlogged.inManager hs fun _ heq => by cases heq

theorem quiet_step {a : Action} (h : Quiet s) (hok : ReturnsClean s a) (hs : step s a = some t) :
    Quiet t := by
  have hsame : ∀ c ∈ s.cancels, ∃ c' ∈ s.cancels, c.sid = c'.sid ∧ c.mark = c'.mark :=
    fun c hc => ⟨c, hc, rfl, rfl⟩
  cases a with
  | wait sid ms cb => exact quiet_wait h sid ms cb hs
  | enterPost i =>
    simp only [step] at hs
    split at hs
    · cases hs
    · rename_i task hi
      refine (h.clients List.eraseIdx_subset hsame).inManager hs fun task' heq hsilenced => ?_
      cases heq
      exact (h.silent _ hsilenced).1 task (List.mem_of_getElem? hi) rfl
  | cancel sid => exact quiet_cancel h sid hs
  | cancelSetsEvent i =>
    simp only [step] at hs
    split at hs
    · cases hs
    rename_i c hi
    split at hs
    · refine (h.clients (List.Subset.refl _) fun c' hc' => ?_).inManager hs
        fun _ heq => by cases heq
      rcases List.mem_or_eq_of_mem_set hc' with hold | rfl
      · exact hsame c' hold
      · exact ⟨c, List.mem_of_getElem? hi, rfl, rfl⟩
    · cases hs
  | cancelReturn i => exact quiet_cancelReturn h hok hs
  | taskStep => exact quiet_taskStep h hs
  | postSetsEvent | taskTimeout | cancelStep | tick | uninit =>
    simp only [step] at hs
    exact h.inManager hs fun _ heq => by cases heq

end Steps

/-! ## Runs -/

/-- In every run whose cancels return clean, no callback of a timer is started once a cancel of it
has returned, until there is another wait on it. -/
theorem silent_after_cancel (now : ℤ) (s : Timers) (h : Reach step ReturnsClean (init now) s)
    (before after : List Event) (e : Posted) (time : ℤ)
    (hlog : s.log = before ++ .started e time :: after) : ¬ Silenced e.task.sid before := by
  have hinv : Quiet s := h.invariant (quiet_init now) fun _ _ _ hi hok hs => quiet_step hi hok hs
  apply hinv.obeyed before e time
  rw [hlog]
  exact ⟨after, by simp⟩

theorem returnsClean_of_ne {s : Timers} {a : Action} (h : ∀ i, a ≠ .cancelReturn i) :
    ReturnsClean s a :=
  fun i _ heq => absurd heq (h i)

/-- A wait that is cancelled before it is over, and another one that is not. -/
theorem silent_after_cancel_again :
    ∃ s, run step (init 0) ([.wait 1 100 (some 0), .enterPost 0, .cancel 1, .cancelSetsEvent 0,
        .cancelReturn 0] ++ [.wait 1 0 (some 1), .enterPost 0] ++ List.replicate 4 .taskStep ++
        [.taskTimeout, .taskStep, .taskStep]) = some s ∧
      ¬ Silenced 1 [.waited ⟨1, 100, some 0⟩ 100 0, .cancelReturned 1,
        .waited ⟨1, 0, some 1⟩ 0 0] := by
  have hcancel : Reach step ReturnsClean (init 0) _ := Reach.of_run_ok
    (fun a ha u => returnsClean_of_ne fun i heq => by subst heq; simp at ha)
    (show run step (init 0) [.wait 1 100 (some 0), .enterPost 0, .cancel 1, .cancelSetsEvent 0] =
      some _ from rfl)
  have hclean := hcancel.tail (a := Action.cancelReturn 0)
    (by
      intro i c heq hc
      cases heq
      cases hc
      exact ⟨nofun, nofun, nofun⟩) rfl
  have hstarted := hclean.trans (Reach.of_run_ok
    (fun a ha u => returnsClean_of_ne fun i heq => by subst heq; simp at ha)
    (show run step _ ([.wait 1 0 (some 1), .enterPost 0] ++ List.replicate 4 .taskStep ++
      [.taskTimeout, .taskStep, .taskStep]) = some _ from rfl))
  exact ⟨_, rfl, silent_after_cancel 0 _ hstarted _ [] ⟨1, ⟨1, 0, some 1⟩⟩ 0 rfl⟩

/-- The task thread takes the batch out, the cancel runs and returns, the task thread calls the
callback. -/
def cancelledTooLate : List Action :=
  [.wait 1 100 (some 0), .enterPost 0, .postSetsEvent] ++ List.replicate 4 .taskStep ++
    [.tick 100, .taskTimeout, .taskStep, .cancel 1, .cancelSetsEvent 0, .cancelReturn 0, .taskStep]

theorem callback_after_cancel :
    ∃ s, Reachable step (init 0) s ∧ ∃ before after e time,
      s.log = before ++ .started e time :: after ∧ Silenced e.task.sid before := by
  have hrun : (run step (init 0) cancelledTooLate).map Timers.log =
      some [.waited ⟨1, 100, some 0⟩ 100 0, .cancelReturned 1,
        .started ⟨0, ⟨1, 100, some 0⟩⟩ 100] := by
    decide +kernel
  obtain ⟨s, hs, hlog⟩ := Option.map_eq_some_iff.mp hrun
  refine ⟨s, Reach.of_run hs, [.waited ⟨1, 100, some 0⟩ 100 0, .cancelReturned 1], [],
    ⟨0, ⟨1, 100, some 0⟩⟩, 100, hlog, ?_⟩
  exact ⟨[.waited ⟨1, 100, some 0⟩ 100 0], [], rfl, nofun⟩

end DevFramework.Timer.Timers
