import DevFramework.Timer.Manager

/-! # How long the timer threads sleep

The task thread sleeps either for the deadline it has chosen or, when nothing waits, until a post
signals `run_event_`. A post wakes it from the first sleep when its own deadline is earlier than
the first key of the map. That key stands in for the deadline of the sleeper, which is right as
long as the map is not empty; on an empty map the post compares with -1 and signals nobody
(`MissesWake`).
-/
namespace DevFramework.Timer
open OrderedMap Transition
set_option autoImplicit false
set_option maxHeartbeats 250000

/-! ## The invariant -/

/-- Between two deadlines: none is chosen. -/
def TaskPc.deciding : TaskPc → Bool
  | .top | .choose | .check | .waitRun => true
  | _ => false

/-- A deadline is chosen and its wait has not ended. -/
def TaskPc.committed : TaskPc → Bool
  | .arm | .enter _ | .wait _ => true
  | _ => false

/-- The post finds the map empty, after the cancel of its own old task, while the task thread is
committed to a later deadline and not signalled. -/
def MissesWake (s : Manager) (task : TimerTask) : Prop :=
  firstKey? (s.cancelOwn task.sid).timeWaitMap = none ∧ s.taskThread.committed = true ∧
    s.tmpTime ≠ -1 ∧ s.event = false ∧ -1 ≤ task.timeout ∧ task.timeout < s.tmpTime

instance (s : Manager) (task : TimerTask) : Decidable (MissesWake s task) := by
  unfold MissesWake
  infer_instance

structure Awake (s : Manager) : Prop where
  deciding : s.taskThread.deciding = true → s.tmpTime = -1
  sleep : s.taskThread.committed = true → s.tmpTime ≠ -1 → s.event = false →
    ∀ k ∈ s.timeWaitMap, s.tmpTime ≤ k
  waiting : ∀ until_, s.taskThread = .wait until_ → s.tmpTime ≠ -1
  entering : ∀ diff, s.taskThread = .enter diff → s.tmpTime ≠ -1
  idle : s.taskThread = .waitRun → s.runEvent = false → s.posting = 0 →
    ∀ k, k ∉ s.timeWaitMap

theorem awake_init (now : ℤ) : Awake (init now) := by
  refine ⟨fun _ => rfl, ?_, ?_, ?_, ?_⟩ <;> simp [init, TaskPc.committed]

section Steps
variable {s t : Manager}

/-- A step that moves no thread, adds no key and resets no event keeps the invariant. -/
theorem Awake.frame (h : Awake s) (hpc : t.taskThread = s.taskThread) (htmp : t.tmpTime = s.tmpTime)
    (hmap : ∀ k ∈ t.timeWaitMap, k ∈ s.timeWaitMap) (hevent : t.event = false → s.event = false)
    (hrun : t.runEvent = false → t.posting = 0 → s.runEvent = false ∧ s.posting = 0) :
    Awake t := by
  refine ⟨?_, ?_, ?_, ?_, ?_⟩ <;> rw [hpc]
  · rw [htmp]
    exact h.deciding
  · rw [htmp]
    exact fun hc hn he k hk => h.sleep hc hn (hevent he) k (hmap k hk)
  · rw [htmp]
    exact h.waiting
  · rw [htmp]
    exact h.entering
  · intro hw hr hp k hk
    obtain ⟨hr, hp⟩ := hrun hr hp
    exact h.idle hw hr hp k (hmap k hk)

theorem Awake.of_working (hd : t.taskThread.deciding = false)
    (hc : t.taskThread.committed = false) : Awake t := by
  refine ⟨?_, ?_, ?_, ?_, ?_⟩ <;> intros <;> simp_all [TaskPc.deciding, TaskPc.committed]

theorem Awake.of_deciding (hd : t.taskThread.deciding = true) (hw : t.taskThread ≠ .waitRun)
    (htmp : t.tmpTime = -1) : Awake t := by
  refine ⟨fun _ => htmp, ?_, ?_, ?_, ?_⟩ <;> intros <;> simp_all [TaskPc.deciding]

theorem awake_iCancel (h : Awake s) (sid : ℤ) : Awake (s.iCancel sid) := by
  obtain ⟨_, _, _, _, _, heq, hsub⟩ := Manager.iCancel_frame s sid
  rw [heq]
  exact h.frame rfl rfl hsub id fun hr hp => ⟨hr, hp⟩

theorem awake_iPostTask (h : Awake s) {task : TimerTask} (hok : ¬ MissesWake s task) :
    Awake (s.iPostTask task) := by
  unfold Manager.iPostTask
  split
  · exact h
  · obtain ⟨sm, tw, cl, ce, re, heq, hsub⟩ := Manager.cancelOwn_frame s task.sid
    rw [MissesWake, heq] at hok
    rw [heq]
    refine ⟨h.deciding, ?_, h.waiting, h.entering, ?_⟩
    · intro hc hn he k hk
      simp only [Manager.enqueue, Bool.or_eq_false_iff, decide_eq_false_iff_not, not_lt] at he
      obtain ⟨he, hle⟩ := he
      have hold := h.sleep hc hn he
      rcases (AList.mem_insert tw).mp hk with rfl | hk
      · cases hfirst : firstKey? tw with
        | none =>
          -- the map is empty: only the guard says that the sleeper's deadline is no later
          simp only [Manager.tmpTimeout, hfirst, Option.getD_none] at hle
          by_contra hlt
          exact hok ⟨hfirst, hc, hn, he, hle, not_le.mp hlt⟩
        | some m =>
          simp only [Manager.tmpTimeout, hfirst, Option.getD_some] at hle
          exact (hold m (hsub m (firstKey?_mem hfirst))).trans hle
      · exact hold k (hsub k hk)
    · intro _ _ hp
      simp [Manager.enqueue] at hp

theorem awake_taskStep (h : Awake s) (hs : s.taskStep = some t) : Awake t := by
  unfold Manager.taskStep at hs
  split at hs <;> rename_i hpc
  · -- top
    cases hs
    have htmp := h.deciding (by rw [hpc]; rfl)
    cases s.run with
    | true => exact .of_deciding rfl (by simp) htmp
    | false => exact .of_working rfl rfl
  · -- choose
    cases hs
    have htmp := h.deciding (by rw [hpc]; rfl)
    refine ⟨by simp [TaskPc.deciding], ?_, by simp, by simp, by simp⟩
    intro _ hn _ k hk
    simp only [htmp, if_true] at hn ⊢
    cases hfirst : firstKey? s.timeWaitMap with
    | none => simp [hfirst] at hn
    | some m => exact firstKey?_le hfirst hk
  · -- arm
    cases hs
    have hsleep := h.sleep (by rw [hpc]; rfl)
    by_cases hn : s.tmpTime = -1
    · exact .of_deciding (by simp [hn, TaskPc.deciding]) (by simp [hn]) hn
    · simp only [hn, ne_eq, not_false_eq_true, if_true]
      exact ⟨by simp [TaskPc.deciding], fun _ => hsleep, by simp, fun _ _ => hn, by simp⟩
  · -- enter
    cases hs
    have hn := h.entering _ hpc
    have hsleep := h.sleep (by rw [hpc]; rfl)
    exact ⟨by simp [TaskPc.deciding], fun _ => hsleep, fun _ _ => hn, by simp, by simp⟩
  · -- wait
    split at hs <;> cases hs
    exact .of_working rfl rfl
  · -- extract
    cases hs
    exact .of_working rfl rfl
  · -- notify, at the end
    cases hs
    exact .of_working rfl rfl
  · -- notify
    cases hs
    exact .of_working rfl rfl
  · -- reset
    cases hs
    exact .of_deciding rfl (by simp) rfl
  · -- check
    cases hs
    have htmp := h.deciding (by rw [hpc]; rfl)
    cases hempty : s.timeWaitMap.keys.isEmpty with
    | false => exact .of_deciding rfl (by simp) htmp
    | true =>
      refine ⟨fun _ => htmp, by simp [TaskPc.committed], by simp, by simp, ?_⟩
      intro _ _ _ k hk
      rw [AList.mem_keys, List.isEmpty_iff.mp hempty] at hk
      exact List.not_mem_nil hk
  · -- waitRun
    split at hs <;> cases hs
    exact .of_deciding rfl (by simp) (h.deciding (by rw [hpc]; rfl))
  · cases hs

theorem awake_taskTimeout (hs : s.taskTimeout = some t) : Awake t := by
  unfold Manager.taskTimeout at hs
  split at hs
  · split at hs <;> cases hs
    exact .of_working rfl rfl
  · cases hs

/-- The cancel thread touches neither the map nor the events of the task thread. -/
theorem awake_cancelStep (h : Awake s) (hs : s.cancelStep = some t) : Awake t := by
  obtain ⟨_, _, _, _, rfl⟩ := Manager.cancelStep_frame hs
  exact h.frame rfl rfl (fun _ hk => hk) id fun hr hp => ⟨hr, hp⟩

theorem awake_uninitStep (h : Awake s) (hs : s.uninitStep = some t) : Awake t := by
  obtain ⟨_, event, runEvent, _, _, rfl, hevent, hrun⟩ | rfl := Manager.uninitStep_frame hs
  · refine h.frame rfl rfl (fun _ hk => hk) (fun hunset => ?_) fun hunset hp => ⟨?_, hp⟩
    · exact Bool.eq_false_iff.mpr fun hset => Bool.eq_false_iff.mp hunset (hevent hset)
    · exact Bool.eq_false_iff.mpr fun hset => Bool.eq_false_iff.mp hunset (hrun hset)
  · exact h.frame rfl rfl (fun _ hk => absurd hk (AList.notMem_empty _)) id fun hr hp => ⟨hr, hp⟩

end Steps

/-! ## Runs -/

/-- The guard of a run in which every post wakes the task thread where it has to. -/
def Wakes (s : Manager) : Action → Prop
  | .post task => ¬ MissesWake s task
  | _ => True

theorem awake_step {s t : Manager} {a : Action} (h : Awake s) (hok : Wakes s a)
    (hs : step s a = some t) : Awake t := by
  cases a with
  | post task =>
    cases hs
    exact awake_iPostTask h hok
  | cancel sid =>
    cases hs
    exact awake_iCancel h sid
  | postSetsEvent =>
    simp only [step] at hs
    split at hs <;> cases hs
    exact h.frame rfl rfl (fun _ hk => hk) id (by simp)
  | cancelSetsEvent =>
    simp only [step] at hs
    split at hs <;> cases hs
    exact h.frame rfl rfl (fun _ hk => hk) id (by simp)
  | taskStep => exact awake_taskStep h hs
  | taskTimeout => exact awake_taskTimeout hs
  | cancelStep => exact awake_cancelStep h hs
  | tick ms =>
    cases hs
    exact h.frame rfl rfl (fun _ hk => hk) id fun hr hp => ⟨hr, hp⟩
  | uninit => exact awake_uninitStep h hs

/-- The task thread never sleeps past a deadline, in every run whose posts do not miss a wake-up. -/
theorem never_oversleeps (now : ℤ) (s : Manager) (h : Reach step Wakes (init now) s) :
    (∀ until_, s.taskThread = .wait until_ → s.event = false →
      ∀ k ∈ s.timeWaitMap, s.tmpTime ≤ k) ∧
    (s.taskThread = .waitRun → s.runEvent = false → s.posting = 0 → s.timeWaitMap.keys = []) := by
  have hinv : Awake s := h.invariant (awake_init now) fun _ _ _ hi hok hs => awake_step hi hok hs
  refine ⟨?_, ?_⟩
  · intro until_ hpc
    exact hinv.sleep (by rw [hpc]; rfl) (hinv.waiting until_ hpc)
  · intro hpc hr hp
    exact List.eq_nil_iff_forall_not_mem.mpr fun k hk => hinv.idle hpc hr hp k (AList.mem_keys.mpr hk)

theorem never_oversleeps_one_post :
    ∃ s, run step (init 0) [.post ⟨1, 100, some 0⟩, .taskStep, .taskStep, .taskStep, .taskStep] =
      some s ∧ s.taskThread = .wait 100 ∧ ∀ k ∈ s.timeWaitMap, s.tmpTime ≤ k := by
  have hpost : Wakes (init 0) (.post ⟨1, 100, some 0⟩) := by
    rintro ⟨-, hc, -⟩
    cases hc
  have hsteps : ∀ a ∈ List.replicate 4 Action.taskStep, ∀ u, Wakes u a := by
    intro a ha u
    rw [List.eq_of_mem_replicate ha]
    trivial
  refine ⟨_, rfl, rfl, (never_oversleeps 0 _ ?_).1 100 rfl rfl⟩
  exact (Reach.refl.tail hpost rfl).trans (Reach.of_run_ok hsteps rfl)

/-- A timer armed for 100 ms and, while the task thread sleeps, armed again for 50. -/
def rearm : List Action :=
  [.post ⟨1, 100, some 0⟩, .postSetsEvent, .taskStep, .taskStep, .taskStep, .taskStep,
    .post ⟨1, 50, some 0⟩, .postSetsEvent]

theorem rearmed_timer_oversleeps :
    ∃ s, Reachable step (init 0) s ∧ s.uninit = .idle ∧ s.taskThread = .wait 100 ∧
      s.event = false ∧ ¬ ∀ k ∈ s.timeWaitMap, s.tmpTime ≤ k := by
  refine ⟨_, Reach.of_run (show run step (init 0) rearm = some _ from rfl), rfl, rfl, rfl, ?_⟩
  intro h
  have h50 := h 50 (by decide)
  exact absurd h50 (by decide)

/-- A post that misses the wake-up of a sleeping thread leaves it asleep past the new deadline. -/
theorem missesWake_oversleeps {s : Manager} {task : TimerTask} (hexit : s.exit = false)
    {until_ : ℤ} (hpc : s.taskThread = .wait until_) (h : MissesWake s task) :
    (s.iPostTask task).taskThread = .wait until_ ∧ (s.iPostTask task).event = false ∧
      ∃ k ∈ (s.iPostTask task).timeWaitMap, k < (s.iPostTask task).tmpTime := by
  obtain ⟨hempty, -, -, hevent, hle, hlt⟩ := h
  obtain ⟨sm, tw, cl, ce, re, heq, -⟩ := Manager.cancelOwn_frame s task.sid
  rw [heq] at hempty
  rw [Manager.iPostTask, hexit, heq]
  refine ⟨hpc, ?_, task.timeout, (AList.mem_insert tw).mpr (.inl rfl), hlt⟩
  simp [Manager.enqueue, Manager.tmpTimeout, hempty, hevent, hle]

end DevFramework.Timer
