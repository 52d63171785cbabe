import DevFramework.Timer.Filing

/-! # The end of the manager

`uninit` clears `run_`, drops all tasks under the lock, signals the three events and joins the two
threads. From its last `SetEvent` on every wait that a thread may still come to finds its event
signalled: an event is taken by one wait only, and behind that wait the thread comes to the loop's
test of `run_` without meeting the event again.
-/
namespace DevFramework.Timer
open OrderedMap Transition
set_option autoImplicit false
set_option maxHeartbeats 250000

/-! ## Waiting and leaving -/

/-- The task thread waits, with or without a time-out, for an event that is not signalled. -/
def Manager.taskBlocked (s : Manager) : Prop :=
  (∃ until_, s.taskThread = .wait until_ ∧ s.event = false) ∨
    s.taskThread = .waitRun ∧ s.runEvent = false

/-- The cancel thread waits for an event that is not signalled. -/
def Manager.cancelBlocked (s : Manager) : Prop :=
  s.cancelThread = .waitCancel ∧ s.cancelEvent = false

/-- `uninit` has made its three calls of `SetEvent`. -/
def UninitPc.signalled : UninitPc → Prop
  | .joinTask | .joinCancel | .finished => True
  | _ => False

/-- How far `uninit` has come. -/
def UninitPc.count : UninitPc → ℕ
  | .idle => 0
  | .clear => 1
  | .setEvent => 2
  | .setRunEvent => 3
  | .setCancelEvent => 4
  | .joinTask => 5
  | .joinCancel => 6
  | .finished => 7

/-- The task thread has its wait for a deadline still before it in this turn. -/
def TaskPc.beforeWait : TaskPc → Bool
  | .choose | .arm | .enter _ | .wait _ => true
  | _ => false

/-- The task thread is in a turn of its loop. -/
def TaskPc.inLoop : TaskPc → Bool
  | .top | .stopped => false
  | _ => true

/-- The cancel thread is in a turn of its loop. -/
def CancelPc.inLoop : CancelPc → Bool
  | .top | .stopped => false
  | _ => true

/-- How many steps the task thread is from its end once `run_` is false and no task is queued. -/
def TaskPc.left : TaskPc → ℕ
  | .stopped => 0
  | .top => 1
  | .waitRun => 2
  | .check => 3
  | .reset => 4
  | .notify rest => rest.length + 5
  | .extract => 6
  | .wait _ => 7
  | .enter _ => 8
  | .arm => 9
  | .choose => 10

/-- How many steps the cancel thread is from its end once `run_` is false and its list is empty. -/
def CancelPc.left : CancelPc → ℕ
  | .stopped => 0
  | .top => 1
  | .waitCancel => 2
  | .check => 3
  | .notify rest => rest.length + 4
  | .grab => 5

/-! ## The invariant -/

/-- What each step of `uninit` leaves behind for the rest of the run. -/
structure Ending (s : Manager) : Prop where
  halted : 1 ≤ s.uninit.count → s.run = false
  dropped : 2 ≤ s.uninit.count → s.exit = true ∧ s.timeWaitMap = ∅ ∧ s.cancelList = []
  event : 3 ≤ s.uninit.count → s.taskThread.beforeWait = true → s.event = true
  runEvent : 4 ≤ s.uninit.count → s.taskThread.inLoop = true → s.runEvent = true
  cancelEvent : 5 ≤ s.uninit.count → s.cancelThread.inLoop = true → s.cancelEvent = true

theorem ending_init (now : ℤ) : Ending (init now) := by
  constructor <;> simp [init, UninitPc.count]

section Steps
variable {s t : Manager}

/-- A step of another thread than `uninit`. Where `run_` is false it brings no thread back into a
turn or in front of a wait, and what it takes of an event only its own thread needed. -/
theorem Ending.frame (h : Ending s) (huninit : t.uninit = s.uninit) (hrun : t.run = s.run)
    (hdrop : s.exit = true → s.timeWaitMap = ∅ → s.cancelList = [] →
      t.exit = true ∧ t.timeWaitMap = ∅ ∧ t.cancelList = [])
    (hevent : s.run = false → t.taskThread.beforeWait = true →
      s.taskThread.beforeWait = true ∧ (s.event = true → t.event = true))
    (hrunEvent : s.run = false → t.taskThread.inLoop = true →
      s.taskThread.inLoop = true ∧ (s.runEvent = true → t.runEvent = true))
    (hcancelEvent : s.run = false → t.cancelThread.inLoop = true →
      s.cancelThread.inLoop = true ∧ (s.cancelEvent = true → t.cancelEvent = true)) :
    Ending t := by
  constructor
  · rw [huninit, hrun]
    exact h.halted
  · rw [huninit]
    intro hcount
    obtain ⟨hexit, htime, hlist⟩ := h.dropped hcount
    exact hdrop hexit htime hlist
  · rw [huninit]
    intro hcount hpc
    obtain ⟨hpc', hkeep⟩ := hevent (h.halted (by omega)) hpc
    exact hkeep (h.event hcount hpc')
  · rw [huninit]
    intro hcount hpc
    obtain ⟨hpc', hkeep⟩ := hrunEvent (h.halted (by omega)) hpc
    exact hkeep (h.runEvent hcount hpc')
  · rw [huninit]
    intro hcount hpc
    obtain ⟨hpc', hkeep⟩ := hcancelEvent (h.halted (by omega)) hpc
    exact hkeep (h.cancelEvent hcount hpc')

/-- A step that moves neither thread, drops nothing and takes no event. -/
theorem Ending.still (h : Ending s) (huninit : t.uninit = s.uninit) (hrun : t.run = s.run)
    (htask : t.taskThread = s.taskThread) (hcancel : t.cancelThread = s.cancelThread)
    (hdrop : s.exit = true → s.timeWaitMap = ∅ → s.cancelList = [] →
      t.exit = true ∧ t.timeWaitMap = ∅ ∧ t.cancelList = [])
    (hevent : s.event = true → t.event = true) (hrunEvent : s.runEvent = true → t.runEvent = true)
    (hcancelEvent : s.cancelEvent = true → t.cancelEvent = true) : Ending t := by
  apply h.frame huninit hrun hdrop
  · exact fun _ hpc => ⟨htask ▸ hpc, hevent⟩
  · exact fun _ hpc => ⟨htask ▸ hpc, hrunEvent⟩
  · exact fun _ hpc => ⟨hcancel ▸ hpc, hcancelEvent⟩

theorem removeTask_signals (s : Manager) (sid : ℤ) :
    (s.removeTask sid).event = s.event ∧ (s.removeTask sid).runEvent = s.runEvent ∧
      (s.cancelEvent = true → (s.removeTask sid).cancelEvent = true) := by
  unfold Manager.removeTask
  split
  · exact ⟨rfl, rfl, id⟩
  · split
    · exact ⟨rfl, rfl, id⟩
    · exact ⟨rfl, rfl, fun h => by simp [h]⟩

theorem ending_iCancel (h : Ending s) (sid : ℤ) : Ending (s.iCancel sid) := by
  unfold Manager.iCancel
  cases hexit : s.exit with
  | true => exact h
  | false =>
    obtain ⟨hevent, hrunEvent, hcancelEvent⟩ := removeTask_signals s sid
    obtain ⟨_, _, _, _, heq, -⟩ := Manager.removeTask_frame s sid
    rw [heq] at hevent hrunEvent hcancelEvent ⊢
    refine h.still rfl rfl rfl rfl ?_ ?_ ?_ ?_
    · intro hgone
      rw [hexit] at hgone
      cases hgone
    · exact id
    · exact id
    · exact hcancelEvent

theorem ending_iPostTask (h : Ending s) (task : TimerTask) : Ending (s.iPostTask task) := by
  unfold Manager.iPostTask
  cases hexit : s.exit with
  | true => exact h
  | false =>
    have hcancelEvent : s.cancelEvent = true → (s.cancelOwn task.sid).cancelEvent = true := by
      unfold Manager.cancelOwn
      split
      · exact (removeTask_signals s task.sid).2.2
      · exact id
    have hrunEvent : s.runEvent = true → (s.cancelOwn task.sid).runEvent = true := by
      unfold Manager.cancelOwn
      split
      · exact fun _ => rfl
      · exact id
    obtain ⟨_, _, _, _, _, heq, -⟩ := Manager.cancelOwn_frame s task.sid
    rw [heq] at hcancelEvent hrunEvent ⊢
    refine h.still rfl rfl rfl rfl ?_ ?_ ?_ ?_
    · intro hgone
      rw [hexit] at hgone
      cases hgone
    · intro hevent
      simp [Manager.enqueue, hevent]
    · exact hrunEvent
    · exact hcancelEvent

theorem ending_taskStep (h : Ending s) (hs : s.taskStep = some t) : Ending t := by
  unfold Manager.taskStep at hs
  split at hs <;> rename_i hpc
  case h_5 | h_11 =>
    -- the two waits: the event is taken, and the thread has left what needed it
    split at hs <;> cases hs
    refine h.frame rfl rfl (fun hexit htime hlist => ⟨hexit, htime, hlist⟩) ?_ ?_ ?_
    all_goals simp [hpc, TaskPc.beforeWait, TaskPc.inLoop]
  case h_6 =>
    -- extract
    cases hs
    refine h.frame rfl rfl ?_ ?_ ?_ ?_
    · rintro hexit htime hlist
      refine ⟨hexit, ?_, hlist⟩
      rw [htime]
      rfl
    all_goals simp [hpc, TaskPc.beforeWait, TaskPc.inLoop]
  case h_12 => cases hs
  case h_1 | h_10 =>
    -- the tests of `run_` and of the map
    cases hs
    refine h.frame rfl rfl (fun hexit htime hlist => ⟨hexit, htime, hlist⟩) ?_ ?_ ?_
    all_goals
      intro hrun
      simp only [hrun, Bool.false_eq_true, if_false]
      try split
      all_goals simp [hpc, TaskPc.beforeWait, TaskPc.inLoop]
  case h_3 =>
    -- the test of `tmp_time`
    cases hs
    refine h.frame rfl rfl (fun hexit htime hlist => ⟨hexit, htime, hlist⟩) ?_ ?_ ?_
    all_goals
      simp only
      try split
      all_goals simp [hpc, TaskPc.beforeWait, TaskPc.inLoop]
  all_goals
    cases hs
    refine h.frame rfl rfl (fun hexit htime hlist => ⟨hexit, htime, hlist⟩) ?_ ?_ ?_
    all_goals simp [hpc, TaskPc.beforeWait, TaskPc.inLoop]

theorem ending_cancelStep (h : Ending s) (hs : s.cancelStep = some t) : Ending t := by
  unfold Manager.cancelStep at hs
  split at hs <;> rename_i hpc
  case h_1 | h_5 =>
    -- the tests of `run_` and of the list
    cases hs
    refine h.frame rfl rfl (fun hexit htime hlist => ⟨hexit, htime, hlist⟩) ?_ ?_ ?_
    · exact fun _ hbefore => ⟨hbefore, id⟩
    · exact fun _ hin => ⟨hin, id⟩
    · intro hrun
      simp only [hrun, Bool.false_eq_true, if_false]
      try split
      all_goals simp [hpc, CancelPc.inLoop]
  case h_6 =>
    split at hs <;> cases hs
    refine h.frame rfl rfl (fun hexit htime hlist => ⟨hexit, htime, hlist⟩) ?_ ?_ ?_
    · exact fun _ hbefore => ⟨hbefore, id⟩
    · exact fun _ hin => ⟨hin, id⟩
    · simp [CancelPc.inLoop]
  case h_7 => cases hs
  all_goals
    cases hs
    refine h.frame rfl rfl ?_ ?_ ?_ ?_
    · exact fun hexit htime hlist => ⟨hexit, htime, by simp [hlist]⟩
    · exact fun _ hbefore => ⟨hbefore, id⟩
    · exact fun _ hin => ⟨hin, id⟩
    · simp [hpc, CancelPc.inLoop]

theorem ending_uninitStep (h : Ending s) (hs : s.uninitStep = some t) : Ending t := by
  unfold Manager.uninitStep at hs
  obtain ⟨hhalted, hdropped, hevent, hrunEvent, hcancelEvent⟩ := h
  split at hs <;> rename_i hpc <;> simp only [hpc, UninitPc.count] at *
  case h_6 | h_7 =>
    split at hs <;> cases hs
    constructor <;> simp_all [UninitPc.count]
  case h_8 => cases hs
  all_goals
    cases hs
    constructor <;> simp_all [UninitPc.count]

theorem ending_step {a : Action} (h : Ending s) (hs : step s a = some t) : Ending t := by
  cases a with
  | post task =>
    cases hs
    exact ending_iPostTask h task
  | cancel sid =>
    cases hs
    exact ending_iCancel h sid
  | postSetsEvent | cancelSetsEvent =>
    simp only [step] at hs
    split at hs <;> cases hs
    exact h.still rfl rfl rfl rfl (fun hexit htime hlist => ⟨hexit, htime, hlist⟩) id
      (fun _ => rfl) id
  | taskStep => exact ending_taskStep h hs
  | taskTimeout =>
    obtain ⟨⟨until_, hpc, -, -⟩, rfl⟩ := Manager.taskTimeout_frame hs
    refine h.frame rfl rfl (fun hexit htime hlist => ⟨hexit, htime, hlist⟩) ?_ ?_ ?_
    all_goals simp [hpc, TaskPc.beforeWait, TaskPc.inLoop]
  | cancelStep => exact ending_cancelStep h hs
  | tick ms =>
    cases hs
    exact h.still rfl rfl rfl rfl (fun hexit htime hlist => ⟨hexit, htime, hlist⟩) id id id
  | uninit => exact ending_uninitStep h hs

end Steps

/-! ## After the three signals -/

/-- `uninit` has made its three calls of `SetEvent` and waits for the threads. -/
structure Joining (s : Manager) : Prop extends Ending s where
  count : 5 ≤ s.uninit.count

theorem count_of_signalled {u : UninitPc} (h : u.signalled) : 5 ≤ u.count := by
  cases u with
  | joinTask | joinCancel | finished => simp [UninitPc.count]
  | idle | clear | setEvent | setRunEvent | setCancelEvent => cases h

section Joining
variable {s t : Manager}

theorem Joining.run_off (h : Joining s) : s.run = false := h.halted (by have := h.count; omega)

/-- Only `uninit` counts its own steps, and it never goes back. -/
theorem count_step {a : Action} (hs : step s a = some t) :
    s.uninit.count ≤ t.uninit.count ∧
      (a = .uninit → s.uninit.count < t.uninit.count) := by
  cases a with
  | post task =>
    cases hs
    obtain ⟨_, _, _, _, _, _, _, _, heq⟩ := Manager.iPostTask_frame s task
    rw [heq]
    exact ⟨le_rfl, fun h => by cases h⟩
  | cancel sid =>
    cases hs
    obtain ⟨_, _, _, _, _, heq, -⟩ := Manager.iCancel_frame s sid
    rw [heq]
    exact ⟨le_rfl, fun h => by cases h⟩
  | postSetsEvent | cancelSetsEvent =>
    simp only [step] at hs
    split at hs <;> cases hs
    exact ⟨le_rfl, fun h => by cases h⟩
  | taskStep =>
    obtain ⟨_, _, _, _, _, _, _, rfl⟩ := Manager.taskStep_frame hs
    exact ⟨le_rfl, fun h => by cases h⟩
  | taskTimeout =>
    obtain ⟨-, rfl⟩ := Manager.taskTimeout_frame hs
    exact ⟨le_rfl, fun h => by cases h⟩
  | cancelStep =>
    obtain ⟨_, _, _, _, rfl⟩ := Manager.cancelStep_frame hs
    exact ⟨le_rfl, fun h => by cases h⟩
  | tick ms =>
    cases hs
    exact ⟨le_rfl, fun h => by cases h⟩
  | uninit =>
    simp only [step, Manager.uninitStep] at hs
    split at hs <;> rename_i hpc <;> rw [hpc]
    case h_6 | h_7 =>
      split at hs <;> cases hs
      simp [UninitPc.count]
    case h_8 => cases hs
    all_goals
      cases hs
      simp [UninitPc.count]

theorem Joining.step {a : Action} (h : Joining s) (hs : step s a = some t) : Joining t :=
  ⟨ending_step h.toEnding hs, h.count.trans (count_step hs).1⟩

/-- The task thread's next step, which brings it nearer to its end. -/
theorem Joining.taskStep (h : Joining s) (hpc : s.taskThread ≠ .stopped) :
    ∃ t, s.taskStep = some t ∧ t.taskThread.left < s.taskThread.left ∧
      t.taskThread ≠ .choose := by
  obtain ⟨-, htime, -⟩ := h.dropped (by have := h.count; omega)
  have hevent := h.event (by have := h.count; omega)
  have hrunEvent := h.runEvent (by have := h.count; omega)
  unfold Manager.taskStep
  cases hcase : s.taskThread with
  | stopped => exact absurd hcase hpc
  | top => simp [h.run_off, TaskPc.left]
  | wait until_ =>
    rw [hcase] at hevent
    simp [hevent rfl, TaskPc.left]
  | waitRun =>
    rw [hcase] at hrunEvent
    simp [hrunEvent rfl, TaskPc.left]
  | arm =>
    by_cases htmp : s.tmpTime = -1
    · simp [htmp, TaskPc.left]
    · simp [htmp, TaskPc.left]
  | notify rest =>
    cases rest with
    | nil => simp [TaskPc.left]
    | cons e rest => simp [TaskPc.left]
  | choose | enter diff | extract | reset | check => simp [htime, TaskPc.left]

/-- The cancel thread's next step. -/
theorem Joining.cancelStep (h : Joining s) (hpc : s.cancelThread ≠ .stopped) :
    ∃ t, s.cancelStep = some t ∧ t.cancelThread.left < s.cancelThread.left ∧
      t.cancelThread ≠ .grab := by
  obtain ⟨-, -, hlist⟩ := h.dropped (by have := h.count; omega)
  have hevent := h.cancelEvent h.count
  unfold Manager.cancelStep
  cases hcase : s.cancelThread with
  | stopped => exact absurd hcase hpc
  | top => simp [h.run_off, CancelPc.left]
  | waitCancel =>
    rw [hcase] at hevent
    simp [hevent rfl, CancelPc.left]
  | notify rest =>
    cases rest with
    | nil => simp [CancelPc.left]
    | cons e rest => simp [CancelPc.left]
  | grab | check => simp [hlist, CancelPc.left]

/-- No step takes the task thread farther from its end or into another turn. -/
theorem Joining.task_left {a : Action} (h : Joining s) (hs : Timer.step s a = some t) :
    t.taskThread.left ≤ s.taskThread.left ∧
      (a = .taskStep → t.taskThread.left < s.taskThread.left) ∧
      (t.taskThread = .choose → s.taskThread = .choose) := by
  by_cases hstep : a = .taskStep
  · subst hstep
    have hpc : s.taskThread ≠ .stopped := by
      intro hstopped
      simp [Timer.step, Manager.taskStep, hstopped] at hs
    obtain ⟨t', ht', hlt, hturn⟩ := h.taskStep hpc
    obtain rfl : t' = t := Option.some.inj (ht'.symm.trans hs)
    exact ⟨hlt.le, fun _ => hlt, fun hchoose => absurd hchoose hturn⟩
  · by_cases htimeout : a = .taskTimeout
    · subst htimeout
      obtain ⟨⟨until_, hpc, hevent, -⟩, -⟩ := Manager.taskTimeout_frame hs
      have hsignal := h.event (by have := h.count; omega) (by rw [hpc]; rfl)
      rw [hevent] at hsignal
      cases hsignal
    · obtain ⟨hsame, -, -⟩ := still_step hstep htimeout hs
      rw [hsame]
      exact ⟨le_rfl, fun hc => absurd hc hstep, id⟩

theorem Joining.cancel_left {a : Action} (h : Joining s) (hs : Timer.step s a = some t) :
    t.cancelThread.left ≤ s.cancelThread.left ∧
      (a = .cancelStep → t.cancelThread.left < s.cancelThread.left) ∧
      (t.cancelThread = .grab → s.cancelThread = .grab) := by
  by_cases hstep : a = .cancelStep
  · subst hstep
    have hpc : s.cancelThread ≠ .stopped := by
      intro hstopped
      simp [Timer.step, Manager.cancelStep, hstopped] at hs
    obtain ⟨t', ht', hlt, hturn⟩ := h.cancelStep hpc
    obtain rfl : t' = t := Option.some.inj (ht'.symm.trans hs)
    exact ⟨hlt.le, fun _ => hlt, fun hgrab => absurd hgrab hturn⟩
  · rw [cancelThread_step hstep hs]
    exact ⟨le_rfl, fun hc => absurd hc hstep, id⟩

theorem Joining.awake (h : Joining s) : ¬ s.taskBlocked ∧ ¬ s.cancelBlocked := by
  constructor
  · rintro (⟨until_, hpc, hevent⟩ | ⟨hpc, hevent⟩)
    · obtain ⟨t, ht, -⟩ := h.taskStep (by simp [hpc])
      simp [Manager.taskStep, hpc, hevent] at ht
    · obtain ⟨t, ht, -⟩ := h.taskStep (by simp [hpc])
      simp [Manager.taskStep, hpc, hevent] at ht
  · rintro ⟨hpc, hevent⟩
    obtain ⟨t, ht, -⟩ := h.cancelStep (by simp [hpc])
    simp [Manager.cancelStep, hpc, hevent] at ht

theorem left_eq_zero {pc : TaskPc} (h : pc.left = 0) : pc = .stopped := by
  cases pc with
  | stopped => rfl
  | _ => simp [TaskPc.left] at h

theorem cancel_left_eq_zero {pc : CancelPc} (h : pc.left = 0) : pc = .stopped := by
  cases pc with
  | stopped => rfl
  | _ => simp [CancelPc.left] at h

/-- The joins still to return once both threads have ended. -/
structure Joining.Over (s : Manager) : Prop extends Joining s where
  task : s.taskThread = .stopped
  cancel : s.cancelThread = .stopped

theorem Joining.Over.step {a : Action} (h : Over s) (hs : Timer.step s a = some t) : Over t := by
  have htask := (h.toJoining.task_left hs).1
  have hcancel := (h.toJoining.cancel_left hs).1
  rw [h.task] at htask
  rw [h.cancel] at hcancel
  refine ⟨h.toJoining.step hs, left_eq_zero ?_, cancel_left_eq_zero ?_⟩
  · exact Nat.le_zero.mp htask
  · exact Nat.le_zero.mp hcancel

theorem Joining.Over.finished (h : Over s) (hs : s.uninitStep = none) : 7 - s.uninit.count = 0 := by
  have hcount := h.count
  unfold Manager.uninitStep at hs
  cases hpc : s.uninit with
  | finished => rfl
  | joinTask => simp [hpc, h.task] at hs
  | joinCancel => simp [hpc, h.cancel] at hs
  | idle | clear | setEvent | setRunEvent | setCancelEvent =>
    rw [hpc] at hcount
    simp [UninitPc.count] at hcount

theorem count_le (u : UninitPc) : u.count ≤ 7 := by
  cases u <;> simp [UninitPc.count]

theorem finished_of_count {u : UninitPc} (h : 7 - u.count = 0) : u = .finished := by
  cases u with
  | finished => rfl
  | _ => simp [UninitPc.count] at h

section Unending
variable {f : ℕ → Manager} {act : ℕ → Action}

theorem Joining.task_ends (h : Joining (f 0)) (hrun : Unending Timer.step f act)
    (hfair : FairTo Timer.step f act .taskStep) :
    ∃ n, ∀ m, n ≤ m → (f m).taskThread.left = 0 := by
  apply hrun.settles (fun s => s.taskThread.left) h
  · exact fun s b t hs ht => ⟨hs.step ht, (hs.task_left ht).1⟩
  · exact fun s t hs ht => (hs.task_left ht).2.1 rfl
  · intro s hs hnone
    by_contra hne
    obtain ⟨t, ht, -⟩ := hs.taskStep fun hpc => hne (by rw [hpc]; rfl)
    rw [show s.taskStep = none from hnone] at ht
    cases ht
  · exact hfair

theorem Joining.cancel_ends (h : Joining (f 0)) (hrun : Unending Timer.step f act)
    (hfair : FairTo Timer.step f act .cancelStep) :
    ∃ n, ∀ m, n ≤ m → (f m).cancelThread.left = 0 := by
  apply hrun.settles (fun s => s.cancelThread.left) h
  · exact fun s b t hs ht => ⟨hs.step ht, (hs.cancel_left ht).1⟩
  · exact fun s t hs ht => (hs.cancel_left ht).2.1 rfl
  · intro s hs hnone
    by_contra hne
    obtain ⟨t, ht, -⟩ := hs.cancelStep fun hpc => hne (by rw [hpc]; rfl)
    rw [show s.cancelStep = none from hnone] at ht
    cases ht
  · exact hfair

/-- The joins return in every run that lets the three threads move again and again. -/
theorem Joining.finishes (h : Joining (f 0)) (hrun : Unending Timer.step f act)
    (htask : FairTo Timer.step f act .taskStep) (hcancel : FairTo Timer.step f act .cancelStep)
    (huninit : FairTo Timer.step f act .uninit) : ∃ n, (f n).uninit = .finished := by
  obtain ⟨n₁, hn₁⟩ := h.task_ends hrun htask
  obtain ⟨n₂, hn₂⟩ := h.cancel_ends hrun hcancel
  have hover : Joining.Over (f (0 + (n₁ + n₂))) := by
    refine ⟨hrun.keeps h (fun _ _ _ hs ht => hs.step ht) _, ?_, ?_⟩
    · exact left_eq_zero (hn₁ _ (by omega))
    · exact cancel_left_eq_zero (hn₂ _ (by omega))
  have hcount : ∃ n, ∀ m, n ≤ m → 7 - (f (m + (n₁ + n₂))).uninit.count = 0 := by
    apply (hrun.later (n₁ + n₂)).settles (fun s => 7 - s.uninit.count) hover
    · intro s b t hs ht
      have := (count_step ht).1
      exact ⟨hs.step ht, by omega⟩
    · intro s t hs ht
      have := (count_step ht).2 rfl
      have := count_le t.uninit
      omega
    · exact fun s hs hnone => hs.finished hnone
    · exact huninit.later (n₁ + n₂)
  obtain ⟨n, hn⟩ := hcount
  exact ⟨n + (n₁ + n₂), finished_of_count (hn n le_rfl)⟩

end Unending
end Joining

/-! ## Runs -/

/-- After the three calls of `SetEvent` no thread waits for an event that is not signalled, none
begins another turn of its loop, and where every thread goes on moving `uninit` comes to its end. -/
theorem shutdown_wakes (now : ℤ) (s : Manager) (h : Reachable step (init now) s)
    (hsignalled : s.uninit.signalled) :
    ¬ s.taskBlocked ∧ ¬ s.cancelBlocked ∧
    (∀ a t, step s a = some t → (t.taskThread = .choose → s.taskThread = .choose) ∧
      (t.cancelThread = .grab → s.cancelThread = .grab)) ∧
    ∀ f act, f 0 = s → Unending step f act → FairTo step f act .taskStep →
      FairTo step f act .cancelStep → FairTo step f act .uninit →
      ∃ n, (f n).uninit = .finished := by
  have hinv : Ending s := h.invariant (ending_init now) fun _ _ _ hi _ hs => ending_step hi hs
  have hjoin : Joining s := ⟨hinv, count_of_signalled hsignalled⟩
  refine ⟨hjoin.awake.1, hjoin.awake.2, ?_, ?_⟩
  · exact fun a t hs => ⟨(hjoin.task_left hs).2.2, (hjoin.cancel_left hs).2.2⟩
  · rintro f act rfl hrun htask hcancel huninit
    exact hjoin.finishes hrun htask hcancel huninit

/-- `uninit` while the task thread waits for a deadline far ahead. -/
theorem shutdown_wakes_waiting :
    ∃ s, run step (init 0) [.post ⟨1, 1000, none⟩, .taskStep, .taskStep, .taskStep, .taskStep,
        .uninit, .uninit, .uninit, .uninit, .uninit] = some s ∧
      s.taskThread = .wait 1000 ∧ ¬ s.taskBlocked := by
  have hrun : ∃ s, run step (init 0) [.post ⟨1, 1000, none⟩, .taskStep, .taskStep, .taskStep,
      .taskStep, .uninit, .uninit, .uninit, .uninit, .uninit] = some s ∧
      s.taskThread = .wait 1000 ∧ s.uninit = .joinTask := ⟨_, rfl, rfl, rfl⟩
  obtain ⟨s, hs, htask, huninit⟩ := hrun
  refine ⟨s, hs, htask, (shutdown_wakes 0 s (Reach.of_run hs) ?_).1⟩
  rw [huninit]
  trivial

end DevFramework.Timer
