import DevFramework.Timer.Filing

/-! # Where a task is

An accepted task is filed in one bucket of `time_wait_map_` until a cancel moves it to the cancel
list or the task thread takes the bucket out; from there one thread notifies it.
-/
namespace DevFramework.Timer
open OrderedMap Transition
set_option autoImplicit false
set_option maxHeartbeats 250000

/-- The tasks of `tmp_list` that the task thread has still to notify. -/
def TaskPc.rest : TaskPc → List Posted
  | .notify rest => rest
  | _ => []

/-- The tasks of the cancel thread's own list that it has still to notify. -/
def CancelPc.rest : CancelPc → List Posted
  | .notify rest => rest
  | _ => []

/-- The tasks in the buckets. -/
def Manager.queued (s : Manager) : List Posted := items s.timeWaitMap

/-- In how many places a task is: the buckets, the rest of `tmp_list`, the cancel list, the cancel
thread's own list, and the notified tasks. -/
def Manager.places (s : Manager) (e : Posted) : ℕ :=
  s.queued.count e + s.taskThread.rest.count e + s.cancelList.count e +
    s.cancelThread.rest.count e + (s.notified.map Prod.fst).count e

/-! ## The invariant -/

structure Conserved (s : Manager) : Prop where
  filed : Filed s.sidMap s.timeWaitMap
  once : ∀ e, s.places e = s.accepted.count e
  numbered : s.accepted.map Posted.serial = List.range s.accepted.length
  listed : s.taskThread.rest <:+ s.tmpList

theorem conserved_init (now : ℤ) : Conserved (init now) := by
  refine ⟨⟨?_, ?_, ?_⟩, ?_, rfl, ?_⟩
  · intro k l hl
    simp [init] at hl
  · intro e he
    simp [init] at he
  · simp [init]
  · intro e
    simp [Manager.places, Manager.queued, TaskPc.rest, CancelPc.rest, init]
  · exact List.nil_suffix

theorem Conserved.nodup {s : Manager} (h : Conserved s) : s.accepted.Nodup :=
  List.Nodup.of_map Posted.serial (by rw [h.numbered]; exact List.nodup_range)

section Steps
variable {s t : Manager}

theorem Conserved.frame (h : Conserved s) (hsid : t.sidMap = s.sidMap)
    (htime : t.timeWaitMap = s.timeWaitMap) (htask : t.taskThread.rest = s.taskThread.rest)
    (hlist : t.cancelList = s.cancelList) (hown : t.cancelThread.rest = s.cancelThread.rest)
    (hdone : t.notified = s.notified) (hacc : t.accepted = s.accepted)
    (hsuffix : t.taskThread.rest <:+ t.tmpList) : Conserved t := by
  refine ⟨?_, fun e => ?_, ?_, hsuffix⟩
  · rw [hsid, htime]
    exact h.filed
  · have honce := h.once e
    rw [Manager.places, Manager.queued] at honce ⊢
    rwa [htime, htask, hlist, hown, hdone, hacc]
  · rw [hacc]
    exact h.numbered

theorem conserved_iCancel (h : Conserved s) (sid : ℤ) : Conserved (s.iCancel sid) := by
  unfold Manager.iCancel
  split
  · exact h
  · obtain ⟨sm, tw, cl, ce, heq, -⟩ := Manager.removeTask_frame s sid
    obtain ⟨hfiled, -, found, hperm, hcl⟩ := removeTask_spec s sid h.filed
    rw [heq] at hfiled hperm hcl ⊢
    refine ⟨hfiled, fun e => ?_, h.numbered, h.listed⟩
    have hcount := hperm.count_eq e
    have honce := h.once e
    simp only at hcl
    simp only [Manager.places, Manager.queued, hcl,
      List.count_append] at hcount honce ⊢
    omega

theorem conserved_iPostTask (h : Conserved s) (task : TimerTask) :
    Conserved (s.iPostTask task) := by
  unfold Manager.iPostTask
  split
  · exact h
  · obtain ⟨sm, tw, cl, ce, re, heq, -⟩ := Manager.cancelOwn_frame s task.sid
    obtain ⟨hfiled, hno, found, hperm, hcl⟩ := cancelOwn_spec s task.sid h.filed
    rw [heq] at hfiled hno hperm hcl ⊢
    simp only at hcl hno
    refine ⟨hfiled.enqueue (e := ⟨s.accepted.length, task⟩) hno, fun e => ?_, ?_, h.listed⟩
    · have hold := (items_perm task.timeout tw).count_eq e
      have hcount := hperm.count_eq e
      have honce := h.once e
      simp only [Manager.places, Manager.queued,
        Manager.enqueue, hcl, items_insert, List.count_append] at hold hcount honce ⊢
      omega
    · simp [Manager.enqueue, h.numbered, List.range_succ]

theorem conserved_taskStep (h : Conserved s) (hs : s.taskStep = some t) : Conserved t := by
  unfold Manager.taskStep at hs
  split at hs <;> rename_i hpc
  case h_6 =>
    -- extract
    cases hs
    have hall := items_perm s.tmpTime s.timeWaitMap
    refine ⟨h.filed.erase s.tmpTime, fun e => ?_, h.numbered, List.suffix_rfl⟩
    have hcount := hall.count_eq e
    have honce := h.once e
    simp only [Manager.places, Manager.queued, TaskPc.rest, hpc, List.count_append,
      List.count_nil] at hcount honce ⊢
    omega
  case h_8 =>
    -- notify
    cases hs
    have hlisted := h.listed
    rw [hpc] at hlisted
    refine ⟨h.filed, fun e => ?_, h.numbered, (List.suffix_cons _ _).trans hlisted⟩
    have honce := h.once e
    simp only [Manager.places, Manager.queued, TaskPc.rest, hpc, List.map_append,
      List.count_append, List.count_cons, List.map_cons, List.map_nil, List.count_nil] at honce ⊢
    omega
  case h_11 | h_5 =>
    -- the two waits
    split at hs <;> cases hs
    exact h.frame rfl rfl (by rw [hpc]; rfl) rfl rfl rfl rfl List.nil_suffix
  case h_12 => cases hs
  case h_1 | h_3 | h_10 =>
    -- the three tests
    cases hs
    refine h.frame rfl rfl ?_ rfl rfl rfl rfl ?_
    · rw [hpc]
      simp only
      split <;> rfl
    · simp only
      split <;> exact List.nil_suffix
  all_goals
    cases hs
    exact h.frame rfl rfl (by rw [hpc]; rfl) rfl rfl rfl rfl List.nil_suffix

theorem conserved_taskTimeout (h : Conserved s) (hs : s.taskTimeout = some t) : Conserved t := by
  unfold Manager.taskTimeout at hs
  split at hs <;> rename_i hpc
  · split at hs <;> cases hs
    exact h.frame rfl rfl (by rw [hpc]; rfl) rfl rfl rfl rfl List.nil_suffix
  · cases hs

theorem conserved_cancelStep (h : Conserved s) (hs : s.cancelStep = some t) : Conserved t := by
  unfold Manager.cancelStep at hs
  split at hs <;> rename_i hpc
  · -- top
    cases hs
    refine h.frame rfl rfl rfl rfl ?_ rfl rfl h.listed
    rw [hpc]
    simp only
    split <;> rfl
  · -- grab
    cases hs
    refine ⟨h.filed, fun e => ?_, h.numbered, h.listed⟩
    have honce := h.once e
    simp only [Manager.places, Manager.queued, CancelPc.rest, hpc, List.count_nil] at honce ⊢
    omega
  · -- notify, at the end
    cases hs
    exact h.frame rfl rfl rfl rfl (by rw [hpc]; rfl) rfl rfl h.listed
  · -- notify
    cases hs
    refine ⟨h.filed, fun e => ?_, h.numbered, h.listed⟩
    have honce := h.once e
    simp only [Manager.places, Manager.queued, CancelPc.rest, hpc, List.map_append,
      List.count_append, List.count_cons, List.map_cons, List.map_nil, List.count_nil] at honce ⊢
    omega
  · -- check
    cases hs
    refine h.frame rfl rfl rfl rfl ?_ rfl rfl h.listed
    rw [hpc]
    simp only
    split <;> rfl
  · -- waitCancel
    split at hs <;> cases hs
    exact h.frame rfl rfl rfl rfl (by rw [hpc]; rfl) rfl rfl h.listed
  · cases hs

end Steps

/-! ## Runs -/

/-- The guard of a run before `uninit`. -/
def BeforeUninit (_ : Manager) (a : Action) : Prop := a ≠ .uninit

theorem conserved_step {s t : Manager} {a : Action} (h : Conserved s) (hok : BeforeUninit s a)
    (hs : step s a = some t) : Conserved t := by
  cases a with
  | post task =>
    cases hs
    exact conserved_iPostTask h task
  | cancel sid =>
    cases hs
    exact conserved_iCancel h sid
  | postSetsEvent | cancelSetsEvent =>
    simp only [step] at hs
    split at hs <;> cases hs
    exact h.frame rfl rfl rfl rfl rfl rfl rfl h.listed
  | taskStep => exact conserved_taskStep h hs
  | taskTimeout => exact conserved_taskTimeout h hs
  | cancelStep => exact conserved_cancelStep h hs
  | tick ms =>
    cases hs
    exact h.frame rfl rfl rfl rfl rfl rfl rfl h.listed
  | uninit => exact absurd rfl hok

/-- A notification: the task thread's next task with `TIE_OK`, or the cancel thread's next one with
`TIE_CANCELLED`. -/
def Notifies (s t : Manager) : Prop :=
  (∃ e rest, s.taskThread = .notify (e :: rest) ∧ t.taskThread = .notify rest ∧
    t.notified = s.notified ++ [(e, .ok)]) ∨
  (∃ e rest, s.cancelThread = .notify (e :: rest) ∧ t.cancelThread = .notify rest ∧
    t.notified = s.notified ++ [(e, .cancelled)])

theorem notified_step {s t : Manager} {a : Action} (hs : step s a = some t) :
    t.notified = s.notified ∨ Notifies s t := by
  cases a with
  | post task =>
    cases hs
    obtain ⟨_, _, _, _, _, _, _, _, heq⟩ := Manager.iPostTask_frame s task
    rw [heq]
    exact .inl rfl
  | cancel sid =>
    cases hs
    obtain ⟨_, _, _, _, _, heq, -⟩ := Manager.iCancel_frame s sid
    rw [heq]
    exact .inl rfl
  | postSetsEvent | cancelSetsEvent =>
    simp only [step] at hs
    split at hs <;> cases hs
    exact .inl rfl
  | taskStep =>
    simp only [step, Manager.taskStep] at hs
    split at hs <;> rename_i hpc
    case h_8 item rest =>
      cases hs
      exact .inr (.inl ⟨item, rest, hpc, rfl, rfl⟩)
    case h_5 | h_11 => split at hs <;> cases hs; exact .inl rfl
    all_goals
      cases hs
      try exact .inl rfl
  | taskTimeout =>
    simp only [step, Manager.taskTimeout] at hs
    split at hs
    · split at hs <;> cases hs
      exact .inl rfl
    · cases hs
  | cancelStep =>
    simp only [step, Manager.cancelStep] at hs
    split at hs <;> rename_i hpc
    case h_4 item rest =>
      cases hs
      exact .inr (.inr ⟨item, rest, hpc, rfl, rfl⟩)
    case h_6 => split at hs <;> cases hs; exact .inl rfl
    all_goals
      cases hs
      try exact .inl rfl
  | tick ms =>
    cases hs
    exact .inl rfl
  | uninit =>
    obtain ⟨_, _, _, _, _, rfl, -, -⟩ | rfl := Manager.uninitStep_frame hs
    · exact .inl rfl
    · exact .inl rfl

/-- Before `uninit`, every accepted task is in exactly one place, so it is notified at most once;
only the task thread notifies with `TIE_OK`, from `tmp_list`, and only the cancel thread with
`TIE_CANCELLED`; no timer has two tasks in the map. -/
theorem task_in_one_place (now : ℤ) (s : Manager) (h : Reach step BeforeUninit (init now) s) :
    s.accepted.map Posted.serial = List.range s.accepted.length ∧
    (∀ e, s.places e = if e ∈ s.accepted then 1 else 0) ∧
    (∀ k l, s.timeWaitMap.lookup k = some l → ∀ e ∈ l, e.task.timeout = k) ∧
    (s.queued.map fun e => e.task.sid).Nodup ∧
    s.taskThread.rest <:+ s.tmpList ∧
    ∀ a t, step s a = some t → t.notified = s.notified ∨ Notifies s t := by
  have hinv : Conserved s :=
    h.invariant (conserved_init now) fun _ _ _ hi hok hs => conserved_step hi hok hs
  refine ⟨hinv.numbered, fun e => ?_, hinv.filed.bucket, hinv.filed.single, hinv.listed,
    fun a t hs => notified_step hs⟩
  rw [hinv.once e]
  split
  · rename_i he
    exact List.count_eq_one_of_mem hinv.nodup he
  · rename_i he
    exact List.count_eq_zero_of_not_mem he

theorem task_in_one_place_cancelled :
    ∃ s, run step (init 0) [.post ⟨1, 100, none⟩, .cancel 1] = some s ∧
      s.places ⟨0, ⟨1, 100, none⟩⟩ = 1 ∧ s.cancelList = [⟨0, ⟨1, 100, none⟩⟩] := by
  have hok : ∀ a ∈ [Action.post ⟨1, 100, none⟩, .cancel 1], ∀ u, BeforeUninit u a := by
    intro a ha u
    rintro rfl
    simp at ha
  refine ⟨_, rfl, ?_, rfl⟩
  rw [(task_in_one_place 0 _ (Reach.of_run_ok hok rfl)).2.1, if_pos (by decide)]

end DevFramework.Timer
