import DevFramework.Platform
import DevFramework.Timer.Conservation

/-! # Waits, cancels and callbacks (bas/timer.hpp, bas/timer_impl.hpp)

The timers over their manager. A wait reads the clock before it gets the lock, so it is two steps;
a cancel has its locked section, the `SetEvent(run_event_)` after it, and its return. `log` lists
what a user of the timers can tell apart: a wait, the return of a cancel, and the start of a
callback with `TIE_OK` (`timer_t` calls the user's function on no other code).

Tasks get into the buckets by posts only, and into the task thread's batch from the bucket of
`tmp_time` only (`queued_step`, `rest_step`); both invariants at the end of this chapter and the
next rest on that.
-/
namespace DevFramework.Timer
open OrderedMap Transition
set_option autoImplicit false
set_option maxHeartbeats 250000

/-! ## The system -/

/-- `get_current_time() + ms`, a 64-bit sum; `get_deadline_time` is the same. -/
def deadline (now ms : ℤ) : ℤ := Int.bmod (now + ms) 18446744073709551616

inductive Event where
  | waited (task : TimerTask) (ms : ℤ) (time : ℤ)
  | cancelReturned (sid : ℤ)
  | started (e : Posted) (time : ℤ)
  deriving DecidableEq

/-- A cancel past its locked section: its timer, how many tasks had been accepted by then, and
whether it has still to signal. -/
structure Cancelling where
  sid : ℤ
  mark : ℕ
  signals : Bool
  deriving DecidableEq

/-- The manager with the waits that have not got the lock yet and the cancels that have not
returned. -/
structure Timers where
  manager : Manager
  waits : List TimerTask
  cancels : List Cancelling
  log : List Event

/-- The callback that the next step of the task thread calls. -/
def Manager.starts (s : Manager) : List Event :=
  match s.taskThread with
  | .notify (e :: _) => if e.task.cb.isSome then [.started e s.now] else []
  | _ => []

namespace Timers

def init (now : ℤ) : Timers where
  manager := Timer.init now
  waits := []
  cancels := []
  log := []

inductive Action where
  | wait (sid : ℤ) (ms : ℤ) (cb : Option ℕ)
  | enterPost (i : ℕ)
  | postSetsEvent
  | cancel (sid : ℤ)
  | cancelSetsEvent (i : ℕ)
  | cancelReturn (i : ℕ)
  | taskStep
  | taskTimeout
  | cancelStep
  | tick (ms : ℕ)
  | uninit
  deriving DecidableEq

/-- A step of the manager alone. -/
def inManager (s : Timers) (a : Timer.Action) : Option Timers :=
  (Timer.step s.manager a).map fun m => { s with manager := m }

def step (s : Timers) : Action → Option Timers
  | .wait sid ms cb =>
    let task : TimerTask := ⟨sid, deadline s.manager.now ms, cb⟩
    some { s with
      waits := s.waits ++ [task]
      log := s.log ++ [.waited task ms s.manager.now] }
  | .enterPost i =>
    match s.waits[i]? with
    | none => none
    | some task => { s with waits := s.waits.eraseIdx i }.inManager (.post task)
  | .postSetsEvent => s.inManager .postSetsEvent
  | .cancel sid =>
    let c : Cancelling := ⟨sid, s.manager.accepted.length, !s.manager.exit⟩
    { s with cancels := s.cancels ++ [c] }.inManager (.cancel sid)
  | .cancelSetsEvent i =>
    match s.cancels[i]? with
    | none => none
    | some c =>
      if c.signals then
        { s with cancels := s.cancels.set i { c with signals := false } }.inManager .cancelSetsEvent
      else none
  | .cancelReturn i =>
    match s.cancels[i]? with
    | none => none
    | some c =>
      if c.signals then none
      else some { s with
        cancels := s.cancels.eraseIdx i
        log := s.log ++ [.cancelReturned c.sid] }
  | .taskStep => { s with log := s.log ++ s.manager.starts }.inManager .taskStep
  | .taskTimeout => s.inManager .taskTimeout
  | .cancelStep => s.inManager .cancelStep
  | .tick ms => s.inManager (.tick ms)
  | .uninit => s.inManager .uninit

end Timers

/-! ## Where tasks come from -/

section Steps
variable {s t : Manager}

theorem queued_iCancel (hfiled : Filed s.sidMap s.timeWaitMap) (sid : ℤ) :
    Filed (s.iCancel sid).sidMap (s.iCancel sid).timeWaitMap ∧
      (s.iCancel sid).queued ⊆ s.queued ∧
      (s.exit = false → ∀ e ∈ (s.iCancel sid).queued, e.task.sid ≠ sid) := by
  unfold Manager.iCancel
  cases hexit : s.exit with
  | true => exact ⟨hfiled, List.Subset.refl _, nofun⟩
  | false =>
    obtain ⟨hfiled', hno, found, hperm, -⟩ := removeTask_spec s sid hfiled
    exact ⟨hfiled', fun e he => hperm.mem_iff.mpr (List.mem_append_right found he), fun _ => hno⟩

theorem queued_iPostTask (hfiled : Filed s.sidMap s.timeWaitMap) (task : TimerTask) :
    Filed (s.iPostTask task).sidMap (s.iPostTask task).timeWaitMap ∧
      ∀ e ∈ (s.iPostTask task).queued, e ∈ s.queued ∨
        s.exit = false ∧ e = ⟨s.accepted.length, task⟩ := by
  unfold Manager.iPostTask
  cases hexit : s.exit with
  | true => exact ⟨hfiled, fun e he => .inl he⟩
  | false =>
    obtain ⟨sm, tw, cl, ce, re, heq, -⟩ := Manager.cancelOwn_frame s task.sid
    obtain ⟨hfiled', hno, found, hperm, -⟩ := cancelOwn_spec s task.sid hfiled
    rw [heq] at hfiled' hno hperm ⊢
    refine ⟨hfiled'.enqueue (e := ⟨s.accepted.length, task⟩) hno, fun e he => ?_⟩
    have hold : ∀ e ∈ items tw, e ∈ s.queued :=
      fun e he => hperm.mem_iff.mpr (List.mem_append_right found he)
    simp only [Bool.false_eq_true, if_false, Manager.queued, Manager.enqueue, items_insert,
      List.append_assoc, List.mem_append, List.mem_singleton] at he
    rcases he with hbucket | rfl | hrest
    · exact .inl (hold e ((items_perm task.timeout tw).mem_iff.mpr (List.mem_append_left _ hbucket)))
    · exact .inr ⟨rfl, rfl⟩
    · exact .inl (hold e (items_erase_subset task.timeout hrest))

/-- Every step keeps the maps in order, and only a post adds a task to them. -/
theorem queued_step {a : Action} (hfiled : Filed s.sidMap s.timeWaitMap)
    (hs : Timer.step s a = some t) :
    Filed t.sidMap t.timeWaitMap ∧ ∀ e ∈ t.queued, e ∈ s.queued ∨
      ∃ task, a = .post task ∧ s.exit = false ∧ e = ⟨s.accepted.length, task⟩ := by
  rcases maps_step hs with ⟨task, rfl, rfl⟩ | ⟨sid, rfl, rfl⟩ | ⟨-, ⟨hsid, htime, -⟩ |
    ⟨hsid, htime, -⟩ | ⟨hsid, htime, -⟩⟩
  · obtain ⟨hfiled', hnew⟩ := queued_iPostTask hfiled task
    refine ⟨hfiled', fun e he => (hnew e he).imp_right ?_⟩
    exact fun ⟨hexit, heq⟩ => ⟨task, rfl, hexit, heq⟩
  · obtain ⟨hfiled', hsub, -⟩ := queued_iCancel hfiled sid
    exact ⟨hfiled', fun e he => .inl (hsub he)⟩
  · unfold Manager.queued
    rw [hsid, htime]
    exact ⟨hfiled, fun e he => .inl he⟩
  · unfold Manager.queued
    rw [hsid, htime]
    exact ⟨hfiled.erase s.tmpTime, fun e he => .inl (items_erase_subset s.tmpTime he)⟩
  · unfold Manager.queued
    rw [hsid, htime]
    exact ⟨⟨nofun, nofun, List.nodup_nil⟩, nofun⟩

/-- Only a post adds a key. -/
theorem keys_step {a : Action} (hs : Timer.step s a = some t) {k : ℤ} (hk : k ∈ t.timeWaitMap) :
    k ∈ s.timeWaitMap ∨ ∃ task, a = .post task ∧ k = task.timeout := by
  rcases maps_step hs with ⟨task, rfl, rfl⟩ | ⟨sid, rfl, rfl⟩ | ⟨-, ⟨-, htime, -⟩ | ⟨-, htime, -⟩ |
    ⟨-, htime, -⟩⟩
  · obtain ⟨sm, tw, cl, ce, re, heq, hsub⟩ := Manager.cancelOwn_frame s task.sid
    unfold Manager.iPostTask at hk
    split at hk
    · exact .inl hk
    · rw [heq] at hk
      rcases (AList.mem_insert tw).mp hk with rfl | hold
      · exact .inr ⟨task, rfl, rfl⟩
      · exact .inl (hsub k hold)
  · obtain ⟨_, _, _, _, _, heq, hsub⟩ := Manager.iCancel_frame s sid
    rw [heq] at hk
    exact .inl (hsub k hk)
  · exact .inl (htime ▸ hk)
  · rw [htime] at hk
    exact .inl (AList.mem_erase.mp hk).2
  · rw [htime] at hk
    exact absurd hk (AList.notMem_empty k)

/-- A deadline is chosen among the keys. -/
theorem chosen_step {a : Action} (hs : Timer.step s a = some t) : s.now ≤ t.now ∧
    (t.tmpTime = s.tmpTime ∨ t.tmpTime = -1 ∨ t.tmpTime ∈ s.timeWaitMap) := by
  by_cases hstep : a = .taskStep
  · subst hstep
    simp only [Timer.step, Manager.taskStep] at hs
    split at hs
    case h_2 =>
      cases hs
      refine ⟨le_rfl, ?_⟩
      by_cases hnone : s.tmpTime = -1
      · rw [if_pos hnone]
        cases hfirst : firstKey? s.timeWaitMap with
        | none => exact .inr (.inl rfl)
        | some k => exact .inr (.inr (firstKey?_mem hfirst))
      · rw [if_neg hnone]
        exact .inl rfl
    case h_9 =>
      cases hs
      exact ⟨le_rfl, .inr (.inl rfl)⟩
    case h_5 | h_11 => split at hs <;> cases hs; exact ⟨le_rfl, .inl rfl⟩
    case h_12 => cases hs
    all_goals
      cases hs
      exact ⟨le_rfl, .inl rfl⟩
  · by_cases htimeout : a = .taskTimeout
    · subst htimeout
      simp only [Timer.step, Manager.taskTimeout] at hs
      split at hs
      · split at hs <;> cases hs
        exact ⟨le_rfl, .inl rfl⟩
      · cases hs
    · obtain ⟨-, htmp, hnow⟩ := still_step hstep htimeout hs
      exact ⟨hnow, .inl htmp⟩

/-- The task thread's batch is the bucket of `tmp_time`, and then what is left of it. -/
theorem rest_step {a : Action} (hs : Timer.step s a = some t) :
    t.taskThread.rest ⊆ s.taskThread.rest ∨
      s.taskThread = .extract ∧
        t.taskThread.rest = (s.timeWaitMap.lookup s.tmpTime).getD [] := by
  by_cases hstep : a = .taskStep
  · subst hstep
    simp only [Timer.step, Manager.taskStep] at hs
    split at hs <;> rename_i hpc
    case h_6 =>
      cases hs
      exact .inr ⟨hpc, rfl⟩
    case h_8 =>
      cases hs
      rw [hpc]
      exact .inl (List.subset_cons_self _ _)
    case h_5 | h_11 => split at hs <;> cases hs; exact .inl (List.nil_subset _)
    case h_12 => cases hs
    case h_1 | h_3 | h_10 =>
      cases hs
      simp only
      split <;> exact .inl (List.nil_subset _)
    all_goals
      cases hs
      exact .inl (List.nil_subset _)
  · by_cases htimeout : a = .taskTimeout
    · subst htimeout
      simp only [Timer.step, Manager.taskTimeout] at hs
      split at hs
      · split at hs <;> cases hs
        exact .inl (List.nil_subset _)
      · cases hs
    · rw [(still_step hstep htimeout hs).1]
      exact .inl (List.Subset.refl _)

end Steps

/-! ## Never early -/

/-- The task thread's deadline is not before the end of its wait, and what it extracts is due. -/
structure Punctual (s : Manager) : Prop where
  enter : ∀ diff, s.taskThread = .enter diff → s.tmpTime ≤ s.now + diff
  wait : ∀ until_, s.taskThread = .wait until_ → s.tmpTime ≤ until_
  extract : s.taskThread = .extract → s.tmpTime ≤ s.now
  batch : ∀ e ∈ s.taskThread.rest, e.task.timeout ≤ s.now

/-- The places where the task thread is in no wait and has nothing to notify. -/
def TaskPc.undated : TaskPc → Bool
  | .enter _ | .wait _ | .extract | .notify _ => false
  | _ => true

section Places
variable {s : Manager}

theorem punctual_of_undated (h : s.taskThread.undated = true) : Punctual s where
  enter _ heq := by simp [heq, TaskPc.undated] at h
  wait _ heq := by simp [heq, TaskPc.undated] at h
  extract heq := by simp [heq, TaskPc.undated] at h
  batch e he := by
    cases hpc : s.taskThread with
    | notify rest => simp [hpc, TaskPc.undated] at h
    | _ => simp [hpc, TaskPc.rest] at he

theorem punctual_enter {diff : ℤ} (hpc : s.taskThread = .enter diff)
    (hle : s.tmpTime ≤ s.now + diff) : Punctual s where
  enter _ heq := by
    cases hpc.symm.trans heq
    exact hle
  wait _ heq := by cases hpc.symm.trans heq
  extract heq := by cases hpc.symm.trans heq
  batch e he := by simp [hpc, TaskPc.rest] at he

theorem punctual_wait {until_ : ℤ} (hpc : s.taskThread = .wait until_)
    (hle : s.tmpTime ≤ until_) : Punctual s where
  enter _ heq := by cases hpc.symm.trans heq
  wait _ heq := by
    cases hpc.symm.trans heq
    exact hle
  extract heq := by cases hpc.symm.trans heq
  batch e he := by simp [hpc, TaskPc.rest] at he

theorem punctual_extract (hpc : s.taskThread = .extract) (hle : s.tmpTime ≤ s.now) :
    Punctual s where
  enter _ heq := by cases hpc.symm.trans heq
  wait _ heq := by cases hpc.symm.trans heq
  extract _ := hle
  batch e he := by simp [hpc, TaskPc.rest] at he

theorem punctual_notify {rest : List Posted} (hpc : s.taskThread = .notify rest)
    (hdue : ∀ e ∈ rest, e.task.timeout ≤ s.now) : Punctual s where
  enter _ heq := by cases hpc.symm.trans heq
  wait _ heq := by cases hpc.symm.trans heq
  extract heq := by cases hpc.symm.trans heq
  batch e he := hdue e (by simpa [hpc, TaskPc.rest] using he)

end Places

/-- A deadline that is not further ahead than an `int` reaches is not cut short. -/
theorem le_diff {s : Manager} (h : s.tmpTime - s.now ≤ intMax) : s.tmpTime - s.now ≤ s.diff := by
  unfold Manager.diff tpAdjustDelta
  unfold intMax at h
  have hmod := Int.bmod_def (s.tmpTime - s.now) 4294967296
  omega

section Steps
variable {s t : Manager}

/-- The deadline of which the task thread computes the distance is no further ahead than an `int`
reaches. -/
def Manager.FitsInt (s : Manager) : Prop :=
  s.taskThread = .arm → s.tmpTime ≠ -1 → s.tmpTime - s.now ≤ intMax

theorem punctual_taskStep (hfiled : Filed s.sidMap s.timeWaitMap) (h : Punctual s)
    (hok : s.FitsInt) (hs : s.taskStep = some t) : Punctual t := by
  unfold Manager.taskStep at hs
  split at hs <;> rename_i hpc
  case h_3 =>
    -- arm
    cases hs
    by_cases hnone : s.tmpTime = -1
    · simp only [hnone, ne_eq, not_true_eq_false, if_false]
      exact punctual_of_undated rfl
    · simp only [hnone, ne_eq, not_false_eq_true, if_true]
      have hle := le_diff (hok hpc hnone)
      exact punctual_enter rfl (by simp only; omega)
  case h_4 =>
    -- enter
    cases hs
    exact punctual_wait rfl (h.enter _ hpc)
  case h_6 =>
    -- extract
    cases hs
    refine punctual_notify rfl fun e he => ?_
    have hdue := h.extract hpc
    cases hl : s.timeWaitMap.lookup s.tmpTime with
    | none => simp [hl] at he
    | some l =>
      simp only [hl, Option.getD_some] at he
      rw [hfiled.bucket s.tmpTime l hl e he]
      exact hdue
  case h_8 =>
    -- notify
    cases hs
    have hbatch := h.batch
    rw [hpc] at hbatch
    exact punctual_notify rfl fun e he => hbatch e (List.mem_cons_of_mem _ he)
  case h_5 | h_11 => split at hs <;> cases hs; exact punctual_of_undated rfl
  case h_12 => cases hs
  case h_1 | h_10 =>
    cases hs
    split <;> exact punctual_of_undated rfl
  all_goals
    cases hs
    exact punctual_of_undated rfl

theorem punctual_step {a : Action} (hfiled : Filed s.sidMap s.timeWaitMap) (h : Punctual s)
    (hok : a = .taskStep → s.FitsInt) (hs : Timer.step s a = some t) : Punctual t := by
  by_cases hstep : a = .taskStep
  · subst hstep
    exact punctual_taskStep hfiled h (hok rfl) hs
  by_cases htimeout : a = .taskTimeout
  · subst htimeout
    simp only [Timer.step, Manager.taskTimeout] at hs
    split at hs <;> rename_i hpc
    · split at hs <;> cases hs
      rename_i hover
      have hwait := h.wait _ hpc
      have hle := of_decide_eq_true (Bool.and_eq_true_iff.mp hover).2
      exact punctual_extract rfl (hwait.trans hle)
    · cases hs
  · obtain ⟨hpc, htmp, hnow⟩ := still_step hstep htimeout hs
    refine ⟨?_, ?_, ?_, ?_⟩ <;> rw [hpc]
    · intro diff hdiff
      have henter := h.enter diff hdiff
      omega
    · rw [htmp]
      exact h.wait
    · rw [htmp]
      exact fun hextract => (h.extract hextract).trans hnow
    · exact fun e he => (h.batch e he).trans hnow

end Steps

/-! ## Runs -/

namespace Timers

/-- Some wait made this task. -/
def Asked (s : Timers) (task : TimerTask) : Prop := ∃ ms time, .waited task ms time ∈ s.log

structure Dated (s : Timers) : Prop where
  filed : Filed s.manager.sidMap s.manager.timeWaitMap
  punctual : Punctual s.manager
  waits : ∀ task ∈ s.waits, s.Asked task
  queued : ∀ e ∈ s.manager.queued, s.Asked e.task
  batch : ∀ e ∈ s.manager.taskThread.rest, s.Asked e.task
  waited : ∀ task ms time, .waited task ms time ∈ s.log → task.timeout = deadline time ms
  started : ∀ e time, .started e time ∈ s.log → s.Asked e.task ∧ e.task.timeout ≤ time

theorem dated_init (now : ℤ) : Dated (init now) :=
  ⟨⟨nofun, nofun, List.nodup_nil⟩, ⟨nofun, nofun, nofun, nofun⟩, nofun, nofun, nofun, nofun, nofun⟩

theorem Asked.append {s : Timers} {task : TimerTask} (h : s.Asked task) (log : List Event) :
    Asked { s with log := s.log ++ log } task :=
  h.imp fun _ h => h.imp fun _ h => List.mem_append_left log h

/-- A step of the manager, which may add a task that some wait has made. -/
theorem Dated.inManager {s t : Timers} {b : Timer.Action} (h : Dated s)
    (hs : s.inManager b = some t) (hok : b = .taskStep → s.manager.FitsInt)
    (hpost : ∀ task, b = .post task → s.Asked task) : Dated t := by
  obtain ⟨m, hm, rfl⟩ := Option.map_eq_some_iff.mp hs
  obtain ⟨hfiled, hqueued⟩ := queued_step h.filed hm
  refine ⟨hfiled, punctual_step h.filed h.punctual hok hm, h.waits, ?_, ?_, h.waited, h.started⟩
  · intro e he
    rcases hqueued e he with hold | ⟨task, hb, -, heq⟩
    · exact h.queued e hold
    · rw [heq]
      exact hpost task hb
  · intro e he
    rcases rest_step hm with hsub | ⟨-, hrest⟩
    · exact h.batch e (hsub he)
    · rw [hrest] at he
      apply h.queued e
      apply (items_perm s.manager.tmpTime s.manager.timeWaitMap).mem_iff.mpr
      exact List.mem_append_left _ he

/-- No wait is logged, and the callbacks that are logged are due. -/
theorem Dated.logs {s : Timers} (h : Dated s) {log : List Event}
    (hwaited : ∀ task ms time, .waited task ms time ∉ log)
    (hstarted : ∀ e time, .started e time ∈ log → s.Asked e.task ∧ e.task.timeout ≤ time) :
    Dated { s with log := s.log ++ log } := by
  refine ⟨h.filed, h.punctual, fun task hw => (h.waits task hw).append _,
    fun e he => (h.queued e he).append _, fun e he => (h.batch e he).append _, ?_, ?_⟩
  · intro task ms time hw
    rcases List.mem_append.mp hw with hold | hnew
    · exact h.waited task ms time hold
    · exact absurd hnew (hwaited task ms time)
  · intro e time hin
    rcases List.mem_append.mp hin with hold | hnew
    · obtain ⟨hasked, hle⟩ := h.started e time hold
      exact ⟨hasked.append _, hle⟩
    · obtain ⟨hasked, hle⟩ := hstarted e time hnew
      exact ⟨hasked.append _, hle⟩

/-- The callback that the task thread starts is due. -/
theorem Dated.starts {s : Timers} (h : Dated s) :
    Dated { s with log := s.log ++ s.manager.starts } := by
  have hstarts : ∀ ev ∈ s.manager.starts, ∃ e ∈ s.manager.taskThread.rest,
      ev = .started e s.manager.now := by
    intro ev hev
    unfold Manager.starts at hev
    split at hev
    · split at hev
      · rename_i e rest hpc _
        rw [hpc]
        exact ⟨e, List.mem_cons_self, List.mem_singleton.mp hev⟩
      · cases hev
    · cases hev
  refine h.logs (fun task ms time hw => ?_) fun e time hstarted => ?_
  · obtain ⟨e, -, heq⟩ := hstarts _ hw
    cases heq
  · obtain ⟨e', he', heq⟩ := hstarts _ hstarted
    cases heq
    exact ⟨h.batch e he', h.punctual.batch e he'⟩

theorem Dated.clients {s : Timers} (h : Dated s) {waits : List TimerTask} (hsub : waits ⊆ s.waits)
    (cancels : List Cancelling) : Dated { s with waits := waits, cancels := cancels } :=
  ⟨h.filed, h.punctual, fun task hw => h.waits task (hsub hw), h.queued, h.batch, h.waited, h.started⟩

/-- The guard of a run in which the task thread never has to wait for more than an `int`. -/
def FitsInt (s : Timers) (a : Action) : Prop := a = .taskStep → s.manager.FitsInt

theorem dated_step {s t : Timers} {a : Action} (h : Dated s) (hok : FitsInt s a)
    (hs : step s a = some t) : Dated t := by
  cases a with
  | wait sid ms cb =>
    cases hs
    have hnew : Asked { s with log := s.log ++
        [.waited ⟨sid, deadline s.manager.now ms, cb⟩ ms s.manager.now] }
        ⟨sid, deadline s.manager.now ms, cb⟩ :=
      ⟨ms, s.manager.now, List.mem_append_right _ List.mem_cons_self⟩
    refine ⟨h.filed, h.punctual, ?_, fun e he => (h.queued e he).append _,
      fun e he => (h.batch e he).append _, ?_, ?_⟩
    · intro task hw
      rcases List.mem_append.mp hw with hold | hmade
      · exact (h.waits task hold).append _
      · rw [List.mem_singleton.mp hmade]
        exact hnew
    · intro task ms' time hw
      rcases List.mem_append.mp hw with hold | hmade
      · exact h.waited task ms' time hold
      · cases List.mem_singleton.mp hmade
        rfl
    · intro e time hstarted
      rcases List.mem_append.mp hstarted with hold | hmade
      · obtain ⟨hasked, hle⟩ := h.started e time hold
        exact ⟨hasked.append _, hle⟩
      · cases List.mem_singleton.mp hmade
  | enterPost i =>
    simp only [step] at hs
    split at hs
    · cases hs
    · rename_i task hi
      refine (h.clients (List.eraseIdx_subset) s.cancels).inManager hs nofun ?_
      intro task' heq
      cases heq
      exact h.waits task (List.mem_of_getElem? hi)
  | cancel sid =>
    simp only [step] at hs
    exact (h.clients (List.Subset.refl _) _).inManager hs nofun nofun
  | cancelSetsEvent i =>
    simp only [step] at hs
    split at hs
    · cases hs
    · split at hs
      · exact (h.clients (List.Subset.refl _) _).inManager hs nofun nofun
      · cases hs
  | cancelReturn i =>
    simp only [step] at hs
    split at hs
    · cases hs
    · split at hs <;> cases hs
      have hwaited (c : ℤ) : ∀ task ms time, Event.waited task ms time ∉ [.cancelReturned c] := by
        simp
      have hstarted (c : ℤ) : ∀ e time, Event.started e time ∉ [.cancelReturned c] := by
        simp
      exact (h.logs (hwaited _) fun e time hin => absurd hin (hstarted _ e time)).clients
        (List.Subset.refl _) _
  | taskStep =>
    simp only [step] at hs
    exact h.starts.inManager hs (fun _ => hok rfl) nofun
  | postSetsEvent | taskTimeout | cancelStep | tick | uninit =>
    simp only [step] at hs
    exact h.inManager hs nofun nofun

/-- A deadline that does not overflow is the sum. -/
theorem deadline_eq {now ms : ℤ} (hlow : -9223372036854775808 ≤ now + ms)
    (hhigh : now + ms < 9223372036854775808) : deadline now ms = now + ms := by
  unfold deadline
  rw [Int.bmod_def]
  omega

/-- In every run in which the task thread never has to wait for more than `INT_MAX` ms, a callback
with `TIE_OK` is called for tasks that were waited for only, and not before the deadline. -/
theorem fires_not_early (now : ℤ) (s : Timers) (h : Reach step FitsInt (init now) s) (e : Posted)
    (time : ℤ) (hstarted : .started e time ∈ s.log) :
    (∃ ms since, .waited e.task ms since ∈ s.log) ∧
    ∀ ms since, .waited e.task ms since ∈ s.log → -9223372036854775808 ≤ since + ms →
      since + ms < 9223372036854775808 → since + ms ≤ time := by
  have hinv : Dated s := h.invariant (dated_init now) fun _ _ _ hi hok hs => dated_step hi hok hs
  obtain ⟨hasked, hle⟩ := hinv.started e time hstarted
  refine ⟨hasked, fun ms since hwaited hlow hhigh => ?_⟩
  rwa [hinv.waited e.task ms since hwaited, deadline_eq hlow hhigh] at hle

/-! ## Waits of an `int` -/

/-- The guard of a run whose waits are for no more than `INT_MAX` ms and do not overflow downwards:
those of the overload for `int` on a clock that does not run below zero. -/
def ShortWaits (s : Timers) (a : Action) : Prop :=
  ∀ sid ms cb, a = .wait sid ms cb → ms ≤ intMax ∧ -9223372036854775808 ≤ s.manager.now + ms

/-- No deadline is further ahead than `INT_MAX`. -/
structure Near (s : Timers) : Prop where
  waits : ∀ task ∈ s.waits, task.timeout ≤ s.manager.now + intMax
  keys : ∀ k ∈ s.manager.timeWaitMap, k ≤ s.manager.now + intMax
  chosen : s.manager.tmpTime ≠ -1 → s.manager.tmpTime ≤ s.manager.now + intMax

theorem near_init (now : ℤ) : Near (init now) :=
  ⟨nofun, fun k hk => absurd hk (AList.notMem_empty k), fun hnone => absurd rfl hnone⟩

theorem Near.inManager {s t : Timers} {b : Timer.Action} (h : Near s) (hs : s.inManager b = some t)
    (hpost : ∀ task, b = .post task → task.timeout ≤ s.manager.now + intMax) : Near t := by
  obtain ⟨m, hm, rfl⟩ := Option.map_eq_some_iff.mp hs
  obtain ⟨hnow, hchosen⟩ := chosen_step hm
  refine ⟨fun task hw => ?_, fun k hk => ?_, fun hnone => ?_⟩
  · exact (h.waits task hw).trans (Int.add_le_add_right hnow _)
  · rcases keys_step hm hk with hold | ⟨task, hb, rfl⟩
    · exact (h.keys k hold).trans (Int.add_le_add_right hnow _)
    · exact (hpost task hb).trans (Int.add_le_add_right hnow _)
  · rcases hchosen with hsame | hreset | hkey
    · rw [hsame] at hnone ⊢
      exact (h.chosen hnone).trans (Int.add_le_add_right hnow _)
    · exact absurd hreset hnone
    · exact (h.keys _ hkey).trans (Int.add_le_add_right hnow _)

theorem Near.clients {s : Timers} (h : Near s) {waits : List TimerTask} (hsub : waits ⊆ s.waits)
    (cancels : List Cancelling) : Near { s with waits := waits, cancels := cancels } :=
  ⟨fun task hw => h.waits task (hsub hw), h.keys, h.chosen⟩

theorem near_step {s t : Timers} {a : Action} (h : Near s) (hok : ShortWaits s a)
    (hs : step s a = some t) : Near t := by
  cases a with
  | wait sid ms cb =>
    obtain ⟨hms, hlow⟩ := hok sid ms cb rfl
    cases hs
    refine ⟨fun task hw => ?_, h.keys, h.chosen⟩
    rcases List.mem_append.mp hw with hold | hnew
    · exact h.waits task hold
    · rw [List.mem_singleton.mp hnew]
      unfold deadline
      unfold intMax at hms ⊢
      rw [Int.bmod_def]
      simp only
      omega
  | enterPost i =>
    simp only [step] at hs
    split at hs
    · cases hs
    · rename_i task hi
      refine (h.clients (List.eraseIdx_subset) s.cancels).inManager hs ?_
      intro task' heq
      cases heq
      exact h.waits task (List.mem_of_getElem? hi)
  | cancel sid =>
    simp only [step] at hs
    exact (h.clients (List.Subset.refl _) _).inManager hs nofun
  | cancelSetsEvent i =>
    simp only [step] at hs
    split at hs
    · cases hs
    · split at hs
      · exact (h.clients (List.Subset.refl _) _).inManager hs nofun
      · cases hs
  | cancelReturn i =>
    simp only [step] at hs
    split at hs
    · cases hs
    · split at hs <;> cases hs
      exact ⟨h.waits, h.keys, h.chosen⟩
  | taskStep =>
    simp only [step] at hs
    have hlogged : Near { s with log := s.log ++ s.manager.starts } := ⟨h.waits, h.keys, h.chosen⟩
    exact hlogged.inManager hs nofun
  | postSetsEvent | taskTimeout | cancelStep | tick | uninit =>
    simp only [step] at hs
    exact h.inManager hs nofun

/-- Short waits never make the task thread wait for more than an `int`. -/
theorem shortWaits_fit {now : ℤ} {s : Timers} (h : Reach step ShortWaits (init now) s) :
    Reach step FitsInt (init now) s := by
  apply h.strengthen (near_init now) (fun _ _ _ hi hok hs => near_step hi hok hs)
  intro u a hnear _ _ _ hnone
  have hchosen := hnear.chosen hnone
  omega

/-- One wait of 100 ms, and the clock moving on by 100. -/
def oneWait : List Action :=
  [.wait 1 100 (some 0), .enterPost 0] ++ List.replicate 4 .taskStep ++
    [.tick 100, .taskTimeout, .taskStep, .taskStep]

theorem fires_not_early_one_wait :
    ∃ s, run step (init 0) oneWait = some s ∧ .started ⟨0, ⟨1, 100, some 0⟩⟩ 100 ∈ s.log ∧
      ∃ ms since, .waited ⟨1, 100, some 0⟩ ms since ∈ s.log := by
  have hwait : ShortWaits (init 0) (.wait 1 100 (some 0)) := by
    intro sid ms cb heq
    cases heq
    decide
  have hothers : ∀ a ∈ oneWait.tail, ∀ u, ShortWaits u a := by
    intro a ha u sid ms cb heq
    subst heq
    simp [oneWait] at ha
  have hreach : Reach step ShortWaits (init 0) _ :=
    (Reach.refl.tail hwait rfl).trans (Reach.of_run_ok hothers rfl)
  refine ⟨_, rfl, List.mem_append_right _ List.mem_cons_self, ?_⟩
  exact (fires_not_early 0 _ (shortWaits_fit hreach) ⟨0, ⟨1, 100, some 0⟩⟩ 100
    (List.mem_append_right _ List.mem_cons_self)).1

/-- A wait of `2 ^ 31` ms. -/
def longWait : List Action :=
  [.wait 1 2147483648 (some 0), .enterPost 0, .postSetsEvent] ++ List.replicate 4 .taskStep ++
    [.taskTimeout, .taskStep, .taskStep]

/-- It is over at once. -/
theorem long_wait_fires_early :
    ∃ s, Reachable step (init 0) s ∧
      .waited ⟨1, 2147483648, some 0⟩ 2147483648 0 ∈ s.log ∧
      .started ⟨0, ⟨1, 2147483648, some 0⟩⟩ 0 ∈ s.log := by
  have hrun : (run step (init 0) longWait).map Timers.log =
      some [.waited ⟨1, 2147483648, some 0⟩ 2147483648 0,
        .started ⟨0, ⟨1, 2147483648, some 0⟩⟩ 0] := by
    decide +kernel
  obtain ⟨s, hs, hlog⟩ := Option.map_eq_some_iff.mp hrun
  refine ⟨s, Reach.of_run hs, ?_, ?_⟩ <;> rw [hlog]
  · exact List.mem_cons_self
  · exact List.mem_cons_of_mem _ List.mem_cons_self

end Timers

end DevFramework.Timer
