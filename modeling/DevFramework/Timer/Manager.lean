import DevFramework.Foundations.OrderedMap
import DevFramework.Foundations.Transition

/-! # The timer manager (bas/timer_impl.hpp)

`relative_timer_manager_t` between `init` and the end of `uninit`. A section under `mutex_` is one
step, and so is every access outside it: a `SetEvent`, the start and the end of a wait, the call
of one callback. Any number of threads may be between the locked section of a post or a cancel and
the `SetEvent(run_event_)` that follows it; `posting` and `cancelling` count them. The three events
reset themselves when a wait takes them. Every accepted post gets a serial number, so that two
tasks with the same fields are still two tasks; `notified` lists the tasks whose turn in one of the
two notification loops has come, the callback being called where it is not empty.
-/
namespace DevFramework.Timer
open OrderedMap
set_option autoImplicit false
set_option maxHeartbeats 250000

inductive TimerImplErr where
  | ok
  | cancelled
  deriving DecidableEq, Repr

/-- `TP_ADJUST_DELTA`. -/
def tpAdjustDelta : ℤ := 0

/-- A `timer_task`; the callback is empty or a callable, named by a number. -/
structure TimerTask where
  sid : ℤ
  timeout : ℤ
  cb : Option ℕ
  deriving DecidableEq, Repr

/-- An accepted task. -/
structure Posted where
  serial : ℕ
  task : TimerTask
  deriving DecidableEq, Repr

/-- Where the task thread is in `i_on_task_thread`. -/
inductive TaskPc where
  | top
  | choose
  | arm
  | enter (diff : ℤ)
  | wait (until_ : ℤ)
  | extract
  | notify (rest : List Posted)
  | reset
  | check
  | waitRun
  | stopped
  deriving DecidableEq

/-- Where the cancel thread is in `i_on_cancel_thread`. -/
inductive CancelPc where
  | top
  | grab
  | notify (rest : List Posted)
  | check
  | waitCancel
  | stopped
  deriving DecidableEq

/-- How far `uninit` has come. -/
inductive UninitPc where
  | idle
  | clear
  | setEvent
  | setRunEvent
  | setCancelEvent
  | joinTask
  | joinCancel
  | finished
  deriving DecidableEq

structure Manager where
  exit : Bool
  run : Bool
  event : Bool
  runEvent : Bool
  cancelEvent : Bool
  sidMap : Map ℤ ℤ
  timeWaitMap : Map ℤ (List Posted)
  cancelList : List Posted
  taskThread : TaskPc
  tmpTime : ℤ
  tmpList : List Posted
  cancelThread : CancelPc
  posting : ℕ
  cancelling : ℕ
  uninit : UninitPc
  now : ℤ
  accepted : List Posted
  notified : List (Posted × TimerImplErr)

/-- The manager after `init`. -/
def init (now : ℤ) : Manager where
  exit := false
  run := true
  event := false
  runEvent := false
  cancelEvent := false
  sidMap := ∅
  timeWaitMap := ∅
  cancelList := []
  taskThread := .top
  tmpTime := -1
  tmpList := []
  cancelThread := .top
  posting := 0
  cancelling := 0
  uninit := .idle
  now := now
  accepted := []
  notified := []

namespace Manager

/-! ## Posting and cancelling -/

/-- A bucket whose list has become `rest`; an empty one is erased. -/
def setBucket (m : Map ℤ (List Posted)) (k : ℤ) (rest : List Posted) : Map ℤ (List Posted) :=
  if rest.isEmpty then m.erase k else m.insert k rest

/-- What `i_cancel` does under the lock once `exit_` is known to be false. -/
def removeTask (s : Manager) (sid : ℤ) : Manager :=
  match s.sidMap.lookup sid with
  | none => s
  | some tmpTime =>
    match s.timeWaitMap.lookup tmpTime with
    | none => { s with sidMap := s.sidMap.erase sid }
    | some waitList =>
      let found := waitList.find? fun e => e.task.sid = sid
      { s with
        sidMap := s.sidMap.erase sid
        timeWaitMap := setBucket s.timeWaitMap tmpTime (waitList.eraseP fun e => e.task.sid = sid)
        cancelList := s.cancelList ++ found.toList
        cancelEvent := s.cancelEvent || found.isSome }

/-- The locked section of `i_cancel`. -/
def iCancel (s : Manager) (sid : ℤ) : Manager :=
  if s.exit then s else { s.removeTask sid with cancelling := s.cancelling + 1 }

/-- The cancel inside `i_post_task`. It runs to its end under the lock that the post holds. -/
def cancelOwn (s : Manager) (sid : ℤ) : Manager :=
  if (s.sidMap.lookup sid).isSome then { s.removeTask sid with runEvent := true } else s

/-- The deadline that a post compares its own with. -/
def tmpTimeout (s : Manager) : ℤ := (firstKey? s.timeWaitMap).getD (-1)

/-- A task put into both maps. -/
def enqueue (s : Manager) (task : TimerTask) : Manager :=
  let e : Posted := ⟨s.accepted.length, task⟩
  { s with
    sidMap := s.sidMap.insert task.sid task.timeout
    timeWaitMap := s.timeWaitMap.insert task.timeout
      ((s.timeWaitMap.lookup task.timeout).getD [] ++ [e])
    event := s.event || decide (task.timeout < s.tmpTimeout)
    posting := s.posting + 1
    accepted := s.accepted ++ [e] }

/-- The locked section of `i_post_task`. -/
def iPostTask (s : Manager) (task : TimerTask) : Manager :=
  if s.exit then s else (s.cancelOwn task.sid).enqueue task

theorem mem_setBucket {m : Map ℤ (List Posted)} {k a : ℤ} {rest : List Posted} (hk : k ∈ m)
    (h : a ∈ setBucket m k rest) : a ∈ m := by
  unfold setBucket at h
  split at h
  · exact (AList.mem_erase.mp h).2
  · rcases (AList.mem_insert m).mp h with rfl | h
    · exact hk
    · exact h

/-- A cancel touches the maps and the cancel list, and leaves no new key. -/
theorem removeTask_frame (s : Manager) (sid : ℤ) :
    ∃ sidMap timeWaitMap cancelList cancelEvent,
      s.removeTask sid = { s with
        sidMap := sidMap
        timeWaitMap := timeWaitMap
        cancelList := cancelList
        cancelEvent := cancelEvent } ∧
      ∀ k ∈ timeWaitMap, k ∈ s.timeWaitMap := by
  unfold removeTask
  split
  · exact ⟨_, _, _, _, rfl, fun k hk => hk⟩
  · split
    · exact ⟨_, _, _, _, rfl, fun k hk => hk⟩
    · rename_i hl
      have hmem := AList.lookup_isSome.mp (Option.isSome_of_eq_some hl)
      exact ⟨_, _, _, _, rfl, fun k hk => mem_setBucket hmem hk⟩

theorem cancelOwn_frame (s : Manager) (sid : ℤ) :
    ∃ sidMap timeWaitMap cancelList cancelEvent runEvent,
      s.cancelOwn sid = { s with
        sidMap := sidMap
        timeWaitMap := timeWaitMap
        cancelList := cancelList
        cancelEvent := cancelEvent
        runEvent := runEvent } ∧
      ∀ k ∈ timeWaitMap, k ∈ s.timeWaitMap := by
  unfold cancelOwn
  split
  · obtain ⟨sm, tw, cl, ce, h, hsub⟩ := removeTask_frame s sid
    exact ⟨sm, tw, cl, ce, true, by rw [h], hsub⟩
  · exact ⟨_, _, _, _, _, rfl, fun k hk => hk⟩

theorem iCancel_frame (s : Manager) (sid : ℤ) :
    ∃ sidMap timeWaitMap cancelList cancelEvent cancelling,
      s.iCancel sid = { s with
        sidMap := sidMap
        timeWaitMap := timeWaitMap
        cancelList := cancelList
        cancelEvent := cancelEvent
        cancelling := cancelling } ∧
      ∀ k ∈ timeWaitMap, k ∈ s.timeWaitMap := by
  unfold iCancel
  split
  · exact ⟨_, _, _, _, _, rfl, fun k hk => hk⟩
  · obtain ⟨sm, tw, cl, ce, h, hsub⟩ := removeTask_frame s sid
    exact ⟨sm, tw, cl, ce, s.cancelling + 1, by rw [h], hsub⟩

/-- A post moves no thread and notifies nobody. -/
theorem iPostTask_frame (s : Manager) (task : TimerTask) :
    ∃ sidMap timeWaitMap cancelList cancelEvent runEvent event posting accepted,
      s.iPostTask task = { s with
        sidMap := sidMap
        timeWaitMap := timeWaitMap
        cancelList := cancelList
        cancelEvent := cancelEvent
        runEvent := runEvent
        event := event
        posting := posting
        accepted := accepted } := by
  unfold iPostTask
  split
  · exact ⟨_, _, _, _, _, _, _, _, rfl⟩
  · obtain ⟨sm, tw, cl, ce, re, h, -⟩ := cancelOwn_frame s task.sid
    rw [h]
    exact ⟨_, _, _, _, _, _, _, _, rfl⟩

/-! ## The threads -/

/-- `int diff`: how long the task thread is to wait for its deadline. -/
def diff (s : Manager) : ℤ := max 0 (Int.bmod (s.tmpTime - s.now) 4294967296 - tpAdjustDelta)

/-- The next step of `i_on_task_thread`; a wait goes on only when its event is signalled. -/
def taskStep (s : Manager) : Option Manager :=
  match s.taskThread with
  | .top => some { s with taskThread := if s.run then .choose else .stopped }
  | .choose =>
    some { s with
      tmpTime := if s.tmpTime = -1 then (firstKey? s.timeWaitMap).getD (-1) else s.tmpTime
      taskThread := .arm }
  | .arm => some { s with taskThread := if s.tmpTime ≠ -1 then .enter s.diff else .check }
  | .enter diff => some { s with taskThread := .wait (s.now + diff) }
  | .wait _ => if s.event then some { s with event := false, taskThread := .reset } else none
  | .extract =>
    some { s with
      tmpList := (s.timeWaitMap.lookup s.tmpTime).getD []
      timeWaitMap := s.timeWaitMap.erase s.tmpTime
      taskThread := .notify ((s.timeWaitMap.lookup s.tmpTime).getD []) }
  | .notify [] => some { s with taskThread := .reset }
  | .notify (item :: rest) =>
    some { s with notified := s.notified ++ [(item, .ok)], taskThread := .notify rest }
  | .reset => some { s with tmpTime := -1, tmpList := [], taskThread := .check }
  | .check => some { s with taskThread := if s.timeWaitMap.keys.isEmpty then .waitRun else .top }
  | .waitRun => if s.runEvent then some { s with runEvent := false, taskThread := .top } else none
  | .stopped => none

/-- `WAIT_TIMEOUT`: the time of the task thread's wait is over and nobody signalled. -/
def taskTimeout (s : Manager) : Option Manager :=
  match s.taskThread with
  | .wait until_ =>
    if !s.event && until_ ≤ s.now then some { s with taskThread := .extract } else none
  | _ => none

/-- The next step of `i_on_cancel_thread`. -/
def cancelStep (s : Manager) : Option Manager :=
  match s.cancelThread with
  | .top => some { s with cancelThread := if s.run then .grab else .stopped }
  | .grab => some { s with cancelList := [], cancelThread := .notify s.cancelList }
  | .notify [] => some { s with cancelThread := .check }
  | .notify (item :: rest) =>
    some { s with notified := s.notified ++ [(item, .cancelled)], cancelThread := .notify rest }
  | .check => some { s with cancelThread := if s.cancelList.isEmpty then .waitCancel else .top }
  | .waitCancel =>
    if s.cancelEvent then some { s with cancelEvent := false, cancelThread := .top } else none
  | .stopped => none

/-- The next step of `uninit`; a join waits for its thread. -/
def uninitStep (s : Manager) : Option Manager :=
  match s.uninit with
  | .idle => some { s with run := false, uninit := .clear }
  | .clear =>
    some { s with
      exit := true, sidMap := ∅, timeWaitMap := ∅, cancelList := [], uninit := .setEvent }
  | .setEvent => some { s with event := true, uninit := .setRunEvent }
  | .setRunEvent => some { s with runEvent := true, uninit := .setCancelEvent }
  | .setCancelEvent => some { s with cancelEvent := true, uninit := .joinTask }
  | .joinTask => if s.taskThread = .stopped then some { s with uninit := .joinCancel } else none
  | .joinCancel => if s.cancelThread = .stopped then some { s with uninit := .finished } else none
  | .finished => none

/-- The task thread keeps to its own fields, the buckets and the two events it waits for. -/
theorem taskStep_frame {s t : Manager} (hs : s.taskStep = some t) :
    ∃ event runEvent timeWaitMap taskThread tmpTime tmpList notified, t = { s with
      event := event
      runEvent := runEvent
      timeWaitMap := timeWaitMap
      taskThread := taskThread
      tmpTime := tmpTime
      tmpList := tmpList
      notified := notified } := by
  unfold taskStep at hs
  split at hs
  case h_5 | h_11 =>
    split at hs <;> cases hs
    exact ⟨_, _, _, _, _, _, _, rfl⟩
  case h_12 => cases hs
  all_goals
    cases hs
    exact ⟨_, _, _, _, _, _, _, rfl⟩

theorem taskTimeout_frame {s t : Manager} (hs : s.taskTimeout = some t) :
    (∃ until_, s.taskThread = .wait until_ ∧ s.event = false ∧ until_ ≤ s.now) ∧
      t = { s with taskThread := .extract } := by
  unfold taskTimeout at hs
  split at hs <;> rename_i hpc
  · split at hs <;> cases hs
    rename_i hover
    simp only [Bool.and_eq_true, Bool.not_eq_true', decide_eq_true_eq] at hover
    exact ⟨⟨_, hpc, hover⟩, rfl⟩
  · cases hs

/-- The cancel thread keeps to its own fields. -/
theorem cancelStep_frame {s t : Manager} (hs : s.cancelStep = some t) :
    ∃ cancelList cancelThread cancelEvent notified, t = { s with
      cancelList := cancelList
      cancelThread := cancelThread
      cancelEvent := cancelEvent
      notified := notified } := by
  unfold cancelStep at hs
  split at hs
  case h_6 =>
    split at hs <;> cases hs
    exact ⟨_, _, _, _, rfl⟩
  case h_7 => cases hs
  all_goals
    cases hs
    exact ⟨_, _, _, _, rfl⟩

/-- `uninit` drops all tasks in one step; the others set flags and events. -/
theorem uninitStep_frame {s t : Manager} (hs : s.uninitStep = some t) :
    (∃ run event runEvent cancelEvent uninit, t = { s with
        run := run
        event := event
        runEvent := runEvent
        cancelEvent := cancelEvent
        uninit := uninit } ∧
      (s.event = true → event = true) ∧ (s.runEvent = true → runEvent = true)) ∨
    t = { s with
      exit := true
      sidMap := ∅
      timeWaitMap := ∅
      cancelList := []
      uninit := .setEvent } := by
  unfold uninitStep at hs
  split at hs
  case h_2 =>
    cases hs
    exact .inr rfl
  case h_3 =>
    cases hs
    exact .inl ⟨_, _, _, _, _, rfl, fun _ => rfl, id⟩
  case h_4 =>
    cases hs
    exact .inl ⟨_, _, _, _, _, rfl, id, fun _ => rfl⟩
  case h_6 | h_7 =>
    split at hs <;> cases hs
    exact .inl ⟨_, _, _, _, _, rfl, id, id⟩
  case h_8 => cases hs
  all_goals
    cases hs
    exact .inl ⟨_, _, _, _, _, rfl, id, id⟩

end Manager

/-! ## The system -/

inductive Action where
  | post (task : TimerTask)
  | cancel (sid : ℤ)
  | postSetsEvent
  | cancelSetsEvent
  | taskStep
  | taskTimeout
  | cancelStep
  | tick (ms : ℕ)
  | uninit
  deriving DecidableEq

def step (s : Manager) : Action → Option Manager
  | .post task => some (s.iPostTask task)
  | .cancel sid => some (s.iCancel sid)
  | .postSetsEvent =>
    if 0 < s.posting then some { s with runEvent := true, posting := s.posting - 1 } else none
  | .cancelSetsEvent =>
    if 0 < s.cancelling then some { s with runEvent := true, cancelling := s.cancelling - 1 }
    else none
  | .taskStep => s.taskStep
  | .taskTimeout => s.taskTimeout
  | .cancelStep => s.cancelStep
  | .tick ms => some { s with now := s.now + ms }
  | .uninit => s.uninitStep

/-- Only its own steps move the task thread, and the clock is not set back. -/
theorem still_step {s t : Manager} {a : Action} (hstep : a ≠ .taskStep) (htimeout : a ≠ .taskTimeout)
    (hs : step s a = some t) :
    t.taskThread = s.taskThread ∧ t.tmpTime = s.tmpTime ∧ s.now ≤ t.now := by
  cases a with
  | post task =>
    cases hs
    obtain ⟨_, _, _, _, _, _, _, _, heq⟩ := Manager.iPostTask_frame s task
    rw [heq]
    exact ⟨rfl, rfl, le_rfl⟩
  | cancel sid =>
    cases hs
    obtain ⟨_, _, _, _, _, heq, -⟩ := Manager.iCancel_frame s sid
    rw [heq]
    exact ⟨rfl, rfl, le_rfl⟩
  | postSetsEvent | cancelSetsEvent =>
    simp only [step] at hs
    split at hs <;> cases hs
    exact ⟨rfl, rfl, le_rfl⟩
  | taskStep => exact absurd rfl hstep
  | taskTimeout => exact absurd rfl htimeout
  | cancelStep =>
    obtain ⟨_, _, _, _, rfl⟩ := Manager.cancelStep_frame hs
    exact ⟨rfl, rfl, le_rfl⟩
  | tick ms =>
    cases hs
    refine ⟨rfl, rfl, ?_⟩
    simp only
    omega
  | uninit =>
    obtain ⟨_, _, _, _, _, rfl, -, -⟩ | rfl := Manager.uninitStep_frame hs
    · exact ⟨rfl, rfl, le_rfl⟩
    · exact ⟨rfl, rfl, le_rfl⟩

/-- Only its own steps move the cancel thread. -/
theorem cancelThread_step {s t : Manager} {a : Action} (hstep : a ≠ .cancelStep)
    (hs : step s a = some t) : t.cancelThread = s.cancelThread := by
  cases a with
  | post task =>
    cases hs
    obtain ⟨_, _, _, _, _, _, _, _, heq⟩ := Manager.iPostTask_frame s task
    rw [heq]
  | cancel sid =>
    cases hs
    obtain ⟨_, _, _, _, _, heq, -⟩ := Manager.iCancel_frame s sid
    rw [heq]
  | postSetsEvent | cancelSetsEvent =>
    simp only [step] at hs
    split at hs <;> cases hs
    rfl
  | taskStep =>
    obtain ⟨_, _, _, _, _, _, _, rfl⟩ := Manager.taskStep_frame hs
    rfl
  | taskTimeout =>
    obtain ⟨-, rfl⟩ := Manager.taskTimeout_frame hs
    rfl
  | cancelStep => exact absurd rfl hstep
  | tick ms =>
    cases hs
    rfl
  | uninit =>
    obtain ⟨_, _, _, _, _, rfl, -, -⟩ | rfl := Manager.uninitStep_frame hs
    · rfl
    · rfl

end DevFramework.Timer
