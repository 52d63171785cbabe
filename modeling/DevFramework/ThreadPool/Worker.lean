import DevFramework.ThreadPool.Pool

/-! # One worker and its event (bas/thread_pool.hpp)

`inner_thread_t` on its own: its loop, any number of threads in `post`, and one `stop`. A post is
two steps, the push under `fo_mtx_` and the `set_event` after it; `signalling` counts the posts
between the two. `workStep_work` says that the loop is the one the pool's workers run.

The worker decides to sleep by `list_size`, an `int` that was read when it popped. A list of `2 ^ 32`
calls, or a multiple of that, makes it zero.
-/
namespace DevFramework.ThreadPool
open Transition
set_option autoImplicit false
set_option maxHeartbeats 250000

/-! ## The system -/

/-- The next step of the loop; `none` where the worker waits or is gone. -/
def InnerThread.work (th : InnerThread) : Option InnerThread :=
  match th.pc with
  | .top => some { th with pc := if th.alive then .fetch else .stopped }
  | .fetch =>
    match th.foList with
    | [] => some { th with pc := .test none 0 }
    | fo :: rest =>
      let th := { th with foList := rest }
      some { th with pc := .test (some fo) th.listSize }
  | .test none listSize => some { th with pc := .bottom listSize }
  | .test (some fo) listSize =>
    some { th with pc := if fo.callable then .running fo listSize else .bottom listSize }
  | .running _ listSize => some { th with pc := .bottom listSize }
  | .bottom listSize => some { th with pc := if listSize = 0 then .wait else .top }
  | .wait => if th.evt then some { th with evt := false, pc := .top } else none
  | .stopped => none

/-- Worker `w` of the pool steps exactly when its loop does, and no other worker changes. -/
theorem workStep_work (s : Pool) {w : ℕ} (hw : w < s.made) :
    (s.workStep w).map Pool.threads =
      (s.threads w).work.map fun th => Function.update s.threads w th := by
  unfold Pool.workStep InnerThread.work
  rw [if_neg (Nat.not_le.mpr hw)]
  cases hpc : (s.threads w).pc with
  | fetch => cases hl : (s.threads w).foList <;> simp [hpc, hl, Pool.setThread]
  | test fo listSize =>
    cases fo with
    | none => simp [hpc, Pool.setThread]
    | some fo => cases hc : fo.callable <;> simp [hpc, hc, Pool.setThread]
  | wait => cases he : (s.threads w).evt <;> simp [hpc, he, Pool.setThread]
  | top | running fo listSize | bottom listSize | stopped => simp [hpc, Pool.setThread]

/-- A worker with the posts that are still to signal it, and whether `stop` waits in its join. -/
structure Worker where
  thread : InnerThread
  signalling : ℕ
  joining : Bool

namespace Worker

/-- After the constructor and `start`. -/
def init : Worker := ⟨.fresh, 0, false⟩

inductive Action where
  | push (fo : Call)
  | signal
  | work
  | stop

def step (s : Worker) : Action → Option Worker
  | .push fo => some { s with
      thread := { s.thread with foList := s.thread.foList ++ [fo] }
      signalling := s.signalling + 1 }
  | .signal =>
    if 0 < s.signalling then
      some { s with thread := { s.thread with evt := true }, signalling := s.signalling - 1 }
    else none
  | .work => s.thread.work.map fun th => { s with thread := th }
  | .stop =>
    if s.joining then none
    else some { s with thread := { s.thread with alive := false }, joining := true }

/-- The worker sleeps and nothing has signalled it. -/
def Asleep (s : Worker) : Prop := s.thread.pc = .wait ∧ s.thread.evt = false

end Worker

/-! ## No call is missed -/

/-- The `list_size` of a worker that has read it and not acted on it. -/
def WorkerPc.listSize? : WorkerPc → Option ℤ
  | .test _ n | .running _ n | .bottom n => some n
  | _ => none

/-- How many steps a worker is from the end of its round at most. -/
def WorkerPc.left : WorkerPc → ℕ
  | .fetch => 4
  | .test _ _ => 3
  | .running _ _ => 2
  | .bottom _ => 1
  | _ => 0

namespace Worker

/-- What keeps a call in the list from being missed: a signal, given or to come, or a worker that
looks at the list again before it sleeps. -/
def Noticed (s : Worker) : Prop :=
  s.thread.evt = true ∨ 0 < s.signalling ∨ s.thread.pc = .top ∨ s.thread.pc = .fetch ∨
    s.thread.pc = .stopped ∨ ∃ n, s.thread.pc.listSize? = some n ∧ n ≠ 0

/-- A worker that pops leaves no list whose length is read as zero although it is not empty. -/
def PopFits (s : Worker) (a : Action) : Prop :=
  a = .work → s.thread.pc = .fetch →
    s.thread.foList.tail = [] ∨ { s.thread with foList := s.thread.foList.tail }.listSize ≠ 0

theorem noticed_carrying {s : Worker} {n : ℤ} (h : s.thread.pc.listSize? = some n) :
    s.Noticed ↔ s.thread.evt = true ∨ 0 < s.signalling ∨ n ≠ 0 := by
  cases hpc : s.thread.pc <;> simp_all [Noticed, WorkerPc.listSize?]

theorem noticed_work {s : Worker} {th : InnerThread} (h : s.thread.foList = [] ∨ s.Noticed)
    (hok : s.PopFits .work) (hs : s.thread.work = some th) :
    th.foList = [] ∨ Noticed { s with thread := th } := by
  unfold InnerThread.work at hs
  split at hs <;> rename_i hpc
  · -- top
    cases hs
    cases s.thread.alive <;> simp [Noticed]
  · -- fetch
    have hfits := hok rfl hpc
    split at hs <;> rename_i hl <;> cases hs
    · exact .inl hl
    · rw [hl, List.tail_cons] at hfits
      refine hfits.imp_right fun hsize => ?_
      exact .inr (.inr (.inr (.inr (.inr ⟨_, rfl, hsize⟩))))
  · -- test, nothing popped
    cases hs
    rw [noticed_carrying (congrArg WorkerPc.listSize? hpc)] at h
    exact h.imp_right (noticed_carrying rfl).mpr
  · -- test
    rename_i fo n
    cases hs
    rw [noticed_carrying (congrArg WorkerPc.listSize? hpc)] at h
    refine h.imp_right fun hn => (noticed_carrying ?_).mpr hn
    cases fo.callable <;> rfl
  · -- running
    cases hs
    rw [noticed_carrying (congrArg WorkerPc.listSize? hpc)] at h
    exact h.imp_right (noticed_carrying rfl).mpr
  · -- bottom
    rename_i n
    cases hs
    rw [noticed_carrying (congrArg WorkerPc.listSize? hpc)] at h
    by_cases hn : n = 0
    · refine h.imp_right fun hnoticed => ?_
      have hsignal : s.thread.evt = true ∨ 0 < s.signalling := by simpa [hn] using hnoticed
      exact hsignal.imp_right .inl
    · simp [Noticed, hn]
  · -- wait
    split at hs <;> cases hs
    simp [Noticed]
  · cases hs

theorem noticed_step {s t : Worker} {a : Action} (h : s.thread.foList = [] ∨ s.Noticed)
    (hok : s.PopFits a) (hs : step s a = some t) : t.thread.foList = [] ∨ t.Noticed := by
  cases a with
  | push fo =>
    cases hs
    exact .inr (.inr (.inl (Nat.succ_pos _)))
  | signal =>
    simp only [step] at hs
    split at hs <;> cases hs
    exact .inr (.inl rfl)
  | work =>
    obtain ⟨th, hth, rfl⟩ := Option.map_eq_some_iff.mp hs
    exact noticed_work h hok hth
  | stop =>
    simp only [step] at hs
    split at hs <;> cases hs
    exact h

/-- The worker's loop can go on by itself unless it sleeps or is gone. -/
theorem work_isSome {s : Worker} (hsleep : ¬ s.Asleep) (hpc : s.thread.pc ≠ .stopped) :
    s.thread.work.isSome = true := by
  unfold InnerThread.work
  split <;> rename_i h
  case h_2 => split <;> rfl
  case h_7 => cases he : s.thread.evt <;> simp_all [Asleep]
  case h_8 => exact absurd h hpc
  all_goals rfl

/-- As long as no pop leaves a list whose length is read as zero although it is not empty, a worker
that sleeps unsignalled has nothing to do, or a post is still to signal it. So a worker with calls
that have signalled it goes on by itself. -/
theorem no_lost_wakeup (s : Worker) (h : Reach step PopFits init s) :
    (s.Asleep → s.thread.foList = [] ∨ 0 < s.signalling) ∧
    (s.thread.foList ≠ [] → s.signalling = 0 → s.thread.pc ≠ .stopped →
      s.thread.work.isSome = true) := by
  have hinv : s.thread.foList = [] ∨ s.Noticed :=
    h.invariant (.inl rfl) fun _ _ _ hi hok hs => noticed_step hi hok hs
  have hasleep : s.Asleep → s.thread.foList = [] ∨ 0 < s.signalling := by
    rintro ⟨hpc, hevt⟩
    refine hinv.imp_right fun hnoticed => ?_
    simpa [Noticed, hpc, hevt, WorkerPc.listSize?] using hnoticed
  refine ⟨hasleep, fun hlist hsignal hpc => work_isSome (fun ha => ?_) hpc⟩
  rcases hasleep ha with hnil | hpos
  · exact hlist hnil
  · omega

theorem no_lost_wakeup_two_posts :
    ∃ s, run step init [.push ⟨0, 0, true⟩, .signal, .push ⟨1, 0, true⟩, .signal, .work, .work] =
        some s ∧ s.thread.foList = [⟨1, 0, true⟩] ∧ s.thread.work.isSome = true := by
  have hrun : run step init
      [.push ⟨0, 0, true⟩, .signal, .push ⟨1, 0, true⟩, .signal] = some _ := rfl
  have hposts : Reach step PopFits init _ :=
    Reach.of_run_ok (fun a ha u hwork => by subst hwork; simp at ha) hrun
  have htop := hposts.tail (a := .work) (fun _ hpc => nomatch hpc) rfl
  have hpop := htop.tail (a := .work) (fun _ _ => .inr (by decide)) rfl
  exact ⟨_, rfl, rfl, (no_lost_wakeup _ hpop).2 (List.cons_ne_nil _ _) rfl (nomatch ·)⟩

/-- Posts of `fo`, each with its signal. -/
def posted (s : Worker) (fo : Call) (n : ℕ) : Worker :=
  { s with thread := { s.thread with
      foList := s.thread.foList ++ List.replicate n fo
      evt := s.thread.evt || decide (0 < n) } }

/-- The guard of a run before `stop`. -/
def BeforeStop (_ : Worker) (a : Action) : Prop := a ≠ .stop

theorem posted_reach (s : Worker) (fo : Call) (n : ℕ) :
    Reach step BeforeStop s (s.posted fo n) := by
  induction n with
  | zero => simpa [posted] using Reach.refl
  | succ n ih =>
    have hpush := ih.tail (a := .push fo) (by simp [BeforeStop]) rfl
    refine hpush.tail (a := .signal) (by simp [BeforeStop]) ?_
    simp [step, posted, List.replicate_succ']

/-- The worker after its first look at an empty list. -/
def sleeping : Worker := { init with thread := { InnerThread.fresh with pc := .wait } }

theorem sleeping_reach : Reach step BeforeStop init sleeping := by
  have hrun : run step init (List.replicate 4 .work) = some sleeping := rfl
  apply Reach.of_run_ok _ hrun
  intro a ha u
  rw [List.eq_of_mem_replicate ha]
  simp [BeforeStop]

/-- A signalled worker that runs one call and reads the length of the others as zero goes to sleep. -/
theorem one_call_reach (s : Worker) {fo : Call} {rest : List Call} (hpc : s.thread.pc = .wait)
    (hevt : s.thread.evt = true) (halive : s.thread.alive = true)
    (hlist : s.thread.foList = fo :: rest)
    (hsize : ∀ th : InnerThread, th.foList = rest → th.listSize = 0) :
    Reach step BeforeStop s { s with
      thread := { s.thread with foList := rest, evt := false } } := by
  have hwork : ∀ a ∈ List.replicate (if fo.callable then 6 else 5) Action.work,
      ∀ u, BeforeStop u a := by
    intro a ha u
    rw [List.eq_of_mem_replicate ha]
    simp [BeforeStop]
  apply Reach.of_run_ok hwork
  cases hc : fo.callable <;>
    simp [List.replicate_succ, run, step, InnerThread.work, hpc, hevt, halive, hlist, hsize, hc]

/-- If `n + 1` posts find the worker asleep and the length `n` is read as zero, it runs one call and
sleeps on the others. -/
theorem sleeps_on_calls (fo : Call) {n : ℕ} (hn : Int.bmod n 4294967296 = 0) :
    ∃ s, Reach step BeforeStop init s ∧ s.Asleep ∧ s.signalling = 0 ∧ s.thread.foList.length = n := by
  have hposted := sleeping_reach.trans (posted_reach sleeping fo (n + 1))
  have hlist : (sleeping.posted fo (n + 1)).thread.foList = fo :: List.replicate n fo := rfl
  have hcall := one_call_reach (sleeping.posted fo (n + 1)) rfl (by simp [posted]) rfl hlist
    fun th hth => by
      unfold InnerThread.listSize
      rw [hth, List.length_replicate]
      exact hn
  exact ⟨_, hposted.trans hcall, ⟨rfl, rfl⟩, rfl, List.length_replicate⟩

/-- A run before `stop` in which the worker sleeps unsignalled on `2 ^ 32` calls. -/
theorem calls_unnoticed :
    ∃ s, Reach step BeforeStop init s ∧ s.Asleep ∧
      ¬ (s.thread.foList = [] ∨ 0 < s.signalling) := by
  obtain ⟨s, hs, hasleep, hsignal, hlen⟩ :=
    sleeps_on_calls ⟨0, 0, true⟩ (n := 4294967296) (by decide)
  refine ⟨s, hs, hasleep, ?_⟩
  rintro (hnil | hpos)
  · rw [hnil] at hlen
    exact absurd hlen (by decide)
  · omega

/-! ## Stopping -/

/-- `stop` waits in its join for a worker that sleeps and that nothing is about to wake. -/
def Hangs (s : Worker) : Prop := s.joining = true ∧ s.Asleep ∧ s.signalling = 0

/-- The `list_size` with which the worker comes to the end of this round of its loop. -/
def carried (s : Worker) : Option ℤ :=
  match s.thread.pc with
  | .fetch => some { s.thread with foList := s.thread.foList.tail }.listSize
  | pc => pc.listSize?

theorem listSize_nil {th : InnerThread} (h : th.foList = []) : th.listSize = 0 := by
  unfold InnerThread.listSize
  rw [h]
  decide

/-- What brings the worker back to the test of `alive_`: a signal, given or to come, a place in the
loop, or a `list_size` that is not zero. -/
def Wakes (s : Worker) : Prop :=
  s.thread.evt = true ∨ 0 < s.signalling ∨ s.thread.pc = .top ∨ s.thread.pc = .stopped ∨
    ∃ n, s.carried = some n ∧ n ≠ 0

theorem Hangs.not_wakes {s : Worker} (h : s.Hangs) : ¬ s.Wakes := by
  obtain ⟨-, ⟨hpc, hevt⟩, hsignal⟩ := h
  simp [Wakes, carried, WorkerPc.listSize?, hpc, hevt, hsignal]

theorem wakes_carrying {s : Worker} {n : ℤ} (h : s.carried = some n) :
    s.Wakes ↔ s.thread.evt = true ∨ 0 < s.signalling ∨ n ≠ 0 := by
  have htop : s.thread.pc ≠ .top := fun hpc => by simp [carried, hpc, WorkerPc.listSize?] at h
  have hgone : s.thread.pc ≠ .stopped := fun hpc => by simp [carried, hpc, WorkerPc.listSize?] at h
  simp [Wakes, h, htop, hgone]

/-- One step of a worker within its round. -/
theorem carried_work {s : Worker} {th : InnerThread} {n : ℤ} (h : s.carried = some n)
    (hs : s.thread.work = some th) : th.evt = s.thread.evt ∧
      (carried { s with thread := th } = some n ∨ th.pc = if n = 0 then .wait else .top) := by
  unfold InnerThread.work at hs
  unfold carried at h
  split at hs <;> rename_i hpc <;> rw [hpc] at h <;> simp only [WorkerPc.listSize?] at h
  · cases h
  · -- fetch
    split at hs <;> rename_i hl <;> cases hs
    · refine ⟨rfl, .inl ?_⟩
      rw [← h, listSize_nil (by rw [hl]; rfl)]
      rfl
    · refine ⟨rfl, .inl ?_⟩
      rw [← h, hl]
      rfl
  · cases hs
    exact ⟨rfl, .inl h⟩
  · -- test
    cases hs
    refine ⟨rfl, .inl ?_⟩
    rw [← h]
    rename_i fo n
    cases fo.callable <;> rfl
  · cases hs
    exact ⟨rfl, .inl h⟩
  · -- bottom
    cases hs
    cases h
    exact ⟨rfl, .inr rfl⟩
  · cases h
  · cases h

theorem wakes_work {s : Worker} {th : InnerThread} {n : ℤ} (h : s.carried = some n)
    (hs : s.thread.work = some th) : Wakes { s with thread := th } ↔ s.Wakes := by
  obtain ⟨hevt, hcarried | hpc⟩ := carried_work h hs
  · rw [wakes_carrying h, wakes_carrying hcarried, hevt]
  · rw [wakes_carrying h]
    by_cases hn : n = 0 <;> simp [Wakes, carried, WorkerPc.listSize?, hevt, hpc, hn]

/-- The guard of a run in which `stop` clears `alive_` only where the worker will look at it. -/
def StopWakes (s : Worker) (a : Action) : Prop := a = .stop → s.Wakes

theorem joining_step {s t : Worker} {a : Action}
    (h : s.joining = true → s.thread.alive = false ∧ s.Wakes) (hok : s.StopWakes a)
    (hs : step s a = some t) : t.joining = true → t.thread.alive = false ∧ t.Wakes := by
  cases a with
  | push fo =>
    cases hs
    exact fun hj => ⟨(h hj).1, .inr (.inl (Nat.succ_pos _))⟩
  | signal =>
    simp only [step] at hs
    split at hs <;> cases hs
    exact fun hj => ⟨(h hj).1, .inl rfl⟩
  | work =>
    obtain ⟨th, hth, rfl⟩ := Option.map_eq_some_iff.mp hs
    intro hj
    obtain ⟨halive, hwakes⟩ := h hj
    have hdead : th.alive = false := by
      unfold InnerThread.work at hth
      split at hth
      case h_2 | h_7 => split at hth <;> cases hth <;> exact halive
      all_goals cases hth
      all_goals exact halive
    refine ⟨hdead, ?_⟩
    cases hn : s.carried with
    | some n => exact (wakes_work hn hth).mpr hwakes
    | none =>
      unfold InnerThread.work at hth
      unfold carried at hn
      split at hth <;> rename_i hpc <;> simp only [hpc, WorkerPc.listSize?, reduceCtorEq] at hn
      · -- top
        cases hth
        rw [halive]
        exact .inr (.inr (.inr (.inl rfl)))
      · -- wait
        split at hth <;> cases hth
        exact .inr (.inr (.inl rfl))
      · cases hth
  | stop =>
    have hwakes := hok rfl
    simp only [step] at hs
    split at hs <;> cases hs
    exact fun _ => ⟨rfl, hwakes⟩

/-- If every `stop` clears `alive_` where a signal has been given or is to come, or the worker is at
its loop test, gone, or carries a `list_size` that is not zero, no `stop` ever hangs. -/
theorem stop_never_hangs (s : Worker) (h : Reach step StopWakes init s) : ¬ s.Hangs := by
  have hinv : s.joining = true → s.thread.alive = false ∧ s.Wakes :=
    h.invariant (fun hj => nomatch hj) fun _ _ _ hi hok hs => joining_step hi hok hs
  exact fun hhangs => hhangs.not_wakes (hinv hhangs.1).2

/-- `stop` while the worker is at its loop test. -/
theorem stop_never_hangs_at_top :
    ∃ s, run step init [.stop, .work] = some s ∧ s.thread.pc = .stopped ∧ ¬ s.Hangs := by
  have hstop : Reach step StopWakes init _ :=
    Reach.refl.tail (a := .stop) (fun _ => .inr (.inr (.inl rfl))) rfl
  have hgone := hstop.tail (a := .work) (fun hstop => nomatch hstop) rfl
  exact ⟨_, rfl, rfl, stop_never_hangs _ hgone⟩

theorem left_work {s : Worker} {th : InnerThread} {n : ℤ} (h : s.carried = some n)
    (hs : s.thread.work = some th) : th.pc.left < s.thread.pc.left := by
  unfold InnerThread.work at hs
  unfold carried at h
  split at hs <;> rename_i hpc <;> rw [hpc] at h ⊢ <;> simp only [WorkerPc.listSize?] at h
  · cases h
  · split at hs <;> cases hs <;> simp [WorkerPc.left]
  · cases hs
    simp [WorkerPc.left]
  · rename_i fo n
    cases hs
    cases fo.callable <;> simp [WorkerPc.left]
  · cases hs
    simp [WorkerPc.left]
  · rename_i n
    cases hs
    by_cases hn : n = 0 <;> simp [WorkerPc.left, hn]
  · cases h
  · cases h

/-- Anywhere else `stop` waits for a worker that, left to itself, ends up asleep. -/
theorem hangs_of_not_wakes {s : Worker} (hj : s.joining = true) (hwakes : ¬ s.Wakes) :
    ∃ t, Reach step (fun _ a => a = .work) s t ∧ t.Hangs := by
  induction hk : s.thread.pc.left using Nat.strong_induction_on generalizing s with
  | _ k ih =>
    cases hn : s.carried with
    | some n =>
      have hgone : s.thread.pc ≠ .stopped := fun hpc => hwakes (.inr (.inr (.inr (.inl hpc))))
      have hawake : ¬ s.Asleep := by
        rintro ⟨hpc, -⟩
        simp [carried, hpc, WorkerPc.listSize?] at hn
      obtain ⟨th, hth⟩ := Option.isSome_iff_exists.mp (work_isSome hawake hgone)
      obtain ⟨t, ht, hhangs⟩ := ih _ (hk ▸ left_work hn hth) (s := { s with thread := th }) hj
        (fun hw => hwakes ((wakes_work hn hth).mp hw)) rfl
      have hstep : step s .work = some { s with thread := th } := by
        rw [step, hth]
        rfl
      have hreach : Reach step (fun _ a => a = .work) s { s with thread := th } :=
        Reach.refl.tail rfl hstep
      exact ⟨t, hreach.trans ht, hhangs⟩
    | none =>
      refine ⟨s, .refl, hj, ?_, Nat.eq_zero_of_not_pos fun hpos => hwakes (.inr (.inl hpos))⟩
      cases hpc : s.thread.pc with
      | wait => exact ⟨hpc, Bool.eq_false_iff.mpr fun hevt => hwakes (.inl hevt)⟩
      | top => exact absurd (.inr (.inr (.inl hpc))) hwakes
      | stopped => exact absurd (.inr (.inr (.inr (.inl hpc)))) hwakes
      | fetch | test | running | bottom => simp [carried, hpc, WorkerPc.listSize?] at hn

/-- `stop` on a worker that has looked at its list once, found it empty and gone to sleep. -/
theorem idle_stop_hangs : ∃ s, Reachable step init s ∧ s.Hangs := by
  refine ⟨_, Reach.of_run (show run step init [.work, .work, .work, .work, .stop] = some _ from rfl),
    rfl, ⟨rfl, rfl⟩, rfl⟩

end Worker

end DevFramework.ThreadPool
