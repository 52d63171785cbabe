import DevFramework.CommonApp.Steps
import Mathlib.Data.List.Nodup

/-! # What becomes of a posted callback

Everything that was posted is what went out at the front of the queue, followed by the queue; what
went out was dequeued or discarded, and what was dequeued is in the hands of a worker or has been
run.
-/
namespace DevFramework.CommonApp
open Transition Places
set_option autoImplicit false
set_option maxHeartbeats 250000

namespace ThreadPool
variable {s t : ThreadPool}

/-! ## The accounts -/

/-- `out` is what went out of the queue, in the order in which it was posted. -/
structure Books (s : ThreadPool) (out : List Callback) : Prop where
  numbered : s.posted.map Callback.id = List.range s.posted.length
  posted : s.posted = out ++ s.callbacks
  dequeued : s.dequeued.Sublist out
  out_perm : (s.dequeued ++ s.discarded).Perm out
  ran : (s.ran ++ s.inHands).Perm s.dequeued
  invoked : s.invoked = s.ran.filter Callback.callable

namespace Books
variable {out : List Callback}

theorem same (h : Books s out) (hst : SameCallbacks s t) : Books t out where
  numbered := by rw [hst.posted]; exact h.numbered
  posted := by rw [hst.posted, hst.callbacks]; exact h.posted
  dequeued := by rw [hst.dequeued]; exact h.dequeued
  out_perm := by rw [hst.dequeued, hst.discarded]; exact h.out_perm
  ran := by
    rw [hst.ran, hst.dequeued]
    exact (hst.inHands.append_left s.ran).trans h.ran
  invoked := by rw [hst.invoked, hst.ran]; exact h.invoked

theorem posts (h : Books s out) {callable : Bool} {popped kept : List Callback}
    (hst : Posts s t callable popped kept) : Books t (out ++ popped) where
  numbered := by
    rw [hst.posted, List.map_append, h.numbered, List.length_append, List.length_singleton,
      List.range_succ]
    rfl
  posted := by
    obtain ⟨hsplit, -⟩ := evict_spec hst.evicts
    rw [hst.posted, hst.callbacks, h.posted, ← hsplit]
    simp only [List.append_assoc]
  dequeued := by
    rw [hst.dequeued]
    exact h.dequeued.trans (List.sublist_append_left out popped)
  out_perm := by
    rw [hst.dequeued, hst.discarded, ← List.append_assoc]
    exact h.out_perm.append_right popped
  ran := by
    rw [hst.ran, hst.dequeued]
    exact (hst.inHands.append_left s.ran).trans h.ran
  invoked := by rw [hst.invoked, hst.ran]; exact h.invoked

theorem dequeues (h : Books s out) {cb : Callback} (hst : Dequeues s t cb) :
    Books t (out ++ [cb]) where
  numbered := by rw [hst.posted]; exact h.numbered
  posted := by
    rw [hst.posted, h.posted, hst.callbacks, List.append_assoc]
    rfl
  dequeued := by
    rw [hst.dequeued]
    exact h.dequeued.append (List.Sublist.refl [cb])
  out_perm := by
    have hswap : (s.dequeued ++ [cb] ++ s.discarded).Perm (s.dequeued ++ s.discarded ++ [cb]) := by
      rw [List.append_assoc, List.append_assoc]
      exact List.perm_append_comm.append_left s.dequeued
    rw [hst.dequeued, hst.discarded]
    exact hswap.trans (h.out_perm.append_right [cb])
  ran := by
    rw [hst.ran, hst.dequeued]
    calc (s.ran ++ t.inHands).Perm (s.ran ++ cb :: s.inHands) := hst.inHands.append_left s.ran
      List.Perm _ (cb :: (s.ran ++ s.inHands)) := List.perm_middle
      List.Perm _ (cb :: s.dequeued) := h.ran.cons cb
      List.Perm _ (s.dequeued ++ [cb]) := (List.perm_append_singleton cb s.dequeued).symm
  invoked := by rw [hst.invoked, hst.ran]; exact h.invoked

theorem runs (h : Books s out) {cb : Callback} (hst : Runs s t cb) : Books t out where
  numbered := by rw [hst.posted]; exact h.numbered
  posted := by rw [hst.posted, hst.callbacks]; exact h.posted
  dequeued := by rw [hst.dequeued]; exact h.dequeued
  out_perm := by rw [hst.dequeued, hst.discarded]; exact h.out_perm
  ran := by
    rw [hst.ran, hst.dequeued, List.append_assoc]
    exact (hst.inHands.symm.append_left s.ran).trans h.ran
  invoked := by
    rw [hst.invoked, hst.ran, h.invoked, List.filter_append]
    simp only [List.filter_cons, List.filter_nil]

theorem step {a : Action} (h : Books s out) (hs : s.step a = some t) : ∃ out', Books t out' := by
  obtain hsame | ⟨_, _, _, _, -, hposts⟩ | ⟨_, hdequeues⟩ | ⟨_, hruns⟩ := step_cases hs
  · exact ⟨_, h.same hsame⟩
  · exact ⟨_, h.posts hposts⟩
  · exact ⟨_, h.dequeues hdequeues⟩
  · exact ⟨_, h.runs hruns⟩

end Books

theorem reach_books {threadCount queueSize : ℕ}
    (h : Reachable step (constructed threadCount queueSize) s) : ∃ out, Books s out := by
  refine h.invariant (P := fun u => ∃ out, Books u out) ?_ ?_
  · exact ⟨[], rfl, rfl, .refl _, .refl _, .refl _, rfl⟩
  · rintro u a v ⟨out, hu⟩ - hs
    exact hu.step hs

/-! ## The bound -/

/-- The `queue_size_` that `startThreadPool` leaves. -/
def boundOf (queueSize : ℕ) : ℕ :=
  if queueSize = 0 ∨ maxQueueSize < queueSize then 512 else queueSize

theorem boundOf_pos (queueSize : ℕ) : 0 < boundOf queueSize := by
  unfold boundOf
  split <;> omega

/-- Before the start the queue has the bound that the pool was constructed with; after it the one
that the start gave it, and a second start does nothing. -/
def Sized (queueSize : ℕ) (s : ThreadPool) : Prop :=
  (s.threads = [] ∧ s.running = false ∧ s.queueSize = queueSize) ∨
    (s.threads ≠ [] ∧ s.queueSize = boundOf queueSize ∧ (s.owner = .using → s.running = true))

section Sized
variable {queueSize : ℕ}

theorem Sized.keep (h : Sized queueSize s) (hst : KeepsControl s t) : Sized queueSize t := by
  obtain ⟨hempty, hrunning, hsize⟩ | ⟨hne, hsize, hrunning⟩ := h
  · exact .inl ⟨hst.threads.mpr hempty, hst.cleared hrunning, hst.queueSize.trans hsize⟩
  · refine .inr ⟨fun hempty => hne (hst.threads.mp hempty), hst.queueSize.trans hsize, fun ho => ?_⟩
    obtain ⟨ho', hr⟩ := hst.running ho
    exact hr.trans (hrunning ho')

theorem Sized.start (h : Sized queueSize s) (ho : s.owner = .using) :
    Sized queueSize s.startThreadPool := by
  obtain ⟨-, hr, hq⟩ | ⟨hne, hq, hr⟩ := h
  · have hpos : 0 < if s.threadCount = 0 ∨ maxThreadCount < s.threadCount then 1
        else s.threadCount := by
      split <;> omega
    refine .inr ⟨?_, ?_, fun _ => ?_⟩
    · simp only [startThreadPool, hr, Bool.false_eq_true, if_false, ne_eq,
        List.append_eq_nil_iff, List.replicate_eq_nil_iff]
      omega
    · simp [startThreadPool, hr, hq, boundOf]
    · simp [startThreadPool, hr]
  · have hsame : s.startThreadPool = s := if_pos (hr ho)
    rw [hsame]
    exact .inr ⟨hne, hq, hr⟩

theorem Sized.step {a : Action} (h : Sized queueSize s) (hs : s.step a = some t) :
    Sized queueSize t := by
  obtain ⟨-, ho, rfl⟩ | ⟨-, hst⟩ := step_control hs
  · exact h.start ho
  · exact h.keep hst

theorem reach_sized {threadCount : ℕ} (h : Reachable step (constructed threadCount queueSize) s) :
    Sized queueSize s :=
  h.invariant (.inl ⟨rfl, rfl, rfl⟩) fun _ _ _ hu _ hs => hu.step hs

end Sized

theorem startThreadPool_queueSize (threadCount queueSize : ℕ) :
    (constructed threadCount queueSize).startThreadPool.queueSize = boundOf queueSize := rfl

/-! ## Every callback -/

theorem Posts.length_le {callable : Bool} {popped kept : List Callback}
    (h : Posts s t callable popped kept) : t.callbacks.length ≤ s.queueSize := by
  obtain ⟨-, hlen, -⟩ := evict_spec h.evicts
  rw [h.callbacks, List.length_append, List.length_singleton]
  omega

theorem Posts.popped_oldest {callable : Bool} {popped kept : List Callback}
    (h : Posts s t callable popped kept) :
    popped = s.callbacks.take popped.length ∧
      ∀ i < popped.length, s.queueSize ≤ (s.callbacks.drop i).length := by
  obtain ⟨hsplit, -, hold⟩ := evict_spec h.evicts
  refine ⟨?_, hold⟩
  rw [← hsplit, List.take_left]

theorem exists_notified (s : ThreadPool) : ∃ target t, notifyOne s target = some t := by
  by_cases hblocked : WorkerPc.blocked ∈ s.threads
  · obtain ⟨i, hi⟩ := List.mem_iff_getElem?.mp hblocked
    exact ⟨some i, _, if_pos hi⟩
  · exact ⟨none, _, if_neg hblocked⟩

theorem postCallback_goes (hsize : 0 < s.queueSize) (hmutex : s.mutex = none) (hgone : ¬ s.isGone)
    (callable : Bool) : ∃ target t, s.postCallback callable target = some t := by
  obtain ⟨popped, kept, hevict⟩ := evict_some hsize s.callbacks
  obtain ⟨target, t, hnotify⟩ := exists_notified { s with
    callbacks := kept ++ [⟨s.posted.length, callable⟩]
    posted := s.posted ++ [⟨s.posted.length, callable⟩]
    discarded := s.discarded ++ popped }
  refine ⟨target, t, ?_⟩
  simp only [postCallback, if_pos (And.intro hmutex hgone), hevict, Option.bind_some]
  exact hnotify

theorem calling_goes {i : ℕ} {cb : Callback} (hi : s.threads[i]? = some (.calling (some cb))) :
    ∃ t, s.worker i = some t ∧ Runs s t cb := by
  unfold worker
  simp only [hi, Option.some.injEq, exists_eq_left']
  split
  · rename_i hcall
    exact ⟨rfl, rfl, rfl, rfl, rfl, by simp [hcall], filterMap_take hi rfl rfl⟩
  · rename_i hcall
    exact ⟨rfl, rfl, rfl, rfl, rfl, by simp [hcall, setThread], filterMap_take hi rfl rfl⟩

/-- In a started pool whose queue is bounded by `q`, with any number of workers: the posted
callbacks are those queued, in the order of the posts, those dequeued, in that order too, and those
discarded, each in one of the three places; each one dequeued has been run once or is in the hands
of a worker that is about to run it, and run means invoked if it holds a function. A post always
goes through when `mutex_` is free and leaves at most `q` callbacks, and nothing else discards any:
the ones it discards were each the oldest of at least `q`. -/
theorem every_callback_accounted {threadCount queueSize : ℕ} {s : ThreadPool}
    (h : Reachable step (constructed threadCount queueSize) s) (hstarted : s.threads ≠ []) :
    let q := (constructed threadCount queueSize).startThreadPool.queueSize
    (s.posted.Nodup ∧ s.callbacks <:+ s.posted ∧
      (s.callbacks ++ (s.dequeued ++ s.discarded)).Perm s.posted ∧
      s.dequeued.Sublist s.posted ∧ (s.ran ++ s.inHands).Perm s.dequeued ∧
      s.invoked = s.ran.filter Callback.callable) ∧
    (∀ i cb, s.threads[i]? = some (.calling (some cb)) →
      ∃ t, s.step (.worker i) = some t ∧ Runs s t cb) ∧
    (s.mutex = none → ¬ s.isGone →
      ∀ callable, ∃ target t, s.step (.postCallback callable target) = some t) ∧
    (∀ callable target t, s.step (.postCallback callable target) = some t →
      t.callbacks.length ≤ q) ∧
    ∀ a t, s.step a = some t → t.discarded = s.discarded ∨
      ∃ callable target k, a = .postCallback callable target ∧
        t.discarded = s.discarded ++ s.callbacks.take k ∧
        ∀ i < k, q ≤ (s.callbacks.drop i).length := by
  obtain ⟨out, hbooks⟩ := reach_books h
  have hsize : s.queueSize = boundOf queueSize := by
    obtain ⟨hempty, -⟩ | ⟨-, hq, -⟩ := reach_sized h
    · exact absurd hempty hstarted
    · exact hq
  have hq : (constructed threadCount queueSize).startThreadPool.queueSize = s.queueSize := by
    rw [hsize, startThreadPool_queueSize]
  have hpos : 0 < s.queueSize := hsize ▸ boundOf_pos queueSize
  intro q
  refine ⟨⟨?_, ?_, ?_, ?_, hbooks.ran, hbooks.invoked⟩, fun i cb => calling_goes, ?_, ?_, ?_⟩
  · apply List.Nodup.of_map Callback.id
    rw [hbooks.numbered]
    exact List.nodup_range
  · exact ⟨out, hbooks.posted.symm⟩
  · rw [hbooks.posted]
    exact List.perm_append_comm.trans (hbooks.out_perm.append_right s.callbacks)
  · rw [hbooks.posted]
    exact hbooks.dequeued.trans (List.sublist_append_left out s.callbacks)
  · exact fun hmutex hgone => postCallback_goes hpos hmutex hgone
  · intro callable target t hs
    obtain ⟨⟨popped, kept, hposts⟩, -⟩ := postCallback_cases hs
    show _ ≤ (constructed threadCount queueSize).startThreadPool.queueSize
    rw [hq]
    exact hposts.length_le
  · intro a t hs
    show _ ∨ ∃ callable target k, _ ∧ _ ∧ ∀ i < k,
      (constructed threadCount queueSize).startThreadPool.queueSize ≤ _
    rw [hq]
    obtain hsame | ⟨callable, target, popped, kept, rfl, hposts⟩ | ⟨_, hdeq⟩ | ⟨_, hruns⟩ :=
      step_cases hs
    · exact .inl hsame.discarded
    · obtain ⟨hpopped, hold⟩ := hposts.popped_oldest
      refine .inr ⟨callable, target, popped.length, rfl, ?_, hold⟩
      rw [← hpopped]
      exact hposts.discarded
    · exact .inl hdeq.discarded
    · exact .inl hruns.discarded

/-- One worker and room for one callback: the second post discards the first callback, and the worker
takes the second and runs it. -/
theorem every_callback_accounted_evicted :
    ∃ s, Reachable step (constructed 1 1) s ∧ s.discarded = [⟨0, true⟩] ∧
      (s.ran ++ s.inHands).Perm [⟨1, true⟩] ∧
      ∀ callable target t, s.step (.postCallback callable target) = some t →
        t.callbacks.length ≤ 1 := by
  have h : Reachable step (constructed 1 1) _ := .of_run (rfl : run step (constructed 1 1)
    [.startThreadPool, .postCallback true none, .postCallback true none, .worker 0, .worker 0,
      .worker 0, .worker 0, .worker 0, .worker 0, .returns 0 true] = some _)
  obtain ⟨⟨-, -, -, -, hran, -⟩, -, -, hbound, -⟩ := every_callback_accounted h nofun
  exact ⟨_, h, rfl, hran, hbound⟩

end ThreadPool

end DevFramework.CommonApp
