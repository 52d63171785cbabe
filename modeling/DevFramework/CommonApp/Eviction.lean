import DevFramework.CommonApp.Callbacks

/-! # The eviction loop of `postCallback`

`while (callbacks_.size() >= queue_size_) callbacks_.pop();` turn by turn. The length of the queue
is the measure: a turn that finds a callback lowers it, and with a bound above zero every turn
does. The bound is what the constructor was given until `startThreadPool` has looked at it.
-/
namespace DevFramework.CommonApp
open Transition
set_option autoImplicit false
set_option maxHeartbeats 250000

/-- One turn of the loop, possible while its condition holds. What a `pop` of the empty queue does
is undefined; here it leaves the queue empty. -/
def evictTurn (queueSize : ℕ) (callbacks : List Callback) (_ : Unit) : Option (List Callback) :=
  if queueSize ≤ callbacks.length then some callbacks.tail else none

def EvictionEnds (queueSize : ℕ) (callbacks : List Callback) : Prop :=
  ∃ n, ∀ turns kept, run (evictTurn queueSize) callbacks turns = some kept → turns.length ≤ n

/-- The loop comes to a turn with the queue empty. -/
def PopsEmpty (queueSize : ℕ) (callbacks : List Callback) : Prop :=
  ∃ turns, run (evictTurn queueSize) callbacks turns = some [] ∧
    (evictTurn queueSize [] ()).isSome = true

section Turns
variable {q : ℕ} {queue rest kept : List Callback}

theorem evictTurn_lowers (hq : q ≠ 0) {u : Unit} (h : evictTurn q queue u = some rest) :
    rest.length < queue.length := by
  unfold evictTurn at h
  split at h
  · obtain rfl := Option.some.inj h
    rw [List.length_tail]
    omega
  · cases h

theorem turns_le (hq : q ≠ 0) {turns : List Unit}
    (h : run (evictTurn q) queue turns = some kept) :
    turns.length + kept.length ≤ queue.length := by
  have hdec : ∀ s a t, True → evictTurn q s a = some t → True ∧ t.length < s.length :=
    fun _ _ _ _ hturn => ⟨trivial, evictTurn_lowers hq hturn⟩
  exact run_length_le hdec trivial h

theorem exists_turns (n : ℕ) (queue : List Callback) :
    run (evictTurn 0) queue (List.replicate n ()) = some (queue.drop n) := by
  induction n generalizing queue with
  | zero => rfl
  | succ n ih =>
    have hturn : evictTurn 0 queue () = some queue.tail := if_pos (Nat.zero_le _)
    rw [List.replicate_succ, run, hturn, Option.bind_some, ih, List.drop_tail]

/-- What `evict` computes in one go is where the loop stops. -/
theorem run_evict {popped : List Callback} (h : evict q queue = some (popped, kept)) :
    run (evictTurn q) queue (List.replicate popped.length ()) = some kept ∧
      evictTurn q kept () = none := by
  obtain ⟨happ, hlen, hold⟩ := evict_spec h
  refine ⟨?_, if_neg (by omega)⟩
  subst happ
  clear h
  induction popped with
  | nil => rfl
  | cons cb popped ih =>
    have hfull := hold 0 (by simp)
    rw [List.drop_zero] at hfull
    have hturn : evictTurn q (cb :: popped ++ kept) () = some (popped ++ kept) := if_pos hfull
    rw [List.length_cons, List.replicate_succ, run, hturn, Option.bind_some]
    exact ih fun i hi => hold (i + 1) (by simpa using hi)

theorem evictionEnds_iff : EvictionEnds q queue ↔ q ≠ 0 := by
  constructor
  · rintro ⟨n, hn⟩ rfl
    have hle := hn _ _ (exists_turns (n + 1) queue)
    rw [List.length_replicate] at hle
    omega
  · intro hq
    refine ⟨queue.length, fun turns kept h => ?_⟩
    have hle := turns_le hq h
    omega

theorem popsEmpty_iff : PopsEmpty q queue ↔ q = 0 := by
  constructor
  · rintro ⟨turns, -, hturn⟩
    by_contra hq
    rw [evictTurn, if_neg (by simpa using hq)] at hturn
    cases hturn
  · rintro rfl
    refine ⟨List.replicate queue.length (), ?_, rfl⟩
    rw [exists_turns, List.drop_length]

theorem evict_eq_none_iff : evict q queue = none ↔ PopsEmpty q queue := by
  rw [popsEmpty_iff]
  constructor
  · intro hnone
    by_contra hq
    obtain ⟨popped, kept, hsome⟩ := evict_some (Nat.pos_of_ne_zero hq) queue
    rw [hnone] at hsome
    cases hsome
  · rintro rfl
    induction queue with
    | nil => rfl
    | cons cb rest ih => rw [evict, if_pos (Nat.zero_le _), ih, Option.map_none]

end Turns

namespace ThreadPool
variable {s t : ThreadPool} {queueSize : ℕ}

theorem startThreadPool_running (s : ThreadPool) : s.startThreadPool.running = true := by
  unfold startThreadPool
  split
  · assumption
  · rfl

theorem step_started {a : Action} (h : Sized queueSize s) (hs : s.step a = some t) :
    t.threads ≠ [] ↔ s.threads ≠ [] ∨ a = .startThreadPool := by
  obtain ⟨rfl, ho, rfl⟩ | ⟨hne, hst⟩ := step_control hs
  · have hthreads : s.startThreadPool.threads ≠ [] := by
      obtain ⟨-, hr, -⟩ | ⟨hthreads, -, -⟩ := h.start ho
      · rw [startThreadPool_running] at hr
        cases hr
      · exact hthreads
    exact iff_of_true hthreads (.inr rfl)
  · rw [ne_eq, hst.threads]
    exact ⟨.inl, fun hor => hor.resolve_right hne⟩

theorem run_started {as : List Action} (h : Sized queueSize s) (hs : run step s as = some t) :
    Sized queueSize t ∧ (t.threads ≠ [] ↔ s.threads ≠ [] ∨ Action.startThreadPool ∈ as) := by
  induction as generalizing s with
  | nil =>
    obtain rfl : s = t := Option.some.inj hs
    exact ⟨h, by simp⟩
  | cons a as ih =>
    obtain ⟨u, hu, hr⟩ := Option.bind_eq_some_iff.mp hs
    obtain ⟨hsized, hiff⟩ := ih (h.step hu) hr
    refine ⟨hsized, ?_⟩
    rw [hiff, step_started h hu, List.mem_cons, eq_comm, or_assoc]

/-- The bound that a post finds is zero only if the constructor was given zero and the pool has
never been started. -/
theorem Sized.queueSize_ne_zero_iff (h : Sized queueSize s) :
    s.queueSize ≠ 0 ↔ queueSize ≠ 0 ∨ s.threads ≠ [] := by
  obtain ⟨hempty, -, hq⟩ | ⟨hne, hq, -⟩ := h
  · simp [hempty, hq]
  · have hpos := boundOf_pos queueSize
    rw [hq]
    exact ⟨fun _ => .inr hne, fun _ => by omega⟩

/-- The pool after any steps in any order, the posts and the start among them: the eviction loop of
a post made then ends, and never pops an empty queue, exactly if the constructor was given a bound
other than zero or the pool has been started. -/
theorem eviction_ends_iff (threadCount queueSize : ℕ) {as : List Action} {s : ThreadPool}
    (h : run step (constructed threadCount queueSize) as = some s) :
    (EvictionEnds s.queueSize s.callbacks ∧ ¬ PopsEmpty s.queueSize s.callbacks) ↔
      (queueSize ≠ 0 ∨ Action.startThreadPool ∈ as) := by
  have hinit : Sized queueSize (constructed threadCount queueSize) := .inl ⟨rfl, rfl, rfl⟩
  obtain ⟨hsized, hstarted⟩ := run_started hinit h
  have hbegin : (constructed threadCount queueSize).threads = [] := rfl
  rw [evictionEnds_iff, popsEmpty_iff, and_self, hsized.queueSize_ne_zero_iff, hstarted, hbegin]
  simp

theorem eviction_ends_started : EvictionEnds 512 [] ∧ ¬ PopsEmpty 512 [] := by
  have hrun : run step (constructed 4 0) [.startThreadPool] =
      some (constructed 4 0).startThreadPool := rfl
  exact (eviction_ends_iff 4 0 hrun).mpr (.inr (by decide))

/-- A pool of four threads with a bound of zero, and a post before the start. -/
theorem eviction_endless :
    run step (constructed 4 0) [] = some (constructed 4 0) ∧
      ¬ EvictionEnds (constructed 4 0).queueSize (constructed 4 0).callbacks ∧
      PopsEmpty (constructed 4 0).queueSize (constructed 4 0).callbacks :=
  ⟨rfl, fun h => evictionEnds_iff.mp h rfl, popsEmpty_iff.mpr rfl⟩

end ThreadPool

end DevFramework.CommonApp
