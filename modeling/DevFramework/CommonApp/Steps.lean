import DevFramework.CommonApp.Pool
import DevFramework.Foundations.Places

/-! # What the steps of the pool do

Only three steps touch the callbacks: a post, the `pop` of a worker, and its `callback()`. Only the
owner changes `running_` and the bound of the queue.
-/
namespace DevFramework.CommonApp
open Transition Places
set_option autoImplicit false
set_option maxHeartbeats 250000

/-- The callback that a worker has taken and not yet run. -/
def WorkerPc.inHand : WorkerPc → Option Callback
  | .calling callback => callback
  | _ => none

theorem evict_spec {q : ℕ} {queue popped kept : List Callback}
    (h : evict q queue = some (popped, kept)) :
    popped ++ kept = queue ∧ kept.length < q ∧
      ∀ i < popped.length, q ≤ (queue.drop i).length := by
  induction queue generalizing popped kept with
  | nil =>
    unfold evict at h
    split at h
    · cases h
    · obtain ⟨rfl, rfl⟩ := Prod.mk.inj (Option.some.inj h)
      refine ⟨rfl, ?_, fun i hi => absurd hi (Nat.not_lt_zero i)⟩
      simp only [List.length_nil]
      omega
  | cons cb rest ih =>
    unfold evict at h
    split at h
    · rename_i hfull
      obtain ⟨⟨popped', kept'⟩, hrest, heq⟩ := Option.map_eq_some_iff.mp h
      obtain ⟨rfl, rfl⟩ := Prod.mk.inj heq
      obtain ⟨happ, hlen, hold⟩ := ih hrest
      refine ⟨by rw [List.cons_append, happ], hlen, fun i hi => ?_⟩
      cases i with
      | zero => simpa using hfull
      | succ i => exact hold i (by simpa using hi)
    · obtain ⟨rfl, rfl⟩ := Prod.mk.inj (Option.some.inj h)
      refine ⟨rfl, ?_, fun i hi => absurd hi (Nat.not_lt_zero i)⟩
      simp only [List.length_cons]
      omega

/-- With a bound the loop ends before the queue is empty and popped again. -/
theorem evict_some {q : ℕ} (hq : 0 < q) (queue : List Callback) :
    ∃ popped kept, evict q queue = some (popped, kept) := by
  induction queue with
  | nil => exact ⟨[], [], if_neg (by omega)⟩
  | cons cb rest ih =>
    obtain ⟨popped, kept, hrest⟩ := ih
    unfold evict
    split
    · exact ⟨cb :: popped, kept, by rw [hrest]; rfl⟩
    · exact ⟨[], cb :: rest, rfl⟩

namespace ThreadPool
variable {s t : ThreadPool}

def inHands (s : ThreadPool) : List Callback := s.threads.filterMap WorkerPc.inHand

/-! ## What a step does to the callbacks -/

/-- The callbacks are where they were. -/
structure SameCallbacks (s t : ThreadPool) : Prop where
  callbacks : t.callbacks = s.callbacks
  posted : t.posted = s.posted
  dequeued : t.dequeued = s.dequeued
  discarded : t.discarded = s.discarded
  ran : t.ran = s.ran
  invoked : t.invoked = s.invoked
  inHands : t.inHands.Perm s.inHands

/-- A post drops what it pops, then queues the new callback. -/
structure Posts (s t : ThreadPool) (callable : Bool) (popped kept : List Callback) : Prop where
  evicts : evict s.queueSize s.callbacks = some (popped, kept)
  callbacks : t.callbacks = kept ++ [⟨s.posted.length, callable⟩]
  posted : t.posted = s.posted ++ [⟨s.posted.length, callable⟩]
  dequeued : t.dequeued = s.dequeued
  discarded : t.discarded = s.discarded ++ popped
  ran : t.ran = s.ran
  invoked : t.invoked = s.invoked
  inHands : t.inHands.Perm s.inHands

/-- A worker takes the oldest callback into its hands. -/
structure Dequeues (s t : ThreadPool) (cb : Callback) : Prop where
  callbacks : s.callbacks = cb :: t.callbacks
  posted : t.posted = s.posted
  dequeued : t.dequeued = s.dequeued ++ [cb]
  discarded : t.discarded = s.discarded
  ran : t.ran = s.ran
  invoked : t.invoked = s.invoked
  inHands : t.inHands.Perm (cb :: s.inHands)

/-- A worker runs the callback in its hands. -/
structure Runs (s t : ThreadPool) (cb : Callback) : Prop where
  callbacks : t.callbacks = s.callbacks
  posted : t.posted = s.posted
  dequeued : t.dequeued = s.dequeued
  discarded : t.discarded = s.discarded
  ran : t.ran = s.ran ++ [cb]
  invoked : t.invoked = s.invoked ++ if cb.callable then [cb] else []
  inHands : s.inHands.Perm (cb :: t.inHands)

/-- What the owner sets is as it was. -/
structure SameControl (s t : ThreadPool) : Prop where
  running : t.running = s.running
  owner : t.owner = s.owner
  queueSize : t.queueSize = s.queueSize
  length : t.threads.length = s.threads.length

theorem SameCallbacks.refl (s : ThreadPool) : SameCallbacks s s :=
  ⟨rfl, rfl, rfl, rfl, rfl, rfl, .refl _⟩

theorem SameCallbacks.set {i : ℕ} {pc pc' : WorkerPc} (hi : s.threads[i]? = some pc)
    (hpc : pc.inHand = none) (hpc' : pc'.inHand = none) (m : Option ℕ) :
    SameCallbacks s { s.setThread i pc' with mutex := m } :=
  ⟨rfl, rfl, rfl, rfl, rfl, rfl, filterMap_same hi (by rw [hpc, hpc'])⟩

theorem SameControl.set (s : ThreadPool) (i : ℕ) (pc : WorkerPc) (m : Option ℕ) :
    SameControl s { s.setThread i pc with mutex := m } :=
  ⟨rfl, rfl, rfl, List.length_set⟩

theorem inHands_notified (s : ThreadPool) :
    (s.threads.map notified).filterMap WorkerPc.inHand = s.inHands := by
  rw [List.filterMap_map]
  apply List.filterMap_congr
  intro pc _
  cases pc <;> rfl

theorem notifyOne_same {u : ThreadPool} {target : Option ℕ}
    (h : notifyOne s target = some u) :
    SameCallbacks s u ∧ SameControl s u := by
  cases target with
  | none =>
    simp only [notifyOne] at h
    split at h
    · cases h
    · obtain rfl := Option.some.inj h
      exact ⟨.refl s, ⟨rfl, rfl, rfl, rfl⟩⟩
  | some i =>
    simp only [notifyOne] at h
    split at h
    · rename_i hi
      obtain rfl := Option.some.inj h
      exact ⟨.set hi rfl rfl s.mutex, .set s i .locking s.mutex⟩
    · cases h

theorem postCallback_cases {callable : Bool} {target : Option ℕ}
    (h : s.postCallback callable target = some t) :
    (∃ popped kept, Posts s t callable popped kept) ∧ SameControl s t := by
  unfold postCallback at h
  split at h
  · obtain ⟨⟨popped, kept⟩, hevict, hnotify⟩ := Option.bind_eq_some_iff.mp h
    obtain ⟨hsame, hcontrol⟩ := notifyOne_same hnotify
    exact ⟨⟨popped, kept, hevict, hsame.callbacks, hsame.posted, hsame.dequeued,
      hsame.discarded, hsame.ran, hsame.invoked, hsame.inHands⟩,
      ⟨hcontrol.running, hcontrol.owner, hcontrol.queueSize, hcontrol.length⟩⟩
  · cases h

/-- Worker `i` moves. It comes to a wait through a false predicate, and to that only while
`running_`. -/
def Moves (s t : ThreadPool) (i : ℕ) : Prop :=
  ∃ pc pc', s.threads[i]? = some pc ∧ t.threads = s.threads.set i pc' ∧
    (pc' = .blocked → pc = .refused) ∧ (pc' = .refused → s.running = true)

theorem worker_cases {i : ℕ} (h : s.worker i = some t) :
    (SameCallbacks s t ∨ (∃ cb, Dequeues s t cb) ∨ ∃ cb, Runs s t cb) ∧ SameControl s t ∧
      Moves s t i := by
  unfold worker at h
  split at h
  case h_1 hi =>
    obtain rfl := Option.some.inj h
    split
    · exact ⟨.inl (.set hi rfl rfl s.mutex), .set s i _ _, _, _, hi, rfl, nofun, nofun⟩
    · exact ⟨.inl (.set hi rfl rfl s.mutex), .set s i _ _, _, _, hi, rfl, nofun, nofun⟩
  case h_2 hi =>
    split at h
    · obtain rfl := Option.some.inj h
      exact ⟨.inl (.set hi rfl rfl _), .set s i _ _, _, _, hi, rfl, nofun, nofun⟩
    · cases h
  case h_3 hi =>
    obtain rfl := Option.some.inj h
    split
    · exact ⟨.inl (.set hi rfl rfl s.mutex), .set s i _ _, _, _, hi, rfl, nofun, nofun⟩
    · rename_i hpred
      simp only [Bool.or_eq_true, Bool.not_eq_true', not_or, Bool.not_eq_false] at hpred
      exact ⟨.inl (.set hi rfl rfl s.mutex), .set s i _ _, _, _, hi, rfl, nofun, fun _ => hpred.1⟩
  case h_4 hi =>
    obtain rfl := Option.some.inj h
    exact ⟨.inl (.set hi rfl rfl _), .set s i _ _, _, _, hi, rfl, fun _ => rfl, nofun⟩
  case h_5 hi =>
    obtain rfl := Option.some.inj h
    split
    · exact ⟨.inl (.set hi rfl rfl s.mutex), .set s i _ _, _, _, hi, rfl, nofun, nofun⟩
    · exact ⟨.inl (.set hi rfl rfl none), .set s i _ _, _, _, hi, rfl, nofun, nofun⟩
  case h_6 hi =>
    split at h
    · obtain rfl := Option.some.inj h
      exact ⟨.inl (.set hi rfl rfl none), .set s i _ _, _, _, hi, rfl, nofun, nofun⟩
    · rename_i cb rest hqueue
      obtain rfl := Option.some.inj h
      exact ⟨.inr (.inl ⟨cb, hqueue, rfl, rfl, rfl, rfl, rfl, filterMap_put hi rfl rfl⟩),
        ⟨rfl, rfl, rfl, List.length_set⟩, _, _, hi, rfl, nofun, nofun⟩
  case h_7 hi =>
    obtain rfl := Option.some.inj h
    exact ⟨.inl (.set hi rfl rfl s.mutex), .set s i _ _, _, _, hi, rfl, nofun, nofun⟩
  case h_8 cb hi =>
    obtain rfl := Option.some.inj h
    split
    · rename_i hcall
      exact ⟨.inr (.inr ⟨cb, rfl, rfl, rfl, rfl, rfl, by simp [hcall],
        filterMap_take hi rfl rfl⟩), ⟨rfl, rfl, rfl, List.length_set⟩, _, _, hi, rfl, nofun, nofun⟩
    · rename_i hcall
      exact ⟨.inr (.inr ⟨cb, rfl, rfl, rfl, rfl, rfl, by simp [hcall, setThread],
        filterMap_take hi rfl rfl⟩), ⟨rfl, rfl, rfl, List.length_set⟩, _, _, hi, rfl, nofun, nofun⟩
  case h_9 => cases h

theorem wake_eq {i : ℕ} (h : s.wake i = some t) :
    s.threads[i]? = some .blocked ∧ t = s.setThread i .locking := by
  unfold wake at h
  split at h
  · rename_i hi
    exact ⟨hi, (Option.some.inj h).symm⟩
  · cases h

theorem returns_eq {i : ℕ} (throws : Bool) (h : s.returns i throws = some t) :
    s.threads[i]? = some .inCallback ∧ t = s.setThread i .top := by
  unfold returns at h
  split at h
  · rename_i hi
    exact ⟨hi, (Option.some.inj h).symm⟩
  · cases h

theorem startThreadPool_same (s : ThreadPool) : SameCallbacks s s.startThreadPool := by
  unfold startThreadPool
  split
  · exact .refl s
  · have hnew : ∀ n, (List.replicate n WorkerPc.top).filterMap WorkerPc.inHand = [] := by
      intro n
      rw [List.filterMap_eq_nil_iff]
      intro pc hpc
      rw [List.eq_of_mem_replicate hpc]
      rfl
    refine ⟨rfl, rfl, rfl, rfl, rfl, rfl, ?_⟩
    simp only [inHands, List.filterMap_append, hnew, List.append_nil]
    exact .refl _

/-- A step is a post, a `pop`, a `callback()`, or leaves the callbacks where they are. -/
theorem step_cases {a : Action} (h : s.step a = some t) :
    SameCallbacks s t ∨ (∃ callable target popped kept, a = .postCallback callable target ∧
      Posts s t callable popped kept) ∨ (∃ cb, Dequeues s t cb) ∨ ∃ cb, Runs s t cb := by
  cases a with
  | startThreadPool =>
    simp only [step] at h
    split at h
    · obtain rfl := Option.some.inj h
      exact .inl (startThreadPool_same s)
    · cases h
  | postCallback callable target =>
    obtain ⟨⟨popped, kept, hposts⟩, -⟩ := postCallback_cases h
    exact .inr (.inl ⟨callable, target, popped, kept, rfl, hposts⟩)
  | worker i =>
    obtain ⟨hsame | hdequeues | hruns, -⟩ := worker_cases h
    · exact .inl hsame
    · exact .inr (.inr (.inl hdequeues))
    · exact .inr (.inr (.inr hruns))
  | wake i =>
    obtain ⟨hi, rfl⟩ := wake_eq h
    exact .inl (.set hi rfl rfl s.mutex)
  | returns i throws =>
    obtain ⟨hi, rfl⟩ := returns_eq throws h
    exact .inl (.set hi rfl rfl s.mutex)
  | clearRunning =>
    simp only [step] at h
    split at h
    · obtain rfl := Option.some.inj h
      exact .inl ⟨rfl, rfl, rfl, rfl, rfl, rfl, .refl _⟩
    · cases h
  | notifyAll =>
    simp only [step] at h
    split at h
    · obtain rfl := Option.some.inj h
      exact .inl ⟨rfl, rfl, rfl, rfl, rfl, rfl, .of_eq (inHands_notified s)⟩
    · cases h
  | join =>
    simp only [step] at h
    split at h
    · split at h
      · obtain rfl := Option.some.inj h
        exact .inl ⟨rfl, rfl, rfl, rfl, rfl, rfl, .refl _⟩
      · cases h
    · cases h

/-- The bound and the threads are as they were, and `running_` is unless it is cleared. -/
structure KeepsControl (s t : ThreadPool) : Prop where
  queueSize : t.queueSize = s.queueSize
  threads : t.threads = [] ↔ s.threads = []
  cleared : s.running = false → t.running = false
  running : t.owner = .using → s.owner = .using ∧ t.running = s.running

theorem SameControl.keeps (h : SameControl s t) : KeepsControl s t where
  queueSize := h.queueSize
  threads := by rw [← List.length_eq_zero_iff, ← List.length_eq_zero_iff, h.length]
  cleared := fun hr => h.running.trans hr
  running := fun ho => ⟨h.owner ▸ ho, h.running⟩

/-- Only `startThreadPool` sets the bound and makes threads. -/
theorem step_control {a : Action} (h : s.step a = some t) :
    (a = .startThreadPool ∧ s.owner = .using ∧ t = s.startThreadPool) ∨
      (a ≠ .startThreadPool ∧ KeepsControl s t) := by
  cases a with
  | startThreadPool =>
    simp only [step] at h
    split at h
    · rename_i ho
      exact .inl ⟨rfl, ho, (Option.some.inj h).symm⟩
    · cases h
  | postCallback callable target => exact .inr ⟨by simp, (postCallback_cases h).2.keeps⟩
  | worker i => exact .inr ⟨by simp, (worker_cases h).2.1.keeps⟩
  | wake i =>
    obtain ⟨-, rfl⟩ := wake_eq h
    exact .inr ⟨by simp, (SameControl.set s i _ s.mutex).keeps⟩
  | returns i throws =>
    obtain ⟨-, rfl⟩ := returns_eq throws h
    exact .inr ⟨by simp, (SameControl.set s i _ s.mutex).keeps⟩
  | clearRunning =>
    simp only [step] at h
    split at h
    · obtain rfl := Option.some.inj h
      exact .inr ⟨by simp, rfl, Iff.rfl, fun _ => rfl, nofun⟩
    · cases h
  | notifyAll =>
    simp only [step] at h
    split at h
    · obtain rfl := Option.some.inj h
      exact .inr ⟨by simp, rfl, by simp, id, nofun⟩
    · cases h
  | join =>
    simp only [step] at h
    split at h
    · split at h
      · obtain rfl := Option.some.inj h
        exact .inr ⟨by simp, rfl, Iff.rfl, id, nofun⟩
      · cases h
    · cases h

end ThreadPool

end DevFramework.CommonApp
