import DevFramework.CommonApp.Steps

/-! # The destructor and the sleeping workers

`running_` is cleared and `notify_all` called without `mutex_`, so both can come between a worker's
false predicate and its wait. A worker that is anywhere else at `notify_all` is either woken by it
or will see `running_` false before it can wait.
-/
namespace DevFramework.CommonApp
open Transition
set_option autoImplicit false
set_option maxHeartbeats 250000

namespace ThreadPool
variable {s t : ThreadPool}

/-- The destructor, past `notify_all`, waits in a join while a worker is blocked on `cv_`: one that
was notified would no longer be blocked. -/
def Hangs (s : ThreadPool) : Prop :=
  ∃ k pc, s.owner = .joining k ∧ s.threads[k]? = some pc ∧ pc ≠ .ended ∧
    WorkerPc.blocked ∈ s.threads

/-- `notify_all` comes when no worker is between a false predicate and its wait. -/
def NotifiesAwake (s : ThreadPool) (a : Action) : Prop :=
  a = .notifyAll → WorkerPc.refused ∉ s.threads

/-- Since the destructor began `running_` is false, and since `notify_all` no worker waits or is
about to. -/
structure Awake (s : ThreadPool) : Prop where
  cleared : s.owner ≠ .using → s.running = false
  awake : ∀ k, s.owner = .joining k → WorkerPc.blocked ∉ s.threads ∧ WorkerPc.refused ∉ s.threads

theorem not_mem_set {l : List WorkerPc} {i : ℕ} {pc pc' : WorkerPc} (h : pc ∉ l) (hpc : pc' ≠ pc) :
    pc ∉ l.set i pc' := by
  intro hmem
  obtain hl | heq := List.mem_or_eq_of_mem_set hmem
  · exact h hl
  · exact hpc heq.symm

theorem not_mem_notified {pc : WorkerPc} (l : List WorkerPc) (h : pc ∉ l) (hpc : pc ≠ .locking) :
    pc ∉ l.map notified := by
  intro hmem
  obtain ⟨pc', hl, heq⟩ := List.mem_map.mp hmem
  cases pc' <;> simp only [notified] at heq <;> first | exact hpc heq.symm | exact h (heq ▸ hl)

theorem blocked_not_mem_notified (l : List WorkerPc) : WorkerPc.blocked ∉ l.map notified := by
  intro hmem
  obtain ⟨pc, -, heq⟩ := List.mem_map.mp hmem
  cases pc <;> cases heq

/-- `notify_one` wakes a blocked worker or changes nothing. -/
theorem notifyOne_places {target : Option ℕ} (h : notifyOne s target = some t) :
    t.running = s.running ∧ t.owner = s.owner ∧
      (t.threads = s.threads ∨ ∃ i, s.threads[i]? = some .blocked ∧
        t.threads = s.threads.set i .locking) := by
  cases target with
  | none =>
    simp only [notifyOne] at h
    split at h
    · cases h
    · obtain rfl := Option.some.inj h
      exact ⟨rfl, rfl, .inl rfl⟩
  | some i =>
    simp only [notifyOne] at h
    split at h
    · rename_i hi
      obtain rfl := Option.some.inj h
      exact ⟨rfl, rfl, .inr ⟨i, hi, rfl⟩⟩
    · cases h

namespace Awake

theorem set {i : ℕ} {pc pc' : WorkerPc} (h : Awake s) (hi : s.threads[i]? = some pc)
    (hr : t.running = s.running) (ho : t.owner = s.owner)
    (ht : t.threads = s.threads.set i pc') (hblocked : pc' = .blocked → pc = .refused)
    (hrefused : pc' = .refused → s.running = true) : Awake t where
  cleared := by
    rw [ho, hr]
    exact h.cleared
  awake := by
    intro k hk
    rw [ho] at hk
    obtain ⟨hb, hf⟩ := h.awake k hk
    have hrunning : s.running = false := h.cleared (by simp [hk])
    rw [ht]
    constructor
    · apply not_mem_set hb
      intro heq
      exact hf (hblocked heq ▸ List.mem_of_getElem? hi)
    · apply not_mem_set hf
      intro heq
      simp [hrefused heq] at hrunning

theorem same (h : Awake s) (hr : t.running = s.running) (ho : t.owner = s.owner)
    (ht : t.threads = s.threads) : Awake t where
  cleared := by rw [ho, hr]; exact h.cleared
  awake := by rw [ho, ht]; exact h.awake

theorem step {a : Action} (h : Awake s) (hguard : NotifiesAwake s a) (hs : s.step a = some t) :
    Awake t := by
  cases a with
  | startThreadPool =>
    simp only [ThreadPool.step] at hs
    split at hs
    · rename_i ho
      obtain rfl := Option.some.inj hs
      have ho' : s.startThreadPool.owner = .using := by
        unfold startThreadPool
        split <;> exact ho
      exact ⟨fun hne => absurd ho' hne, fun k hk => by rw [ho'] at hk; cases hk⟩
    · cases hs
  | postCallback callable target =>
    simp only [ThreadPool.step, postCallback] at hs
    split at hs
    · obtain ⟨⟨popped, kept⟩, -, hnotify⟩ := Option.bind_eq_some_iff.mp hs
      obtain ⟨hr, ho, hsame | ⟨i, hi, hset⟩⟩ := notifyOne_places hnotify
      · exact h.same hr ho hsame
      · exact h.set hi hr ho hset (fun heq => by cases heq) fun heq => by cases heq
    · cases hs
  | worker i =>
    obtain ⟨-, hcontrol, pc, pc', hi, hset, hblocked, hrefused⟩ := worker_cases hs
    exact h.set hi hcontrol.running hcontrol.owner hset hblocked hrefused
  | wake i =>
    obtain ⟨hi, rfl⟩ := wake_eq hs
    exact h.set hi rfl rfl rfl (fun heq => by cases heq) fun heq => by cases heq
  | returns i throws =>
    obtain ⟨hi, rfl⟩ := returns_eq throws hs
    exact h.set hi rfl rfl rfl (fun heq => by cases heq) fun heq => by cases heq
  | clearRunning =>
    simp only [ThreadPool.step] at hs
    split at hs
    · obtain rfl := Option.some.inj hs
      exact ⟨fun _ => rfl, fun _ hk => by cases hk⟩
    · cases hs
  | notifyAll =>
    simp only [ThreadPool.step] at hs
    split at hs
    · rename_i ho
      obtain rfl := Option.some.inj hs
      refine ⟨fun _ => h.cleared (by simp [ho]), fun _ _ => ⟨blocked_not_mem_notified _, ?_⟩⟩
      exact not_mem_notified _ (hguard rfl) fun heq => by cases heq
    · cases hs
  | join =>
    simp only [ThreadPool.step] at hs
    split at hs
    · rename_i k ho
      split at hs
      · obtain rfl := Option.some.inj hs
        exact ⟨fun _ => h.cleared (by simp [ho]), fun _ _ => h.awake k ho⟩
      · cases hs
    · cases hs

end Awake

/-- Joining comes to a worker that has not ended, no later than the blocked one. -/
theorem joins_to_blocked {i d k : ℕ} (hd : k + d = i) (hk : s.owner = .joining k)
    (hi : s.threads[i]? = some .blocked) : ∃ u, Reachable step s u ∧ u.Hangs := by
  induction d generalizing s k with
  | zero =>
    obtain rfl : k = i := by omega
    exact ⟨s, .refl, k, .blocked, hk, hi, nofun, List.mem_of_getElem? hi⟩
  | succ d ih =>
    obtain ⟨hlt, -⟩ := List.getElem?_eq_some_iff.mp hi
    obtain ⟨pc, hpc⟩ : ∃ pc, s.threads[k]? = some pc :=
      ⟨_, List.getElem?_eq_getElem (by omega)⟩
    by_cases hended : pc = .ended
    · have hjoin : s.step .join = some { s with owner := .joining (k + 1) } := by
        simp only [ThreadPool.step, hk, hpc, hended, if_true]
      obtain ⟨u, hu, hhangs⟩ := ih (s := { s with owner := .joining (k + 1) }) (by omega) rfl hi
      exact ⟨u, (Reach.refl.tail trivial hjoin).trans hu, hhangs⟩
    · exact ⟨s, .refl, k, pc, hk, hpc, hended, List.mem_of_getElem? hi⟩

/-- A worker is about to wait when `notify_all` passes it by. -/
theorem notifyAll_hangs (hs : s.step .notifyAll = some t) (hrefused : WorkerPc.refused ∈ s.threads) :
    ∃ u, Reachable step t u ∧ u.Hangs := by
  simp only [ThreadPool.step] at hs
  split at hs
  · obtain rfl := Option.some.inj hs
    obtain ⟨i, hi⟩ := List.mem_iff_getElem?.mp hrefused
    have hi' : (s.threads.map notified)[i]? = some .refused := by
      rw [List.getElem?_map, hi]
      rfl
    obtain ⟨hlt, -⟩ := List.getElem?_eq_some_iff.mp hi'
    let t : ThreadPool := { s with threads := s.threads.map notified, owner := .joining 0 }
    let u : ThreadPool := { t.setThread i .blocked with mutex := none }
    have hwait : t.step (.worker i) = some u := by
      simp only [ThreadPool.step, worker, t, hi', u]
    obtain ⟨v, hv, hhangs⟩ := joins_to_blocked (s := u) (Nat.zero_add i) rfl
      (List.getElem?_set_self hlt)
    exact ⟨v, (Reach.refl.tail trivial hwait).trans hv, hhangs⟩
  · cases hs

/-- As long as no worker is between a false predicate and its wait when the destructor calls
`notify_all`, the destructor never waits for a worker that nobody will wake; at any other
`notify_all` it comes to that. -/
theorem shutdown_wakes_workers {threadCount queueSize : ℕ} {s : ThreadPool}
    (h : Reach step NotifiesAwake (constructed threadCount queueSize) s) :
    ¬ s.Hangs ∧ ∀ a t, s.step a = some t → ¬ NotifiesAwake s a →
      ∃ u, Reachable step t u ∧ u.Hangs := by
  have hawake : Awake s := h.invariant ⟨nofun, nofun⟩ fun _ _ _ hu hok hs => hu.step hok hs
  refine ⟨?_, ?_⟩
  · rintro ⟨k, pc, hk, -, -, hblocked⟩
    exact (hawake.awake k hk).1 hblocked
  · intro a t hs hguard
    obtain ⟨rfl, hrefused⟩ := Classical.not_imp.mp hguard
    exact notifyAll_hangs hs (not_not.mp hrefused)

/-- One worker, asleep when the destructor comes: it is woken and can be joined. -/
theorem shutdown_wakes_workers_asleep :
    ∃ s, Reach step NotifiesAwake (constructed 1 512) s ∧ s.owner = .joining 0 ∧
      s.threads = [.locking] ∧ ¬ s.Hangs := by
  have h0 : Reach step NotifiesAwake (constructed 1 512) (constructed 1 512) := .refl
  have h1 := (h0.tail (a := Action.startThreadPool) nofun rfl).tail (a := Action.worker 0) nofun rfl
  have h2 := (h1.tail (a := Action.worker 0) nofun rfl).tail (a := Action.worker 0) nofun rfl
  have h3 := (h2.tail (a := Action.worker 0) nofun rfl).tail (a := Action.clearRunning) nofun rfl
  have h4 := h3.tail (a := Action.notifyAll) (fun _ => by decide) rfl
  exact ⟨_, h4, rfl, rfl, (shutdown_wakes_workers h4).1⟩

/-- The destructor clears `running_` and notifies between the worker's false predicate and its
wait. -/
theorem notified_before_wait :
    ∃ s, Reachable step (constructed 1 512) s ∧ s.owner = .joining 0 ∧ s.threads = [.blocked] ∧
      s.Hangs := by
  have h : Reachable step (constructed 1 512) _ := .of_run (rfl : run step (constructed 1 512)
    [.startThreadPool, .worker 0, .worker 0, .worker 0, .clearRunning, .notifyAll, .worker 0] =
      some _)
  exact ⟨_, h, rfl, rfl, 0, .blocked, rfl, rfl, nofun, by decide⟩

end ThreadPool

end DevFramework.CommonApp
