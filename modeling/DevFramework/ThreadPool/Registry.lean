import DevFramework.ThreadPool.Strands

/-! # The strand map and the workers (bas/thread_pool.hpp)

`strand_proc_list_` is filled by `post_call` and never emptied; `workers_` is filled by `start` and
cleared by `stop`, which takes no lock and leaves `worker_count_` as it is. The two agree as long as
nothing is posted outside a running pool and a pool that has served a strand is not stopped
(`Orderly`).
-/
namespace DevFramework.ThreadPool
open OrderedMap Transition
set_option autoImplicit false
set_option maxHeartbeats 250000

/-! ## The invariant -/

/-- The workers that `stop` has still to stop. -/
def StopPc.rest : StopPc → List ℕ
  | .idle => []
  | .next rest => rest
  | .join w rest => w :: rest

namespace Pool

/-- A worker of the pool whose thread has been started and not stopped. -/
def Live (s : Pool) (w : ℕ) : Prop :=
  w ∈ s.workers ∧ w < s.made ∧ (s.threads w).alive = true ∧ (s.threads w).pc ≠ .stopped

/-- `i_get_appropriate_worker` finds `worker_count_` workers, and at least one. -/
def Staffed (s : Pool) : Prop := 0 < s.workerCount ∧ s.workerCount ≤ s.workers.length

/-- What the holder of `mtx_` relies on. -/
def Posts (s : Pool) : PostPc → Prop
  | .find fo => s.strandProc.lookup fo.strand = none → s.Staffed
  | .busy fo w | .push fo w | .signal fo w => s.strandProc.lookup fo.strand = some w
  | .choose _ i smallest worker => s.Staffed ∧ (i = 0 → smallest = 18446744073709551615) ∧
      (0 < i → worker.isSome = true) ∧ ∀ w, worker = some w → w ∈ s.workers
  | .unlock fo postOk => postOk = true → ∃ w, s.strandProc.lookup fo.strand = some w

end Pool

structure Registered (s : Pool) : Prop where
  entries : ∀ strand w, s.strandProc.lookup strand = some w → s.Live w
  stopping : s.stop ≠ .idle → s.strandProc = ∅ ∧ s.holder = none
  workers : s.stop = .idle → ∀ w ∈ s.workers, s.Live w
  below : ∀ w ∈ s.workers ++ s.stop.rest, w < s.made
  unmade : ∀ w, s.made ≤ w → (s.threads w).alive = true ∧ (s.threads w).pc ≠ .stopped
  holder : ∀ p, s.holder = some p → s.Posts p
  returned : ∀ fo, (fo, true) ∈ s.results → ∃ w, s.strandProc.lookup fo.strand = some w

theorem registered_init : Registered init := by
  refine ⟨?_, ?_, ?_, ?_, ?_, ?_, ?_⟩ <;> simp [init, StopPc.rest, InnerThread.fresh]

/-- `start`, `stop` and `post_call` in an order that keeps the two containers together: a pool is
stopped only before it has served a strand, and while it is stopped or being stopped, or before it
is started, nothing is posted. -/
def Orderly (s : Pool) : Action → Prop
  | .stop => s.stop = .idle → s.strandProc = ∅ ∧ s.holder = none
  | .lock strand _ => s.stop = .idle ∧ (s.strandProc.lookup strand = none → s.Staffed)
  | _ => True

/-! ## Steps -/

/-- `smallest` starts above every list. -/
theorem getTaskSize_le (tg : Target) (th : InnerThread) :
    th.getTaskSize tg ≤ 18446744073709551615 := by
  unfold InnerThread.getTaskSize toSize
  cases tg <;> simp only [Target.sizeBits] <;> omega

section Steps
variable {s t : Pool}

theorem Pool.Live.mono {w : ℕ} (h : s.Live w) (hworkers : s.workers ⊆ t.workers)
    (hmade : s.made ≤ t.made) (halive : (t.threads w).alive = (s.threads w).alive)
    (hpc : (s.threads w).alive = true → (s.threads w).pc ≠ .stopped →
      (t.threads w).pc ≠ .stopped) : t.Live w := by
  obtain ⟨hmem, hlt, hliving, hgone⟩ := h
  exact ⟨hworkers hmem, hlt.trans_le hmade, halive.trans hliving, hpc hliving hgone⟩

/-- What a step of the holder leaves alone. -/
structure Kept (s t : Pool) : Prop where
  count : t.workerCount = s.workerCount
  made : t.made = s.made
  workers : t.workers = s.workers
  stop : t.stop = s.stop
  alive : ∀ w, (t.threads w).alive = (s.threads w).alive
  pc : ∀ w, (s.threads w).alive = true → (s.threads w).pc ≠ .stopped → (t.threads w).pc ≠ .stopped

theorem Kept.live (h : Kept s t) {w : ℕ} (hw : s.Live w) : t.Live w :=
  hw.mono (h.workers ▸ List.Subset.refl _) h.made.ge (h.alive w) (h.pc w)

theorem Kept.staffed (h : Kept s t) (hs : s.Staffed) : t.Staffed := by
  unfold Pool.Staffed
  rw [h.count, h.workers]
  exact hs

theorem Kept.posts (h : Kept s t) (hmap : t.strandProc = s.strandProc) {p : PostPc}
    (hp : s.Posts p) : t.Posts p := by
  cases p with
  | find fo =>
    intro hnone
    rw [hmap] at hnone
    exact h.staffed (hp hnone)
  | choose fo i smallest worker =>
    obtain ⟨hstaff, hfirst, hlater, hmem⟩ := hp
    exact ⟨h.staffed hstaff, hfirst, hlater, h.workers ▸ hmem⟩
  | busy | push | signal | unlock =>
    unfold Pool.Posts
    rw [hmap]
    exact hp

/-- A step that changes one worker, which does not leave its loop if it is alive. -/
theorem kept_of_update (w : ℕ) (th : InnerThread) (hth : t.threads = Function.update s.threads w th)
    (hcount : t.workerCount = s.workerCount) (hmade : t.made = s.made)
    (hworkers : t.workers = s.workers) (hstop : t.stop = s.stop)
    (halive : th.alive = (s.threads w).alive)
    (hpc : (s.threads w).alive = true → (s.threads w).pc ≠ .stopped → th.pc ≠ .stopped) :
    Kept s t := by
  have hself : t.threads w = th := by rw [hth, Function.update_self]
  have hother : ∀ w', w' ≠ w → t.threads w' = s.threads w' :=
    fun w' hw => by rw [hth, Function.update_of_ne hw]
  refine ⟨hcount, hmade, hworkers, hstop, fun w' => ?_, fun w' => ?_⟩ <;> by_cases hw : w' = w
  · rw [hw, hself]
    exact halive
  · rw [hother w' hw]
  · rw [hw, hself]
    exact hpc
  · rw [hother w' hw]
    exact fun _ hgone => hgone

theorem workStep_kept {w : ℕ} (hs : s.workStep w = some t) :
    Kept s t ∧ t.strandProc = s.strandProc ∧ t.holder = s.holder ∧ t.results = s.results := by
  simp only [Pool.workStep] at hs
  split at hs
  · cases hs
  split at hs <;> rename_i hpc
  · -- top
    cases hs
    refine ⟨kept_of_update w _ rfl rfl rfl rfl rfl rfl fun halive _ => ?_, rfl, rfl, rfl⟩
    simp [halive]
  · -- fetch
    split at hs <;> cases hs
    · exact ⟨kept_of_update w _ rfl rfl rfl rfl rfl rfl fun _ _ => by simp, rfl, rfl, rfl⟩
    · exact ⟨kept_of_update w _ rfl rfl rfl rfl rfl rfl fun _ _ => by simp, rfl, rfl, rfl⟩
  · -- test, nothing popped
    cases hs
    exact ⟨kept_of_update w _ rfl rfl rfl rfl rfl rfl fun _ _ => by simp, rfl, rfl, rfl⟩
  · -- test
    split at hs <;> cases hs
    · exact ⟨kept_of_update w _ rfl rfl rfl rfl rfl rfl fun _ _ => by simp, rfl, rfl, rfl⟩
    · exact ⟨kept_of_update w _ rfl rfl rfl rfl rfl rfl fun _ _ => by simp, rfl, rfl, rfl⟩
  · -- running
    cases hs
    exact ⟨kept_of_update w _ rfl rfl rfl rfl rfl rfl fun _ _ => by simp, rfl, rfl, rfl⟩
  · -- bottom
    cases hs
    refine ⟨kept_of_update w _ rfl rfl rfl rfl rfl rfl fun _ _ => ?_, rfl, rfl, rfl⟩
    split <;> simp
  · -- wait
    split at hs <;> cases hs
    exact ⟨kept_of_update w _ rfl rfl rfl rfl rfl rfl fun _ _ => by simp, rfl, rfl, rfl⟩
  · cases hs

/-- The holder changes no thread's place and no container but the strand map. -/
theorem postStep_kept {tg : Target} (hs : s.postStep tg = some t) : Kept s t := by
  have hsame : ∀ u : Pool, u.threads = s.threads → u.workerCount = s.workerCount →
      u.made = s.made → u.workers = s.workers → u.stop = s.stop → Kept s u := by
    intro u hth hcount hmade hworkers hstop
    refine ⟨hcount, hmade, hworkers, hstop, ?_, ?_⟩ <;> rw [hth] <;> intro w
    · rfl
    · exact fun _ hgone => hgone
  simp only [Pool.postStep] at hs
  split at hs
  · cases hs
  · split at hs <;> cases hs <;> exact hsame _ rfl rfl rfl rfl rfl
  · split at hs <;> cases hs <;> exact hsame _ rfl rfl rfl rfl rfl
  · -- choose
    split at hs
    · split at hs
      · cases hs
      · split at hs <;> cases hs <;> exact hsame _ rfl rfl rfl rfl rfl
    · split at hs <;> cases hs
      exact hsame _ rfl rfl rfl rfl rfl
  · -- push
    cases hs
    exact kept_of_update _ _ rfl rfl rfl rfl rfl rfl fun _ hgone => hgone
  · -- signal
    cases hs
    exact kept_of_update _ _ rfl rfl rfl rfl rfl rfl fun _ hgone => hgone
  · cases hs
    exact hsame _ rfl rfl rfl rfl rfl

/-- A step that keeps the strand map and the results. -/
theorem Registered.frame (h : Registered s) (hkept : Kept s t) (hmap : t.strandProc = s.strandProc)
    (hres : t.results = s.results) (hhold : s.holder = none → t.holder = none)
    (hposts : ∀ p, t.holder = some p → s.Posts p) : Registered t := by
  refine ⟨?_, ?_, ?_, ?_, ?_, ?_, ?_⟩
  · rw [hmap]
    exact fun strand w hw => hkept.live (h.entries strand w hw)
  · rw [hkept.stop, hmap]
    intro hstop
    obtain ⟨hnone, hfree⟩ := h.stopping hstop
    exact ⟨hnone, hhold hfree⟩
  · rw [hkept.stop, hkept.workers]
    exact fun hidle w hw => hkept.live (h.workers hidle w hw)
  · rw [hkept.workers, hkept.stop, hkept.made]
    exact h.below
  · rw [hkept.made]
    intro w hw
    obtain ⟨halive, hgone⟩ := h.unmade w hw
    exact ⟨(hkept.alive w).trans halive, hkept.pc w halive hgone⟩
  · exact fun p hp => hkept.posts hmap (hposts p hp)
  · rw [hres, hmap]
    exact h.returned

/-- The holder keeps the invariant. -/
theorem registered_postStep (h : Registered s) {tg : Target} (hs : s.postStep tg = some t) :
    Registered t := by
  have hkept := postStep_kept hs
  simp only [Pool.postStep] at hs
  split at hs <;> rename_i hpc
  · cases hs
  · -- find
    have hposts := h.holder _ hpc
    split at hs <;> rename_i hlookup <;> cases hs
    · refine h.frame hkept rfl rfl (by simp [hpc]) fun p hp => ?_
      cases hp
      exact hlookup
    · refine h.frame hkept rfl rfl (by simp [hpc]) fun p hp => ?_
      cases hp
      exact ⟨hposts hlookup, fun _ => rfl, fun hlt => absurd hlt (Nat.lt_irrefl 0),
        fun _ hw => by cases hw⟩
  · -- busy
    have hposts := h.holder _ hpc
    split at hs <;> cases hs
    · refine h.frame hkept rfl rfl (by simp [hpc]) fun p hp => ?_
      cases hp
      exact fun hok => by cases hok
    · refine h.frame hkept rfl rfl (by simp [hpc]) fun p hp => ?_
      cases hp
      exact hposts
  · -- choose
    rename_i fo i smallest worker
    obtain ⟨hstaff, hfirst, hlater, hmem⟩ := h.holder _ hpc
    split at hs
    · split at hs
      · cases hs
      rename_i w hw
      split at hs <;> rename_i hsize <;> cases hs
      · refine h.frame hkept rfl rfl (by simp [hpc]) fun p hp => ?_
        cases hp
        refine ⟨hstaff, fun hzero => absurd hzero (Nat.succ_ne_zero i), fun _ => rfl, fun w' hw' => ?_⟩
        cases hw'
        exact List.mem_of_getElem? hw
      · refine h.frame hkept rfl rfl (by simp [hpc]) fun p hp => ?_
        cases hp
        refine ⟨hstaff, fun hzero => absurd hzero (Nat.succ_ne_zero i), fun _ => hlater ?_, hmem⟩
        -- no list is longer than the largest 64-bit value
        apply Nat.pos_of_ne_zero
        intro hzero
        rw [hfirst hzero] at hsize
        exact hsize (getTaskSize_le tg _)
    · split at hs <;> cases hs
      rename_i w
      have hidle : s.stop = .idle := by
        by_contra hstop
        rw [(h.stopping hstop).2] at hpc
        cases hpc
      have hlive : s.Live w := h.workers hidle w (hmem w rfl)
      refine ⟨?_, fun hstop => absurd hidle hstop, h.workers, h.below, h.unmade, ?_, ?_⟩
      · intro strand w' hw'
        by_cases hstrand : strand = fo.strand
        · rw [hstrand, AList.lookup_insert] at hw'
          cases hw'
          exact hkept.live hlive
        · rw [AList.lookup_insert_ne hstrand] at hw'
          exact hkept.live (h.entries strand w' hw')
      · intro p hp
        cases hp
        exact AList.lookup_insert _
      · intro fo' hfo'
        by_cases hstrand : fo'.strand = fo.strand
        · exact ⟨w, by rw [hstrand, AList.lookup_insert]⟩
        · rw [AList.lookup_insert_ne hstrand]
          exact h.returned fo' hfo'
  · -- push
    have hposts := h.holder _ hpc
    cases hs
    refine h.frame hkept rfl rfl (by simp [hpc]) fun p hp => ?_
    cases hp
    exact hposts
  · -- signal
    have hposts := h.holder _ hpc
    cases hs
    refine h.frame hkept rfl rfl (by simp [hpc]) fun p hp => ?_
    cases hp
    exact fun _ => ⟨_, hposts⟩
  · -- unlock
    rename_i fo postOk
    have hposts := h.holder _ hpc
    cases hs
    refine ⟨h.entries, fun hstop => ⟨(h.stopping hstop).1, rfl⟩, h.workers, h.below, h.unmade,
      (fun _ hp => by cases hp), fun fo' hfo' => ?_⟩
    rcases List.mem_append.mp hfo' with hold | hnew
    · exact h.returned fo' hold
    · cases List.mem_singleton.mp hnew
      exact hposts rfl

/-- `start` adds new workers behind the old ones. -/
theorem registered_start (h : Registered s) (hw : ℕ) : Registered (s.start hw) := by
  have hnew : ∀ w ∈ s.workers ++ List.range' s.made (if hw = 0 then defThreadCount else hw),
      w < s.made + (if hw = 0 then defThreadCount else hw) := by
    intro w hmem
    rcases List.mem_append.mp hmem with hold | hnew
    · exact Nat.lt_add_right _ (h.below w (List.mem_append_left _ hold))
    · exact (List.mem_range'_1.mp hnew).2
  have hlive : ∀ w, s.Live w → (s.start hw).Live w := fun w hlive =>
    hlive.mono (List.subset_append_left _ _) (Nat.le_add_right _ _) rfl fun _ hgone => hgone
  have hcount : 0 < if hw = 0 then defThreadCount else hw := by
    split
    · decide
    · omega
  have hstaff : (s.start hw).Staffed := ⟨hcount, by simp [Pool.start]⟩
  refine ⟨fun strand w hlookup => hlive w (h.entries strand w hlookup), h.stopping, ?_, ?_, ?_, ?_,
    h.returned⟩
  · intro hidle w hmem
    rcases List.mem_append.mp hmem with hold | hmade
    · exact hlive w (h.workers hidle w hold)
    · obtain ⟨halive, hgone⟩ := h.unmade w (List.mem_range'_1.mp hmade).1
      exact ⟨hmem, hnew w hmem, halive, hgone⟩
  · intro w hmem
    rcases List.mem_append.mp hmem with hworker | hrest
    · exact hnew w hworker
    · exact Nat.lt_add_right _ (h.below w (List.mem_append_right _ hrest))
  · exact fun w hmade => h.unmade w ((Nat.le_add_right _ _).trans hmade)
  · intro p hp
    have hposts := h.holder p hp
    cases p with
    | find fo => exact fun _ => hstaff
    | choose fo i smallest worker =>
      obtain ⟨-, hfirst, hlater, hmem⟩ := hposts
      exact ⟨hstaff, hfirst, hlater, fun w hworker => List.mem_append_left _ (hmem w hworker)⟩
    | busy | push | signal | unlock => exact hposts

/-- In an orderly run `stop` runs while the strand map is empty and nothing is being posted. -/
theorem registered_stopStep (h : Registered s) (hok : Orderly s .stop) (hs : s.stopStep = some t) :
    Registered t := by
  have hquiet : s.strandProc = ∅ ∧ s.holder = none := by
    by_cases hidle : s.stop = .idle
    · exact hok hidle
    · exact h.stopping hidle
  obtain ⟨hnone, hfree⟩ := hquiet
  have hentries : ∀ strand w, s.strandProc.lookup strand ≠ some w := by
    intro strand w
    rw [hnone, AList.lookup_empty]
    exact nofun
  have hbelow := h.below
  unfold Pool.stopStep at hs
  split at hs <;> rename_i hpc <;> rw [hpc] at hbelow
  · -- idle
    cases hs
    refine ⟨h.entries, fun _ => ⟨hnone, hfree⟩, nofun, fun w hmem => ?_, h.unmade, h.holder,
      h.returned⟩
    rcases List.mem_append.mp hmem with hw | hw <;> exact hbelow w (List.mem_append_left _ hw)
  · -- next, at the end
    cases hs
    exact ⟨fun strand w hw => absurd hw (hentries strand w), fun hstop => absurd rfl hstop, nofun,
      nofun, h.unmade, fun p hp => (nomatch hfree.symm.trans hp), h.returned⟩
  · -- next
    rename_i w rest
    cases hs
    have hlt : w < s.made := hbelow w (List.mem_append_right _ List.mem_cons_self)
    refine ⟨fun strand w hw => absurd hw (hentries strand w), fun _ => ⟨hnone, hfree⟩, nofun,
      hbelow, fun w' hmade => ?_, fun p hp => (nomatch hfree.symm.trans hp), h.returned⟩
    have hne : w' ≠ w := (hlt.trans_le hmade).ne'
    simp only [Pool.setThread, Function.update_of_ne hne]
    exact h.unmade w' hmade
  · -- join
    split at hs <;> cases hs
    refine ⟨h.entries, fun _ => ⟨hnone, hfree⟩, nofun, fun w hmem => hbelow w ?_, h.unmade, h.holder,
      h.returned⟩
    exact List.append_subset.mpr ⟨List.subset_append_left _ _,
      fun _ hw => List.mem_append_right _ (List.mem_cons_of_mem _ hw)⟩ hmem

theorem registered_step (h : Registered s) {tg : Target} {a : Action} (hok : Orderly s a)
    (hs : step tg s a = some t) : Registered t := by
  cases a with
  | start hw =>
    cases hs
    exact registered_start h hw
  | stop => exact registered_stopStep h hok hs
  | lock strand callable =>
    obtain ⟨hidle, hstaff⟩ := hok
    simp only [step, Pool.lock] at hs
    split at hs <;> cases hs
    refine ⟨h.entries, fun hstop => absurd hidle hstop, h.workers, h.below, h.unmade, ?_, h.returned⟩
    intro p hp
    cases hp
    exact hstaff
  | post => exact registered_postStep h hs
  | work w =>
    obtain ⟨hkept, hmap, hhold, hres⟩ := workStep_kept hs
    exact h.frame hkept hmap hres (fun hfree => hhold.trans hfree) fun p hp =>
      h.holder p (hhold.symm.trans hp)

/-- The holder never goes through a null pointer or past the end of `workers_`. -/
theorem Registered.postStep_isSome (h : Registered s) (tg : Target) (hheld : s.holder ≠ none) :
    (s.postStep tg).isSome = true := by
  cases hpc : s.holder with
  | none => exact absurd hpc hheld
  | some p =>
    cases p with
    | choose fo i smallest worker =>
      obtain ⟨⟨hpos, hcount⟩, -, hlater, -⟩ := h.holder _ hpc
      simp only [Pool.postStep, hpc]
      by_cases hi : i < s.workerCount
      · rw [if_pos hi, List.getElem?_eq_getElem (hi.trans_le hcount)]
        simp only
        split <;> rfl
      · rw [if_neg hi]
        obtain ⟨w, rfl⟩ := Option.isSome_iff_exists.mp (hlater (by omega))
        rfl
    | find fo =>
      simp only [Pool.postStep, hpc]
      split <;> rfl
    | busy fo w =>
      simp only [Pool.postStep, hpc]
      split <;> rfl
    | push | signal | unlock =>
      simp only [Pool.postStep, hpc]
      rfl

end Steps

/-! ## Runs -/

/-- In every orderly run each entry of the strand map refers to a worker in `workers_` whose thread
is started and not stopped; `post_call` finds every worker it looks for, puts calls on the lists of
such workers only, and returns true only for a strand that has one. -/
theorem entries_live (tg : Target) (s : Pool) (h : Reach (step tg) Orderly init s) :
    (∀ strand w, s.strandProc.lookup strand = some w → s.Live w) ∧
    (s.holder ≠ none → (s.postStep tg).isSome = true) ∧
    (∀ fo w, s.holder = some (.push fo w) → s.Live w) ∧
    (∀ w, ∀ fo ∈ (s.threads w).foList, s.Live w) ∧
    ∀ fo, (fo, true) ∈ s.results → ∃ w, s.strandProc.lookup fo.strand = some w ∧ s.Live w := by
  have hinv : Registered s :=
    h.invariant registered_init fun _ _ _ hi hok hs => registered_step hi hok hs
  have hserial : Serial s := h.invariant serial_init fun _ _ _ hi _ hs => serial_step hi hs
  refine ⟨hinv.entries, hinv.postStep_isSome tg, fun fo w hpush => ?_, fun w fo hfo => ?_,
    fun fo hfo => ?_⟩
  · exact hinv.entries fo.strand w (hinv.holder _ hpush)
  · exact hinv.entries fo.strand w (hserial.homed w fo (List.mem_append_right _ hfo))
  · obtain ⟨w, hw⟩ := hinv.returned fo hfo
    exact ⟨w, hw, hinv.entries fo.strand w hw⟩

/-- A pool that is stopped unused, started again, and then posts one call. -/
theorem entries_live_restarted :
    ∃ s, run (step .x64) init ([.start 1, .stop, .stop, .work 0, .stop, .stop, .start 1,
        .lock 7 true] ++ List.replicate 6 .post) = some s ∧
      s.strandProc.lookup 7 = some 1 ∧ s.Live 1 := by
  have hstarted : Reach (step .x64) Orderly init _ := Reach.refl.tail (a := Action.start 1) trivial rfl
  have hstopping := hstarted.tail (a := Action.stop) (fun _ => ⟨rfl, rfl⟩) rfl
  have hjoin := hstopping.tail (a := Action.stop) (fun hidle => nomatch hidle) rfl
  have hgone := hjoin.tail (a := Action.work 0) trivial rfl
  have hlast := hgone.tail (a := Action.stop) (fun hidle => nomatch hidle) rfl
  have hstopped := hlast.tail (a := Action.stop) (fun hidle => nomatch hidle) rfl
  have hagain := hstopped.tail (a := Action.start 1) trivial rfl
  have hlocked := hagain.tail (a := Action.lock 7 true) ⟨rfl, fun _ => ⟨by decide, by decide⟩⟩ rfl
  have hposts : ∀ a ∈ List.replicate 6 Action.post, ∀ u, Orderly u a := by
    intro a ha u
    rw [List.eq_of_mem_replicate ha]
    trivial
  have hposted := hlocked.trans (Reach.of_run_ok hposts rfl)
  exact ⟨_, rfl, rfl, (entries_live .x64 _ hposted).1 7 1 rfl⟩

/-- One strand served, then `stop`, and another call to the same strand. -/
def stoppedInUse : List Action :=
  [.start 1, .lock 7 true] ++ List.replicate 6 .post ++ [.stop, .stop, .work 0, .stop, .stop] ++
    .lock 7 true :: List.replicate 5 .post

theorem post_to_stopped_worker :
    ∃ s, Reachable (step .x64) init s ∧ s.strandProc.lookup 7 = some 0 ∧ 0 ∉ s.workers ∧
      (s.threads 0).pc = .stopped ∧ (⟨1, 7, true⟩, true) ∈ s.results ∧
      ⟨1, 7, true⟩ ∈ (s.threads 0).foList := by
  have hrun : (run (step .x64) init stoppedInUse).map
      (fun s => (s.strandProc.lookup 7, s.workers, s.threads 0, s.results)) =
        some (some 0, [], ⟨[⟨0, 7, true⟩, ⟨1, 7, true⟩], true, false, .stopped⟩,
          [(⟨0, 7, true⟩, true), (⟨1, 7, true⟩, true)]) := by
    decide +kernel
  obtain ⟨s, hs, heq⟩ := Option.map_eq_some_iff.mp hrun
  simp only [Prod.mk.injEq] at heq
  obtain ⟨hmap, hworkers, hthread, hresults⟩ := heq
  refine ⟨s, Reach.of_run hs, hmap, ?_, ?_, ?_, ?_⟩
  · rw [hworkers]
    exact List.not_mem_nil
  · rw [hthread]
  · rw [hresults]
    exact List.mem_cons_of_mem _ List.mem_cons_self
  · rw [hthread]
    exact List.mem_cons_of_mem _ List.mem_cons_self

end DevFramework.ThreadPool
