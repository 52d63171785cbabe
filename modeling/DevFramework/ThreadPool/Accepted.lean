import DevFramework.ThreadPool.Strands

/-! # What `post_call` promises

Calls are numbered as they get the lock, so no two are the same. A call that `post_call` accepts is
pushed once and stays in one place; a call that it refuses is never seen by a worker.
-/
namespace DevFramework.ThreadPool
open OrderedMap Transition
set_option autoImplicit false
set_option maxHeartbeats 250000

/-- The call that the holder of `mtx_` is posting. -/
def PostPc.call : PostPc → Call
  | .find fo | .busy fo _ | .choose fo _ _ _ | .push fo _ | .signal fo _ | .unlock fo _ => fo

/-- The holder has accepted its call and not yet returned. -/
def PostPc.accepting : PostPc → Bool
  | .signal _ _ | .unlock _ true => true
  | _ => false

namespace Pool

/-- The call being posted. -/
def posting (s : Pool) : List Call := (s.holder.map PostPc.call).toList

/-- The calls for which `post_call` returned true. -/
def returnedTrue (s : Pool) : List Call := (s.results.filter Prod.snd).map Prod.fst

/-- The call that is accepted while `post_call` has not returned. -/
def returning (s : Pool) : List Call := ((s.holder.filter PostPc.accepting).map PostPc.call).toList

end Pool

structure Counted (s : Pool) : Prop where
  numbered : (s.results.map Prod.fst ++ s.posting).map Call.id = List.range s.calls
  returned : s.accepted = s.returnedTrue ++ s.returning

theorem counted_init : Counted init := ⟨rfl, rfl⟩

section Steps
variable {s t : Pool}

theorem Counted.frame (h : Counted s) (hcalls : t.calls = s.calls) (hacc : t.accepted = s.accepted)
    (hres : t.results = s.results) (hpost : t.posting = s.posting)
    (hret : t.returning = s.returning) : Counted t := by
  refine ⟨?_, ?_⟩
  · rw [hcalls, hres, hpost]
    exact h.numbered
  · rw [hacc, Pool.returnedTrue, hres, hret]
    exact h.returned

theorem counted_workStep (h : Counted s) {w : ℕ} (hs : s.workStep w = some t) : Counted t := by
  simp only [Pool.workStep] at hs
  split at hs
  · cases hs
  split at hs
  case h_2 | h_4 | h_7 => split at hs <;> cases hs <;> exact h.frame rfl rfl rfl rfl rfl
  all_goals cases hs
  all_goals exact h.frame rfl rfl rfl rfl rfl

theorem counted_postStep (h : Counted s) {tg : Target} (hs : s.postStep tg = some t) :
    Counted t := by
  have hnum := h.numbered
  have hret := h.returned
  simp only [Pool.postStep] at hs
  split at hs <;> rename_i hpc <;> simp only [Pool.posting, Pool.returning, hpc] at hnum hret
  · cases hs
  · -- find
    split at hs <;> cases hs <;> exact ⟨hnum, hret⟩
  · -- busy
    split at hs <;> cases hs <;> exact ⟨hnum, hret⟩
  · -- choose
    split at hs
    · split at hs
      · cases hs
      · split at hs <;> cases hs <;> exact ⟨hnum, hret⟩
    · split at hs <;> cases hs
      exact ⟨hnum, hret⟩
  · -- push
    rename_i fo w
    cases hs
    refine ⟨hnum, ?_⟩
    change s.accepted ++ [fo] = s.returnedTrue ++ [fo]
    rw [hret.trans (List.append_nil _)]
  · -- signal
    cases hs
    exact ⟨hnum, hret⟩
  · -- unlock
    rename_i fo postOk
    cases hs
    refine ⟨by simpa [Pool.posting, PostPc.call] using hnum, ?_⟩
    cases postOk <;>
      simpa [Pool.returning, Pool.returnedTrue, PostPc.accepting, PostPc.call, Option.filter]
        using hret

theorem counted_step (h : Counted s) {tg : Target} {a : Action} (hs : step tg s a = some t) :
    Counted t := by
  cases a with
  | start hw =>
    cases hs
    exact h.frame rfl rfl rfl rfl rfl
  | stop =>
    simp only [step, Pool.stopStep] at hs
    split at hs
    case h_4 => split at hs <;> cases hs; exact h.frame rfl rfl rfl rfl rfl
    all_goals cases hs
    all_goals exact h.frame rfl rfl rfl rfl rfl
  | lock strand callable =>
    simp only [step, Pool.lock] at hs
    split at hs <;> rename_i hpc <;> cases hs
    have hnum := h.numbered
    have hret := h.returned
    simp only [Pool.posting, Pool.returning, hpc] at hnum hret
    refine ⟨?_, hret⟩
    simp only [Option.map_none, Option.toList_none, List.append_nil] at hnum
    simp [Pool.posting, PostPc.call, hnum, List.range_succ]
  | post => exact counted_postStep h hs
  | work w => exact counted_workStep h hs

end Steps

/-! ## Each call once -/

theorem Counted.results_nodup {s : Pool} (h : Counted s) :
    (s.results.map Prod.fst ++ s.posting).Nodup :=
  List.Nodup.of_map Call.id (by rw [h.numbered]; exact List.nodup_range)

/-- Only the call being posted can be accepted without a result. -/
theorem returning_subset (s : Pool) : s.returning.Sublist s.posting := by
  unfold Pool.returning Pool.posting
  cases s.holder with
  | none => exact List.Sublist.refl _
  | some p => cases hp : p.accepting <;> simp [Option.filter, hp]

theorem Counted.nodup {s : Pool} (h : Counted s) : s.accepted.Nodup := by
  rw [h.returned]
  refine h.results_nodup.sublist (List.Sublist.append ?_ (returning_subset s))
  exact List.filter_sublist.map Prod.fst

/-- A call for which `post_call` returned false was not accepted. -/
theorem Counted.refused {s : Pool} (h : Counted s) {fo : Call} (hf : (fo, false) ∈ s.results) :
    fo ∉ s.accepted := by
  have hmem : fo ∈ s.results.map Prod.fst := List.mem_map.mpr ⟨_, hf, rfl⟩
  have hnodup := List.nodup_append.mp h.results_nodup
  rw [h.returned, List.mem_append]
  rintro (htrue | hret)
  · obtain ⟨r, hr, heq⟩ := List.mem_map.mp htrue
    obtain ⟨hr, hok⟩ := List.mem_filter.mp hr
    have hsame : r = (fo, false) := List.inj_on_of_nodup_map hnodup.1 hr hf heq
    rw [hsame] at hok
    cases hok
  · exact hnodup.2.2 fo hmem fo ((returning_subset s).subset hret) rfl

theorem count_callsOn {strand : ℕ} {fo : Call} (h : fo.strand = strand) (l : List Call) :
    (callsOn strand l).count fo = l.count fo :=
  List.count_filter (by simpa using h)

theorem count_began_complete (fo : Call) (l : List Call) :
    (l.flatMap Call.complete).count (.began fo) ≤ l.count fo := by
  induction l with
  | nil => simp
  | cons fo' l ih =>
    have hone : fo'.complete.count (.began fo) ≤ [fo'].count fo := by
      unfold Call.complete
      split <;> simp [List.count_cons]
    rw [List.flatMap_cons, List.count_append, ← List.singleton_append, List.count_append]
    omega

theorem count_begun (fo : Call) (pc : WorkerPc) :
    pc.begun.count (.began fo) ≤ pc.hand.count fo := by
  cases pc <;> simp [WorkerPc.begun, WorkerPc.hand, List.count_cons]

section Once
variable {s : Pool}

/-- An accepted call is queued at its worker, in that worker's hand, or finished. -/
theorem Serial.count_places (h : Serial s) (fo : Call) :
    s.accepted.count fo = s.finished.count fo +
      ((s.server fo.strand).pc.hand.count fo + (s.server fo.strand).foList.count fo) := by
  have := congrArg (List.count fo) (h.order fo.strand)
  simpa only [List.count_append, count_callsOn rfl] using this

/-- A call begins no more often than it was accepted. -/
theorem Serial.count_began (h : Serial s) (fo : Call) :
    s.trace.count (.began fo) ≤ s.accepted.count fo := by
  have htrace : s.trace.count (.began fo) = (eventsOn fo.strand s.trace).count (.began fo) :=
    (List.count_filter (by simp [Event.call])).symm
  have hbegun : (eventsOn fo.strand (s.server fo.strand).pc.begun).count (.began fo) =
      (s.server fo.strand).pc.begun.count (.began fo) :=
    List.count_filter (by simp [Event.call])
  have hfin := count_began_complete fo (callsOn fo.strand s.finished)
  have hhand := count_begun fo (s.server fo.strand).pc
  rw [htrace, h.traced fo.strand, List.count_append, hbegun, h.count_places fo]
  rw [count_callsOn rfl] at hfin
  omega

theorem Serial.seen (h : Serial s) {e : Event} (he : e ∈ s.trace) : e.call ∈ s.accepted := by
  have hon : e ∈ eventsOn e.call.strand s.trace := List.mem_filter.mpr ⟨he, by simp⟩
  have hacc : e.call ∈ callsOn e.call.strand s.accepted := by
    rw [h.order]
    rw [h.traced] at hon
    rcases List.mem_append.mp hon with hon | hon
    · obtain ⟨fo, hfo, hcomplete⟩ := List.mem_flatMap.mp hon
      rw [complete_call hcomplete] at hfo ⊢
      exact List.mem_append_left _ hfo
    · obtain ⟨hbegun, hstrand⟩ := List.mem_filter.mp hon
      refine List.mem_append_right _ (List.mem_append_left _ ?_)
      exact List.mem_filter.mpr ⟨begun_call hbegun, hstrand⟩
  exact (List.mem_filter.mp hacc).1

end Once

/-! ## Runs -/

/-- In every run of the pool, the accepted calls of a strand are finished one after another in the
order in which they were accepted, and the next one at most is begun; refused calls are never seen;
every accepted call is in exactly one of three places. -/
theorem strands_are_serial (tg : Target) (s : Pool) (h : Reachable (step tg) init s) :
    (s.results.map Prod.fst ++ s.posting).map Call.id = List.range s.calls ∧
    s.accepted = s.returnedTrue ++ s.returning ∧
    (∀ strand, callsOn strand s.accepted = callsOn strand s.finished ++
        (callsOn strand (s.server strand).pc.hand ++ callsOn strand (s.server strand).foList) ∧
      eventsOn strand s.trace = (callsOn strand s.finished).flatMap Call.complete ++
        eventsOn strand (s.server strand).pc.begun) ∧
    (∀ fo, s.trace.count (.began fo) ≤ 1) ∧
    (∀ fo, (fo, false) ∈ s.results → ∀ e ∈ s.trace, e.call ≠ fo) ∧
    ∀ fo ∈ s.accepted,
      s.finished.count fo + ((s.server fo.strand).pc.hand.count fo +
        (s.server fo.strand).foList.count fo) = 1 ∧
      ∀ w, fo ∈ (s.threads w).pc.hand ++ (s.threads w).foList →
        s.strandProc.lookup fo.strand = some w := by
  have hserial : Serial s := h.invariant serial_init fun _ _ _ hi _ hs => serial_step hi hs
  have hcounted : Counted s := h.invariant counted_init fun _ _ _ hi _ hs => counted_step hi hs
  refine ⟨hcounted.numbered, hcounted.returned,
    fun strand => ⟨hserial.order strand, hserial.traced strand⟩, fun fo => ?_, ?_, ?_⟩
  · exact (hserial.count_began fo).trans (List.nodup_iff_count_le_one.mp hcounted.nodup fo)
  · rintro fo hf e he rfl
    exact hcounted.refused hf (hserial.seen he)
  · intro fo hfo
    refine ⟨?_, fun w hw => hserial.homed w fo hw⟩
    rw [← hserial.count_places fo]
    exact List.count_eq_one_of_mem hcounted.nodup hfo

/-- One worker, and one call posted to it and begun. -/
def oneCall : List Action :=
  [.start 1, .lock 7 true] ++ List.replicate 6 .post ++ List.replicate 3 (.work 0)

theorem strands_are_serial_one_call :
    ∃ s, run (step .x64) init oneCall = some s ∧ s.trace = [.began ⟨0, 7, true⟩] ∧
      s.finished.count ⟨0, 7, true⟩ + ((s.server 7).pc.hand.count ⟨0, 7, true⟩ +
        (s.server 7).foList.count ⟨0, 7, true⟩) = 1 := by
  refine ⟨_, rfl, rfl, ?_⟩
  have h := strands_are_serial .x64 _
    (Reach.of_run (show run (step .x64) init oneCall = some _ from rfl))
  exact (h.2.2.2.2.2 ⟨0, 7, true⟩ (by decide)).1

end DevFramework.ThreadPool
