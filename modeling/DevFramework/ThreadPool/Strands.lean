import DevFramework.ThreadPool.Pool

/-! # A strand is served in order

Nothing in `strand_t` keeps the calls of a strand apart. They stay in order because the first call
of a strand ties it to a worker for good, the worker's list is a queue, and the worker runs one
call at a time.
-/
namespace DevFramework.ThreadPool
open OrderedMap Transition
set_option autoImplicit false
set_option maxHeartbeats 250000

/-! ## What belongs to a strand -/

/-- The calls of a strand. -/
def callsOn (strand : ℕ) (l : List Call) : List Call := l.filter fun fo => fo.strand = strand

/-- The events of a strand. -/
def eventsOn (strand : ℕ) (l : List Event) : List Event := l.filter fun e => e.call.strand = strand

/-- The call that a worker has taken from its list and not finished. -/
def WorkerPc.hand : WorkerPc → List Call
  | .test (some fo) _ | .running fo _ => [fo]
  | _ => []

/-- The event of the call that a worker has begun and not ended. -/
def WorkerPc.begun : WorkerPc → List Event
  | .running fo _ => [.began fo]
  | _ => []

/-- The worker that serves a strand; a strand that never posted has none. -/
def Pool.server (s : Pool) (strand : ℕ) : InnerThread :=
  match s.strandProc.lookup strand with
  | none => .fresh
  | some w => s.threads w

/-- The call that an event finishes. -/
def Event.finished? : Event → Option Call
  | .began _ => none
  | .ended fo | .skipped fo => some fo

/-- The finished calls, in order. -/
def Pool.finished (s : Pool) : List Call := s.trace.filterMap Event.finished?

/-- All that a worker does to a call. -/
def Call.complete (fo : Call) : List Event :=
  if fo.callable then [.began fo, .ended fo] else [.skipped fo]

section Filters
variable (strand : ℕ)

@[simp] theorem callsOn_nil : callsOn strand [] = [] := rfl
@[simp] theorem eventsOn_nil : eventsOn strand [] = [] := rfl

@[simp] theorem callsOn_append (l l' : List Call) :
    callsOn strand (l ++ l') = callsOn strand l ++ callsOn strand l' := List.filter_append _ _

@[simp] theorem eventsOn_append (l l' : List Event) :
    eventsOn strand (l ++ l') = eventsOn strand l ++ eventsOn strand l' := List.filter_append _ _

end Filters

theorem callsOn_eq_nil {strand : ℕ} {l : List Call} (h : ∀ fo ∈ l, fo.strand ≠ strand) :
    callsOn strand l = [] := by
  rw [callsOn, List.filter_eq_nil_iff]
  simpa using h

theorem eventsOn_eq_nil {strand : ℕ} {l : List Event} (h : ∀ e ∈ l, e.call.strand ≠ strand) :
    eventsOn strand l = [] := by
  rw [eventsOn, List.filter_eq_nil_iff]
  simpa using h

theorem finished_elsewhere {strand : ℕ} {l : List Event} (h : ∀ e ∈ l, e.call.strand ≠ strand) :
    callsOn strand (l.filterMap Event.finished?) = [] := by
  refine callsOn_eq_nil fun fo hfo => ?_
  obtain ⟨e, he, hef⟩ := List.mem_filterMap.mp hfo
  cases e <;> cases hef <;> exact h _ he

theorem complete_call {fo : Call} {e : Event} (h : e ∈ fo.complete) : e.call = fo := by
  unfold Call.complete at h
  split at h <;> simp at h
  · rcases h with rfl | rfl <;> rfl
  · rw [h]
    rfl

theorem eventsOn_complete (strand : ℕ) (l : List Call) :
    eventsOn strand (l.flatMap Call.complete) = (callsOn strand l).flatMap Call.complete := by
  induction l with
  | nil => rfl
  | cons fo l ih =>
    rw [List.flatMap_cons, eventsOn_append, ih]
    by_cases h : fo.strand = strand
    · have hall : eventsOn strand fo.complete = fo.complete := by
        rw [eventsOn, List.filter_eq_self]
        intro e he
        simp [complete_call he, h]
      simp [callsOn, h, hall]
    · have hnone : eventsOn strand fo.complete = [] :=
        eventsOn_eq_nil fun e he => by rwa [complete_call he]
      simp [callsOn, h, hnone]

theorem begun_call {pc : WorkerPc} {e : Event} (h : e ∈ pc.begun) : e.call ∈ pc.hand := by
  cases pc <;> simp [WorkerPc.begun] at h
  rw [h]
  simp [WorkerPc.hand, Event.call]

/-! ## The invariant -/

structure Serial (s : Pool) : Prop where
  homed : ∀ w, ∀ fo ∈ (s.threads w).pc.hand ++ (s.threads w).foList,
    s.strandProc.lookup fo.strand = some w
  callable : ∀ w fo listSize, (s.threads w).pc = .running fo listSize → fo.callable = true
  pushing : ∀ fo w, s.holder = some (.push fo w) ∨ s.holder = some (.busy fo w) →
    s.strandProc.lookup fo.strand = some w
  choosing : ∀ fo i smallest worker, s.holder = some (.choose fo i smallest worker) →
    s.strandProc.lookup fo.strand = none
  order : ∀ strand, callsOn strand s.accepted = callsOn strand s.finished ++
    (callsOn strand (s.server strand).pc.hand ++ callsOn strand (s.server strand).foList)
  traced : ∀ strand, eventsOn strand s.trace =
    (callsOn strand s.finished).flatMap Call.complete ++ eventsOn strand (s.server strand).pc.begun

theorem serial_init : Serial init := by
  refine ⟨?_, ?_, ?_, ?_, ?_, ?_⟩ <;>
    simp [init, InnerThread.fresh, WorkerPc.hand, WorkerPc.begun, Pool.finished, Pool.server]

section Steps
variable {s t : Pool}

/-- A step of the holder of `mtx_` that touches no worker, or of anyone who only starts or stops. -/
theorem Serial.frame (h : Serial s) (hth : t.threads = s.threads)
    (hmap : t.strandProc = s.strandProc) (hacc : t.accepted = s.accepted)
    (htrace : t.trace = s.trace)
    (hpush : ∀ fo w, t.holder = some (.push fo w) ∨ t.holder = some (.busy fo w) →
      s.strandProc.lookup fo.strand = some w)
    (hchoose : ∀ fo i smallest worker, t.holder = some (.choose fo i smallest worker) →
      s.strandProc.lookup fo.strand = none) : Serial t := by
  refine ⟨?_, ?_, ?_, ?_, ?_, ?_⟩
  · rw [hth, hmap]
    exact h.homed
  · rw [hth]
    exact h.callable
  · rw [hmap]
    exact hpush
  · rw [hmap]
    exact hchoose
  · simpa only [Pool.finished, Pool.server, hth, hmap, hacc, htrace] using h.order
  · simpa only [Pool.finished, Pool.server, hth, hmap, htrace] using h.traced

/-- A step on one worker: what it does to the calls it has, and the calls `new` it gets, are
accounted for by the events `evs`. -/
theorem Serial.thread (h : Serial s) {w : ℕ} {th : InnerThread} {evs : List Event}
    {new : List Call} (hth : t.threads = Function.update s.threads w th)
    (hmap : t.strandProc = s.strandProc) (hacc : t.accepted = s.accepted ++ new)
    (htrace : t.trace = s.trace ++ evs)
    (hhome : ∀ fo ∈ th.pc.hand ++ th.foList, s.strandProc.lookup fo.strand = some w)
    (hcall : ∀ fo listSize, th.pc = .running fo listSize → fo.callable = true)
    (hnew : ∀ fo ∈ new, s.strandProc.lookup fo.strand = some w)
    (hevs : ∀ e ∈ evs, s.strandProc.lookup e.call.strand = some w)
    (horder : (s.threads w).pc.hand ++ (s.threads w).foList ++ new =
      evs.filterMap Event.finished? ++ (th.pc.hand ++ th.foList))
    (htraced : (s.threads w).pc.begun ++ evs =
      (evs.filterMap Event.finished?).flatMap Call.complete ++ th.pc.begun)
    (hpush : ∀ fo w, t.holder = some (.push fo w) ∨ t.holder = some (.busy fo w) →
      s.strandProc.lookup fo.strand = some w)
    (hchoose : ∀ fo i smallest worker, t.holder = some (.choose fo i smallest worker) →
      s.strandProc.lookup fo.strand = none) : Serial t := by
  have hfin : t.finished = s.finished ++ evs.filterMap Event.finished? := by
    rw [Pool.finished, htrace, List.filterMap_append]
    rfl
  have hserver : ∀ strand, t.server strand =
      if s.strandProc.lookup strand = some w then th else s.server strand := by
    intro strand
    rw [Pool.server, Pool.server, hmap, hth]
    cases hl : s.strandProc.lookup strand with
    | none => rfl
    | some w' =>
      by_cases hw : w' = w
      · subst hw
        simp
      · simp [hw]
  refine ⟨?_, ?_, ?_, ?_, ?_, ?_⟩
  · rw [hth, hmap]
    exact (Function.forall_update_iff s.threads fun w' (th : InnerThread) =>
      ∀ fo ∈ th.pc.hand ++ th.foList, s.strandProc.lookup fo.strand = some w').mpr
        ⟨hhome, fun w' _ => h.homed w'⟩
  · rw [hth]
    exact (Function.forall_update_iff s.threads fun _ (th : InnerThread) =>
      ∀ fo listSize, th.pc = .running fo listSize → fo.callable = true).mpr
        ⟨hcall, fun w' _ => h.callable w'⟩
  · rw [hmap]
    exact hpush
  · rw [hmap]
    exact hchoose
  · intro strand
    rw [hacc, callsOn_append, h.order strand, hfin, callsOn_append, hserver]
    by_cases hl : s.strandProc.lookup strand = some w
    · have hsrv : s.server strand = s.threads w := by rw [Pool.server, hl]
      have := congrArg (callsOn strand) horder
      simp only [callsOn_append] at this
      simp only [if_pos hl, hsrv, List.append_assoc] at this ⊢
      rw [this]
    · have hnil : callsOn strand new = [] :=
        callsOn_eq_nil fun fo hfo heq => hl (heq ▸ hnew fo hfo)
      have haway : ∀ e ∈ evs, e.call.strand ≠ strand := fun e he heq => hl (heq ▸ hevs e he)
      rw [if_neg hl, hnil, finished_elsewhere haway, List.append_nil, List.append_nil]
  · intro strand
    rw [htrace, eventsOn_append, h.traced strand, hfin, callsOn_append, List.flatMap_append,
      hserver]
    by_cases hl : s.strandProc.lookup strand = some w
    · have hsrv : s.server strand = s.threads w := by rw [Pool.server, hl]
      have := congrArg (eventsOn strand) htraced
      rw [eventsOn_append, eventsOn_append, eventsOn_complete] at this
      simp only [if_pos hl, hsrv, List.append_assoc, this]
    · have haway : ∀ e ∈ evs, e.call.strand ≠ strand := fun e he heq => hl (heq ▸ hevs e he)
      rw [if_neg hl, eventsOn_eq_nil haway, finished_elsewhere haway, List.append_nil,
        List.flatMap_nil, List.append_nil]

/-- A step on one worker that takes no call, begins none and finishes none. -/
theorem Serial.quiet (h : Serial s) {w : ℕ} {th : InnerThread}
    (hth : t.threads = Function.update s.threads w th) (hmap : t.strandProc = s.strandProc)
    (hacc : t.accepted = s.accepted) (htrace : t.trace = s.trace)
    (hhand : th.pc.hand = (s.threads w).pc.hand) (hbegun : th.pc.begun = (s.threads w).pc.begun)
    (hfo : th.foList = (s.threads w).foList)
    (hpush : ∀ fo w, t.holder = some (.push fo w) ∨ t.holder = some (.busy fo w) →
      s.strandProc.lookup fo.strand = some w)
    (hchoose : ∀ fo i smallest worker, t.holder = some (.choose fo i smallest worker) →
      s.strandProc.lookup fo.strand = none) : Serial t := by
  have hacc : t.accepted = s.accepted ++ [] := by rw [hacc, List.append_nil]
  have htrace : t.trace = s.trace ++ [] := by rw [htrace, List.append_nil]
  refine h.thread hth hmap hacc htrace ?_ ?_ (by simp) (by simp) ?_ ?_ hpush hchoose
  · rw [hhand, hfo]
    exact h.homed w
  · intro fo listSize hrun
    have hmem : Event.began fo ∈ (s.threads w).pc.begun := by
      rw [← hbegun, hrun]
      exact List.mem_singleton_self _
    cases hpc : (s.threads w).pc <;> rw [hpc] at hmem <;> simp [WorkerPc.begun] at hmem
    rw [hmem]
    exact h.callable w _ _ hpc
  · simp [hhand, hfo]
  · simp [hbegun]

theorem serial_workStep (h : Serial s) {w : ℕ} (hs : s.workStep w = some t) : Serial t := by
  have hhome := h.homed w
  simp only [Pool.workStep] at hs
  split at hs
  · cases hs
  split at hs <;> rename_i hpc
  · -- top
    cases hs
    refine h.quiet rfl rfl rfl rfl ?_ ?_ rfl h.pushing h.choosing <;> rw [hpc] <;> simp only <;>
      split <;> rfl
  · -- fetch
    rw [hpc] at hhome
    split at hs <;> rename_i hfo <;> cases hs
    · exact h.quiet rfl rfl rfl rfl (by rw [hpc]; rfl) (by rw [hpc]; rfl) rfl h.pushing h.choosing
    · rename_i fo rest
      rw [hfo] at hhome
      refine h.thread rfl rfl (List.append_nil _).symm (List.append_nil _).symm hhome (by simp)
        (by simp) (by simp) ?_ (by rw [hpc]; rfl) h.pushing h.choosing
      rw [hpc, hfo]
      simp [WorkerPc.hand]
  · -- test, nothing popped
    cases hs
    exact h.quiet rfl rfl rfl rfl (by rw [hpc]; rfl) (by rw [hpc]; rfl) rfl h.pushing h.choosing
  · -- test
    rename_i fo listSize
    rw [hpc] at hhome
    have hself : s.strandProc.lookup fo.strand = some w := hhome fo (by simp [WorkerPc.hand])
    split at hs <;> rename_i hcallable <;> cases hs
    · refine h.thread rfl rfl (List.append_nil _).symm rfl hhome ?_ (by simp) ?_ ?_ ?_ h.pushing
        h.choosing
      · rintro fo' _ heq
        cases heq
        exact hcallable
      · simpa [Event.call] using hself
      · simp [hpc, WorkerPc.hand, Event.finished?]
      · simp [hpc, WorkerPc.begun, Event.finished?]
    · refine h.thread rfl rfl (List.append_nil _).symm rfl ?_ (by simp) (by simp) ?_ ?_ ?_
        h.pushing h.choosing
      · exact fun fo' hfo' => hhome fo' (List.mem_append_right _ hfo')
      · simpa [Event.call] using hself
      · simp [hpc, WorkerPc.hand, Event.finished?]
      · simp [hpc, WorkerPc.begun, Event.finished?, Call.complete, hcallable]
  · -- running
    rename_i fo listSize
    rw [hpc] at hhome
    have hcallable := h.callable w fo listSize hpc
    cases hs
    refine h.thread rfl rfl (List.append_nil _).symm rfl ?_ (by simp) (by simp) ?_ ?_ ?_ h.pushing
      h.choosing
    · exact fun fo' hfo' => hhome fo' (List.mem_append_right _ hfo')
    · simpa [Event.call] using hhome fo (by simp [WorkerPc.hand])
    · simp [hpc, WorkerPc.hand, Event.finished?]
    · simp [hpc, WorkerPc.begun, Event.finished?, Call.complete, hcallable]
  · -- bottom
    cases hs
    refine h.quiet rfl rfl rfl rfl ?_ ?_ rfl h.pushing h.choosing <;> rw [hpc] <;> simp only <;>
      split <;> rfl
  · -- wait
    split at hs <;> cases hs
    exact h.quiet rfl rfl rfl rfl (by rw [hpc]; rfl) (by rw [hpc]; rfl) rfl h.pushing h.choosing
  · cases hs

/-- The first call of a strand ties it to a worker that has none of its calls. -/
theorem serial_assign (h : Serial s) {fo : Call} {w : ℕ}
    (hnone : s.strandProc.lookup fo.strand = none) :
    Serial { s with strandProc := s.strandProc.insert fo.strand w, holder := some (.push fo w) } := by
  have hkeep : ∀ {strand w'}, s.strandProc.lookup strand = some w' →
      (s.strandProc.insert fo.strand w).lookup strand = some w' := by
    intro strand w' hl
    have hne : strand ≠ fo.strand := by
      rintro rfl
      rw [hnone] at hl
      cases hl
    rwa [AList.lookup_insert_ne hne]
  have hserver : ∀ strand, strand ≠ fo.strand →
      ({ s with strandProc := s.strandProc.insert fo.strand w, holder := some (.push fo w) } :
        Pool).server strand = s.server strand := by
    intro strand hne
    simp only [Pool.server, AList.lookup_insert_ne hne]
  have hfree : ∀ fo' ∈ (s.threads w).pc.hand ++ (s.threads w).foList, fo'.strand ≠ fo.strand := by
    intro fo' hfo' heq
    have := h.homed w fo' hfo'
    rw [heq, hnone] at this
    cases this
  refine ⟨fun w' fo' hfo' => hkeep (h.homed w' fo' hfo'), h.callable, ?_, by simp, ?_, ?_⟩
  · rintro fo' w' (heq | heq) <;> cases heq
    exact AList.lookup_insert _
  · intro strand
    by_cases hne : strand = fo.strand
    · subst hne
      have hold := h.order fo.strand
      rw [show s.server fo.strand = .fresh by rw [Pool.server, hnone]] at hold
      simp only [Pool.server, AList.lookup_insert]
      rw [callsOn_eq_nil fun fo' hfo' => hfree fo' (List.mem_append_left _ hfo'),
        callsOn_eq_nil fun fo' hfo' => hfree fo' (List.mem_append_right _ hfo')]
      exact hold
    · rw [hserver strand hne]
      exact h.order strand
  · intro strand
    by_cases hne : strand = fo.strand
    · subst hne
      have hold := h.traced fo.strand
      rw [show s.server fo.strand = .fresh by rw [Pool.server, hnone]] at hold
      simp only [Pool.server, AList.lookup_insert]
      rw [eventsOn_eq_nil fun e he => hfree _ (List.mem_append_left _ (begun_call he))]
      exact hold
    · rw [hserver strand hne]
      exact h.traced strand

theorem serial_postStep (h : Serial s) {tg : Target} (hs : s.postStep tg = some t) : Serial t := by
  simp only [Pool.postStep] at hs
  split at hs <;> rename_i hpc
  · cases hs
  · -- find
    split at hs <;> rename_i hl <;> cases hs
    · refine h.frame rfl rfl rfl rfl ?_ (by simp)
      rintro fo w (heq | heq) <;> cases heq
      exact hl
    · refine h.frame rfl rfl rfl rfl (by simp) ?_
      intro fo i smallest worker heq
      cases heq
      exact hl
  · -- busy
    split at hs <;> cases hs
    · exact h.frame rfl rfl rfl rfl (by simp) (by simp)
    · refine h.frame rfl rfl rfl rfl ?_ (by simp)
      rintro fo w (heq | heq) <;> cases heq
      exact h.pushing _ _ (.inr hpc)
  · -- choose
    have hnone := h.choosing _ _ _ _ hpc
    split at hs
    · split at hs
      · cases hs
      · split at hs <;> cases hs <;> refine h.frame rfl rfl rfl rfl (by simp) ?_ <;>
          · rintro _ _ _ _ heq
            cases heq
            exact hnone
    · split at hs <;> cases hs
      exact serial_assign h hnone
  · -- push
    rename_i fo w
    have hl := h.pushing fo w (.inl hpc)
    cases hs
    refine h.thread rfl rfl rfl (List.append_nil _).symm ?_ (h.callable w) (by simpa using hl)
      (by simp) (by simp) (by simp) (by simp) (by simp)
    intro fo' hfo'
    rw [← List.append_assoc] at hfo'
    rcases List.mem_append.mp hfo' with hfo' | hfo'
    · exact h.homed w fo' hfo'
    · rw [List.mem_singleton.mp hfo']
      exact hl
  · -- signal
    cases hs
    exact h.quiet rfl rfl rfl rfl rfl rfl rfl (by simp) (by simp)
  · -- unlock
    cases hs
    exact h.frame rfl rfl rfl rfl (by simp) (by simp)

theorem serial_stopStep (h : Serial s) (hs : s.stopStep = some t) : Serial t := by
  unfold Pool.stopStep at hs
  split at hs
  · cases hs
    exact h.frame rfl rfl rfl rfl h.pushing h.choosing
  · cases hs
    exact h.frame rfl rfl rfl rfl h.pushing h.choosing
  · cases hs
    exact h.quiet rfl rfl rfl rfl rfl rfl rfl h.pushing h.choosing
  · split at hs <;> cases hs
    exact h.frame rfl rfl rfl rfl h.pushing h.choosing

theorem serial_step (h : Serial s) {tg : Target} {a : Action} (hs : step tg s a = some t) :
    Serial t := by
  cases a with
  | start hw =>
    cases hs
    exact h.frame rfl rfl rfl rfl h.pushing h.choosing
  | stop => exact serial_stopStep h hs
  | lock strand callable =>
    simp only [step, Pool.lock] at hs
    split at hs <;> cases hs
    exact h.frame rfl rfl rfl rfl (by simp) (by simp)
  | post => exact serial_postStep h hs
  | work w => exact serial_workStep h hs

end Steps

end DevFramework.ThreadPool
