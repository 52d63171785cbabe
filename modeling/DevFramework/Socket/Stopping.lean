import DevFramework.Socket.Acceptor

/-! # Stopping an acceptor

`stop` empties `acpt_cb_` before it closes the acceptor, and the handler calls `acpt_cb_` without a
look at it or at `quit_`. A connection that is on its way to `acpt_cb_` then, or accepted before the
`close`, calls an empty function, and costs the pool a thread.
-/
namespace DevFramework.Socket
open Transition
set_option autoImplicit false
set_option maxHeartbeats 250000

/-- No connection is on its way to `acpt_cb_` when `stop` empties it, and none is accepted while it
is empty. -/
def Settled (s : Acceptor) : Action → Prop
  | .stopStep k => s.stops[k]? = some .clearCallback → ∀ a ∈ s.accepts, a.isPending = false
  | .complete _ true => s.callable = true
  | _ => True

/-! ## What the steps keep -/

/-- Of `threads` threads, those that are gone were thrown out; a handler at work has a thread, and a
connection on its way has a function to call. -/
structure Kept (threads : ℕ) (s : Acceptor) : Prop where
  emptied : s.emptied = 0
  threads : s.running + s.thrown = threads
  active : s.active ≤ s.running
  pending : s.callable = false → ∀ a ∈ s.accepts, a.isPending = false

section Kept
variable {threads k : ℕ} {s t : Acceptor} {a a' : Accept}

theorem kept_listening (threads : ℕ) : Kept threads (.listening threads) where
  emptied := rfl
  threads := rfl
  active := Nat.zero_le _
  pending := nofun

theorem active_set (hk : s.accepts[k]? = some a) (a' : Accept) :
    (s.setAccept k a').active + (if a.isActive then 1 else 0) =
      s.active + if a'.isActive then 1 else 0 := by
  obtain ⟨hlt, rfl⟩ := List.getElem?_eq_some_iff.mp hk
  have hpos : s.accepts[k].isActive → 0 < s.accepts.countP Accept.isActive := fun hact =>
    List.countP_pos_iff.mpr ⟨_, List.getElem_mem hlt, hact⟩
  simp only [Acceptor.setAccept, Acceptor.active, List.countP_set hlt]
  split <;> split <;> simp_all

/-- An accept goes on: it is on its way only if it was or there is a function to call, and in a
handler only if it was or there is a thread. -/
theorem Kept.set (h : Kept threads s) (hk : s.accepts[k]? = some a)
    (hpending : a'.isPending → a.isPending ∨ s.callable)
    (hactive : a'.isActive → a.isActive ∨ s.active < s.running) :
    Kept threads (s.setAccept k a') where
  emptied := h.emptied
  threads := h.threads
  active := by
    have hcount := active_set hk a'
    have hle := h.active
    change (s.setAccept k a').active ≤ s.running
    cases ha' : a'.isActive with
    | false =>
      rw [ha', if_neg (c := false = true) (by simp)] at hcount
      split at hcount <;> omega
    | true =>
      rw [ha', if_pos (c := true = true) rfl] at hcount
      obtain ha | hfree := hactive ha'
      · rw [if_pos ha] at hcount
        omega
      · split at hcount <;> omega
  pending := by
    intro hempty b hb
    have hold := h.pending hempty
    obtain hb | rfl := List.mem_or_eq_of_mem_set hb
    · exact hold b hb
    · by_contra hp
      obtain hp | hcall := hpending (by simpa using hp)
      · simp [hold a (List.mem_of_getElem? hk)] at hp
      · simp_all [Acceptor.setAccept]

/-- A handler is left by what `set_option` or the callback throws. -/
theorem Kept.lose (h : Kept threads s) (hk : s.accepts[k]? = some a) (hactive : a.isActive) :
    Kept threads { s.setAccept k .ended with
      running := s.running - 1, thrown := s.thrown + 1 } := by
  have hset : Kept threads (s.setAccept k .ended) := h.set hk nofun nofun
  have hcount := active_set hk .ended
  have hle := h.active
  rw [if_pos hactive] at hcount
  simp only [Accept.isActive, Bool.false_eq_true, if_false] at hcount
  refine ⟨h.emptied, ?_, ?_, hset.pending⟩
  · change s.running - 1 + (s.thrown + 1) = threads
    have := h.threads
    omega
  · change (s.setAccept k .ended).active ≤ s.running - 1
    omega

theorem kept_complete (h : Kept threads s) {accepted : Bool}
    (hok : Settled s (.complete k accepted)) (hs : s.complete k accepted = some t) :
    Kept threads t := by
  unfold Acceptor.complete at hs
  split at hs
  · rename_i acceptor hk
    split at hs
    · rename_i haccepted
      subst haccepted
      split at hs
      · obtain rfl := Option.some.inj hs
        exact h.set hk (fun _ => .inr hok) nofun
      · cases hs
    · obtain rfl := Option.some.inj hs
      exact h.set hk nofun nofun
  · cases hs

theorem kept_dispatch (h : Kept threads s) (hs : s.dispatch k = some t) : Kept threads t := by
  unfold Acceptor.dispatch at hs
  split at hs
  · rename_i accepted hk
    split at hs
    · rename_i hfree
      obtain rfl := Option.some.inj hs
      refine h.set hk (fun hp => .inl ?_) fun _ => .inr hfree
      cases accepted with
      | true => rfl
      | false => cases hp
    · cases hs
  · cases hs

theorem kept_handle (h : Kept threads s) {throws : Bool} (hs : s.handle k throws = some t) :
    Kept threads t := by
  unfold Acceptor.handle at hs
  split at hs
  · rename_i hk
    obtain rfl := Option.some.inj hs
    split
    · exact h.lose hk rfl
    · exact h.set hk (fun _ => .inl rfl) fun _ => .inl rfl
  · rename_i hk
    have hcallable : s.callable = true := by
      by_contra hempty
      have hp := h.pending (by simpa using hempty) _ (List.mem_of_getElem? hk)
      cases hp
    obtain rfl := Option.some.inj hs
    rw [if_pos hcallable]
    exact h.set hk nofun fun _ => .inl rfl
  · rename_i hk
    obtain rfl := Option.some.inj hs
    split
    · exact h.lose hk rfl
    · exact h.set hk nofun fun _ => .inl rfl
  · rename_i hk
    obtain rfl := Option.some.inj hs
    split
    · exact h.set hk nofun nofun
    · exact h.set hk nofun fun _ => .inl rfl
  · rename_i hk
    obtain rfl := Option.some.inj hs
    split
    · exact h.set hk nofun nofun
    · exact h.set hk nofun nofun
  · cases hs

theorem kept_stopStep (h : Kept threads s) (hok : Settled s (.stopStep k))
    (hs : s.stopStep k = some t) : Kept threads t := by
  unfold Acceptor.stopStep at hs
  split at hs
  · obtain rfl := Option.some.inj hs
    exact ⟨h.emptied, h.threads, h.active, h.pending⟩
  · rename_i hk
    obtain rfl := Option.some.inj hs
    exact ⟨h.emptied, h.threads, h.active, fun _ => hok hk⟩
  · obtain rfl := Option.some.inj hs
    exact ⟨h.emptied, h.threads, h.active, h.pending⟩
  · cases hs

theorem kept_asyncAccept (h : Kept threads s) (result : Listening) :
    Kept threads (s.asyncAccept result) := by
  cases result with
  | noAcceptor | noOption => exact ⟨h.emptied, h.threads, h.active, h.pending⟩
  | started =>
    refine ⟨h.emptied, h.threads, ?_, fun hempty a ha => ?_⟩
    · have hle := h.active
      simpa [Acceptor.asyncAccept, Acceptor.active, List.countP_append, Accept.isActive] using hle
    · obtain ha | ha := List.mem_append.mp ha
      · exact h.pending hempty a ha
      · rw [List.mem_singleton.mp ha]
        rfl

theorem kept_step (h : Kept threads s) {act : Action} (hok : Settled s act)
    (hs : s.step act = some t) : Kept threads t := by
  cases act with
  | bindAcceptCallback =>
    obtain rfl := Option.some.inj hs
    exact ⟨h.emptied, h.threads, h.active, nofun⟩
  | asyncAccept result =>
    obtain rfl := Option.some.inj hs
    exact kept_asyncAccept h result
  | stop =>
    obtain rfl := Option.some.inj hs
    exact ⟨h.emptied, h.threads, h.active, h.pending⟩
  | stopStep k => exact kept_stopStep h hok hs
  | complete k accepted => exact kept_complete h hok hs
  | dispatch k => exact kept_dispatch h hs
  | handle k throws => exact kept_handle h hs

end Kept

/-! ## What an empty callback leads to -/

/-- Accept `j` has left its handler, and the rest is as it was. -/
structure Freed (j : ℕ) (s u : Acceptor) : Prop where
  active : u.active + 1 = s.active
  running : u.running = s.running
  emptied : u.emptied = s.emptied
  thrown : u.thrown = s.thrown
  callable : u.callable = s.callable
  others : ∀ i, i ≠ j → u.accepts[i]? = s.accepts[i]?

section Empty
variable {j k : ℕ} {s u : Acceptor} {a a' : Accept}

theorem freed_set (hj : s.accepts[j]? = some a) (ha : a.isActive) (ha' : a'.isActive = false) :
    Freed j s (s.setAccept j a') where
  active := by
    have hcount := active_set hj a'
    rw [if_pos ha, ha', if_neg (by simp)] at hcount
    omega
  running := rfl
  emptied := rfl
  thrown := rfl
  callable := rfl
  others _ hi := List.getElem?_set_ne hi.symm

theorem Freed.before (hj : s.accepts[j]? = some a) (ha : a.isActive) (ha' : a'.isActive)
    (h : Freed j (s.setAccept j a') u) : Freed j s u where
  active := by
    have hcount := active_set hj a'
    rw [if_pos ha, if_pos ha'] at hcount
    have := h.active
    omega
  running := h.running
  emptied := h.emptied
  thrown := h.thrown
  callable := h.callable
  others i hi := (h.others i hi).trans (List.getElem?_set_ne hi.symm)

theorem getElem?_setAccept (hj : s.accepts[j]? = some a) (a' : Accept) :
    (s.setAccept j a').accepts[j]? = some a' := by
  have hlt : j < s.accepts.length := (List.getElem?_eq_some_iff.mp hj).1
  simp [Acceptor.setAccept, hlt]

theorem run_handle {t : Acceptor} {throws : Bool} {as : List Action}
    (hs : s.handle j throws = some t) (hrun : run Acceptor.step t as = some u) :
    run Acceptor.step s (.handle j throws :: as) = some u := by
  change (s.handle j throws).bind _ = _
  rw [hs]
  exact hrun

theorem startAccept_ends (hj : s.accepts[j]? = some .startAccept) :
    ∃ as u, run Acceptor.step s as = some u ∧ Freed j s u := by
  have hs : s.handle j false =
      some (s.setAccept j (if s.isOpen then .waiting s.acceptor else .queued false)) := by
    simp [Acceptor.handle, hj]
  refine ⟨[.handle j false], _, run_handle hs rfl, freed_set hj rfl ?_⟩
  split <;> rfl

theorem testQuit_ends (hj : s.accepts[j]? = some .testQuit) :
    ∃ as u, run Acceptor.step s as = some u ∧ Freed j s u := by
  have hs : s.handle j false = some (s.setAccept j (if s.quit then .ended else .startAccept)) := by
    simp [Acceptor.handle, hj]
  cases hquit : s.quit with
  | true =>
    rw [hquit, if_pos rfl] at hs
    exact ⟨[.handle j false], _, run_handle hs rfl, freed_set hj rfl rfl⟩
  | false =>
    rw [hquit, if_neg (by simp)] at hs
    obtain ⟨as, u, hrun, hfreed⟩ := startAccept_ends (getElem?_setAccept hj .startAccept)
    exact ⟨_, u, run_handle hs hrun, hfreed.before hj rfl rfl⟩

/-- A handler that is past the call comes to its end. -/
theorem handler_ends (hj : s.accepts[j]? = some a) (ha : a.isActive) (hp : a.isPending = false) :
    ∃ as u, run Acceptor.step s as = some u ∧ Freed j s u := by
  cases a with
  | inCallback =>
    have hs : s.handle j false = some (s.setAccept j .testQuit) := by
      simp [Acceptor.handle, hj]
    obtain ⟨as, u, hrun, hfreed⟩ := testQuit_ends (getElem?_setAccept hj .testQuit)
    exact ⟨_, u, run_handle hs hrun, hfreed.before hj rfl rfl⟩
  | testQuit => exact testQuit_ends hj
  | startAccept => exact startAccept_ends hj
  | setOptions | call => cases hp
  | waiting | queued | ended => cases ha

/-- A thread is gone by an empty callback. -/
structure Lost (s u : Acceptor) : Prop where
  emptied : u.emptied = s.emptied + 1
  thrown : u.thrown = s.thrown
  running : u.running + 1 = s.running

theorem call_empty (hempty : s.callable = false) (hpos : 0 < s.running)
    (hj : s.accepts[j]? = some .call) :
    ∃ as u, run Acceptor.step s as = some u ∧ Lost s u := by
  have hs : s.handle j false = some { s.setAccept j .ended with
      running := s.running - 1, emptied := s.emptied + 1 } := by
    simp [Acceptor.handle, hj, hempty]
  refine ⟨[.handle j false], _, run_handle hs rfl, rfl, rfl, ?_⟩
  exact Nat.sub_add_cancel hpos

theorem setOptions_empty (hempty : s.callable = false) (hpos : 0 < s.running)
    (hj : s.accepts[j]? = some .setOptions) :
    ∃ as u, run Acceptor.step s as = some u ∧ Lost s u := by
  have hs : s.handle j false = some (s.setAccept j .call) := by simp [Acceptor.handle, hj]
  obtain ⟨as, u, hrun, hlost⟩ :=
    call_empty (s := s.setAccept j .call) hempty hpos (getElem?_setAccept hj .call)
  exact ⟨_, u, run_handle hs hrun, hlost.emptied, hlost.thrown, hlost.running⟩

theorem queued_empty (hempty : s.callable = false) (hfree : s.active < s.running)
    (hk : s.accepts[k]? = some (.queued true)) :
    ∃ as u, run Acceptor.step s as = some u ∧ Lost s u := by
  have hs : s.dispatch k = some (s.setAccept k .setOptions) := by
    simp [Acceptor.dispatch, hk, hfree]
  obtain ⟨as, u, hrun, hlost⟩ := setOptions_empty (s := s.setAccept k .setOptions) hempty
    (Nat.lt_of_le_of_lt (Nat.zero_le _) hfree) (getElem?_setAccept hk .setOptions)
  refine ⟨.dispatch k :: as, u, ?_, hlost.emptied, hlost.thrown, hlost.running⟩
  change (s.dispatch k).bind _ = _
  rw [hs]
  exact hrun

/-- A connection on its way to an empty `acpt_cb_` can cost a thread, once there is one. -/
theorem pending_empty (hempty : s.callable = false) (hpos : 0 < s.running)
    (hle : s.active ≤ s.running) (hk : s.accepts[k]? = some a) (hp : a.isPending) :
    ∃ as u, run Acceptor.step s as = some u ∧ Lost s u := by
  cases a with
  | call => exact call_empty hempty hpos hk
  | setOptions => exact setOptions_empty hempty hpos hk
  | queued accepted =>
    obtain rfl : accepted = true := by
      cases accepted with
      | true => rfl
      | false => cases hp
    by_cases hfree : s.active < s.running
    · exact queued_empty hempty hfree hk
    · -- every thread is in a handler: one of them ends, or calls the empty function itself
      obtain ⟨b, hb, hactive⟩ := List.countP_pos_iff.mp (by
        change 0 < s.active
        omega)
      obtain ⟨j, hlt, rfl⟩ := List.getElem_of_mem hb
      have hj : s.accepts[j]? = some s.accepts[j] := List.getElem?_eq_getElem hlt
      cases hpj : s.accepts[j].isPending with
      | true =>
        cases hb' : s.accepts[j] with
        | call => exact call_empty hempty hpos (hj.trans (congrArg some hb'))
        | setOptions => exact setOptions_empty hempty hpos (hj.trans (congrArg some hb'))
        | queued => simp [hb', Accept.isActive] at hactive
        | waiting | inCallback | testQuit | startAccept | ended => simp [hb', Accept.isPending] at hpj
      | false =>
        obtain ⟨as, u, hrun, hfreed⟩ := handler_ends hj hactive hpj
        have hne : k ≠ j := by
          rintro rfl
          simp [Option.some.inj (hj.symm.trans hk), Accept.isActive] at hactive
        have hku : u.accepts[k]? = some (.queued true) := (hfreed.others k hne).trans hk
        have hfree' : u.active < u.running := by
          have hactive := hfreed.active
          have hrunning := hfreed.running
          omega
        obtain ⟨bs, v, hrun', hlost⟩ := queued_empty (hfreed.callable.trans hempty) hfree' hku
        refine ⟨as ++ bs, v, ?_, ?_, ?_, ?_⟩
        · rw [run_append, hrun]
          exact hrun'
        · rw [hlost.emptied, hfreed.emptied]
        · rw [hlost.thrown, hfreed.thrown]
        · rw [hlost.running, hfreed.running]
  | waiting | inCallback | testQuit | startAccept | ended => cases hp

/-- What breaks the condition leaves a connection on its way to an empty function. -/
theorem unsettled_pending {act : Action} {t : Acceptor} (hs : s.step act = some t)
    (hno : ¬Settled s act) :
    t.callable = false ∧ t.running = s.running ∧ t.emptied = s.emptied ∧ t.thrown = s.thrown ∧
      t.active = s.active ∧ ∃ (k : ℕ) (a : Accept), t.accepts[k]? = some a ∧ a.isPending := by
  cases act with
  | stopStep k =>
    simp only [Settled, not_forall] at hno
    obtain ⟨hk, a, ha, hp⟩ := hno
    have hclear : s.stopStep k =
        some { s with callable := false, stops := s.stops.set k .close } := by
      simp [Acceptor.stopStep, hk]
    obtain rfl := Option.some.inj (hclear.symm.trans hs)
    obtain ⟨j, hlt, rfl⟩ := List.getElem_of_mem ha
    exact ⟨rfl, rfl, rfl, rfl, rfl, j, _, List.getElem?_eq_getElem hlt, by simpa using hp⟩
  | complete k accepted =>
    cases accepted with
    | false => exact absurd trivial hno
    | true =>
      have hempty : s.callable = false := by simpa [Settled] using hno
      have hcomplete : s.complete k true = some t := hs
      unfold Acceptor.complete at hcomplete
      split at hcomplete
      · rename_i acceptor hk
        rw [if_pos rfl] at hcomplete
        split at hcomplete
        · obtain rfl := Option.some.inj hcomplete
          have hcount := active_set hk (.queued true)
          exact ⟨hempty, rfl, rfl, rfl, by simpa [Accept.isActive] using hcount, k, _,
            getElem?_setAccept hk _, rfl⟩
        · cases hcomplete
      · cases hcomplete
  | bindAcceptCallback | asyncAccept | stop | dispatch | handle => exact absurd trivial hno

end Empty

/-- **Stopping.** In a run in which no connection is on its way to `acpt_cb_` when `stop` empties it
and none is accepted while it is empty, no handler calls an empty function, and of the pool's threads
only those are gone that `set_option` or the callback threw out. A step of such a run that is the
first to break the condition can be continued to the loss of one more. -/
theorem stop_keeps_threads (threads : ℕ) (s : Acceptor)
    (hs : Reach Acceptor.step Settled (.listening threads) s) :
    s.emptied = 0 ∧ s.running + s.thrown = threads ∧
      ∀ act t, s.step act = some t → ¬Settled s act → 0 < s.running →
        ∃ as u, run Acceptor.step t as = some u ∧ u.emptied = 1 ∧
          u.running + u.thrown + 1 = threads := by
  have h : Kept threads s :=
    hs.invariant (kept_listening threads) fun _ _ _ hu hok hstep => kept_step hu hok hstep
  refine ⟨h.emptied, h.threads, fun act t hstep hno hpos => ?_⟩
  obtain ⟨hempty, hrunning, hemptied, hthrown, hactive, k, a, hk, hp⟩ := unsettled_pending hstep hno
  have hle := h.active
  obtain ⟨as, u, hrun, hlost⟩ := pending_empty hempty (by omega) (by omega) hk hp
  have hthreads := h.threads
  have hlost' := hlost.running
  have hemptied' := hlost.emptied
  have hthrown' := hlost.thrown
  have hnone := h.emptied
  exact ⟨as, u, hrun, by omega, by omega⟩

/-- A connection is in the callback when `stop` comes. -/
theorem stop_keeps_threads_called :
    ∃ s, Reach Acceptor.step Settled (.listening 1) s ∧ s.stops = [.returned] ∧
      s.accepts = [.ended] ∧ s.emptied = 0 ∧ s.running + s.thrown = 1 := by
  have h0 : Reach Acceptor.step Settled (.listening 1) (.listening 1) := .refl
  have h1 := (h0.tail (a := Action.complete 0 true) rfl rfl).tail (a := Action.dispatch 0) trivial
    rfl
  have h2 := (h1.tail (a := Action.handle 0 false) trivial rfl).tail (a := Action.handle 0 false)
    trivial rfl
  have h3 := (h2.tail (a := Action.stop) trivial rfl).tail (a := Action.stopStep 0) nofun rfl
  have h4 := h3.tail (a := Action.stopStep 0) (fun _ a ha => List.mem_singleton.mp ha ▸ rfl) rfl
  have h5 := h4.tail (a := Action.stopStep 0) nofun rfl
  have h6 := (h5.tail (a := Action.handle 0 false) trivial rfl).tail (a := Action.handle 0 false)
    trivial rfl
  obtain ⟨hemptied, hthreads, -⟩ := stop_keeps_threads 1 _ h6
  exact ⟨_, h6, rfl, rfl, hemptied, hthreads⟩

/-- The accept has succeeded and is queued when `stop` runs; its handler then calls the empty
function, and the only thread is gone. -/
theorem queued_accept_called_empty :
    ∃ s, run Acceptor.step (.listening 1)
        [.complete 0 true, .stop, .stopStep 0, .stopStep 0, .stopStep 0, .dispatch 0,
          .handle 0 false, .handle 0 false] = some s ∧
      s.emptied = 1 ∧ s.thrown = 0 ∧ s.running = 0 :=
  ⟨_, rfl, rfl, rfl, rfl⟩

end DevFramework.Socket
