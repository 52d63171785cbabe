import DevFramework.Connector.Closing
import Mathlib.Algebra.Order.BigOperators.Group.Finset
import Mathlib.Algebra.Order.Ring.Nat

/-! # Sockets that nobody closes

A socket belongs to one netport for good. Once it is open and no call that waits will close it,
the connects that are under way can fail, `stop` can be called and all strands can be run to their
end, and the socket is still open.
-/
namespace DevFramework.Connector
open Transition
set_option autoImplicit false
set_option maxHeartbeats 250000

/-- Steps of the strand that the calls take: an error first becomes a clear. -/
def weight (calls : List Call) : ℕ :=
  (calls.map fun
    | .onError _ => 2
    | _ => 1).sum

section Lists
variable {n k : ℕ} {sock sock' : Option ℕ} {calls calls' : List Call}

theorem owned_cons (call : Call) (h : sock = some k ∨ .bindSocket n k ∈ calls) :
    sock = some k ∨ .bindSocket n k ∈ call :: calls := by
  obtain hsock | hcalls := h
  · exact .inl hsock
  · exact .inr (List.mem_cons_of_mem call hcalls)

/-- What is owned after a bind is bound by it, or was owned before. -/
theorem owned_bind {m j : ℕ}
    (h : (if m = n then some j else sock) = some k ∨ .bindSocket n k ∈ calls) :
    sock = some k ∨ .bindSocket n k ∈ .bindSocket m j :: calls := by
  obtain hsock | hcalls := h
  · split at hsock
    · rename_i hm
      obtain rfl := Option.some.inj hsock
      exact .inr (hm ▸ List.mem_cons_self)
    · exact .inl hsock
  · exact .inr (List.mem_cons_of_mem _ hcalls)

theorem sockAfter_owned (h : sockAfter n sock calls = some k) :
    sock = some k ∨ .bindSocket n k ∈ calls := by
  induction calls generalizing sock with
  | nil => exact .inl h
  | cons call rest ih =>
    cases call with
    | bindSocket m j => exact owned_bind (ih h)
    | onError m | doClear m => exact owned_cons _ (ih h)

theorem closes_owned (h : Closes n k sock calls) : sock = some k ∨ .bindSocket n k ∈ calls := by
  induction calls generalizing sock with
  | nil => exact h.elim
  | cons call rest ih =>
    cases call with
    | bindSocket m j => exact owned_bind (ih h)
    | onError m | doClear m =>
      obtain ⟨-, hsock⟩ | hlater := h
      · exact .inl hsock
      · exact owned_cons _ (ih hlater)

theorem Helper.Moves.owned (h : Helper.Moves n sock calls sock' calls')
    (hk : sock' = some k ∨ .bindSocket n k ∈ calls') : sock = some k ∨ .bindSocket n k ∈ calls := by
  cases h with
  | still => exact hk
  | bind m j rest => exact owned_bind hk
  | error m rest =>
    apply owned_cons
    obtain hsock | hmem := hk
    · exact .inl hsock
    · obtain heq | hrest := List.mem_cons.mp hmem
      · cases heq
      · exact .inr hrest
  | clear m rest => exact owned_cons _ hk

end Lists

namespace Helper
variable {s t : Helper} {n k : ℕ}

/-! ## Owners -/

/-- The socket is bound to the netport, or waits for it. -/
def Owns (s : Helper) (n k : ℕ) : Prop :=
  (s.netports n).sock = some k ∨ .bindSocket n k ∈ s.queueOf n

theorem WillClose.owns (h : s.WillClose n k) : s.Owns n k := closes_owned h

structure Owned (s : Helper) : Prop where
  lt : ∀ n k, s.Owns n k → k < s.socketCount
  unique : ∀ m n k, s.Owns m k → s.Owns n k → m = n

theorem Owned.mono (h : Owned s) (howns : ∀ n k, t.Owns n k → s.Owns n k)
    (hcount : s.socketCount ≤ t.socketCount) : Owned t where
  lt := fun n k hk => Nat.lt_of_lt_of_le (h.lt n k (howns n k hk)) hcount
  unique := fun m n k hm hn => h.unique m n k (howns m k hm) (howns n k hn)

theorem Owned.frame (h : Owned s) (hnetports : t.netports = s.netports)
    (hqueues : t.queues = s.queues) (hcount : s.socketCount ≤ t.socketCount) : Owned t := by
  apply h.mono _ hcount
  intro n k hk
  simpa only [Owns, queueOf, hnetports, hqueues] using hk

theorem owns_of_post {call : Call} {m : ℕ} {accepted : Bool}
    (hk : (s.post m call accepted).Owns n k) : s.Owns n k ∨ call = .bindSocket n k := by
  rw [Owns, post_netports, post_queueOf, List.mem_append] at hk
  obtain hsock | hold | hnew := hk
  · exact .inl (.inl hsock)
  · exact .inl (.inr hold)
  · split at hnew
    · exact .inr (List.mem_singleton.mp hnew).symm
    · cases hnew

theorem Owned.post (h : Owned s) {call : Call} (hcall : ∀ m j, call ≠ .bindSocket m j) (m : ℕ)
    (accepted : Bool) : Owned (s.post m call accepted) := by
  apply h.mono _ (by rw [post_socketCount])
  intro n k hk
  obtain hold | heq := owns_of_post hk
  · exact hold
  · exact absurd heq (hcall n k)

theorem Owned.perform {strand : ℕ} (h : Owned s) (hnum : Numbered s)
    (hs : s.perform strand = some t) : Owned t := by
  obtain ⟨hp, -, -, -, hcount, -⟩ := perform_performs hnum.inPlace hs
  exact h.mono (fun n k => (hp.moves n).owned) (Nat.le_of_eq hcount.symm)

/-- The new netport owns nothing before its bind. -/
theorem owns_of_withNetport (hnum : Numbered s) (hk : s.withNetport.Owns n k) : s.Owns n k := by
  by_cases heq : n = s.netportCount
  · obtain hsock | hbind := hk
    · rw [heq, withNetport_netports_self] at hsock
      cases hsock
    · have hlt : (Call.bindSocket n k).netport < s.netportCount := hnum.calls _ _ hbind
      exact absurd hlt (heq ▸ Nat.lt_irrefl s.netportCount)
  · rw [Owns, withNetport_netports heq, withNetport_queueOf heq] at hk
    exact hk

theorem Owned.connected (h : Owned s) (hnum : Numbered s) (hrun : s.stopped = false)
    (accepted : Bool) : Owned (s.connected accepted) := by
  rw [connected_running hrun]
  have hcases : ∀ n k, (s.withNetport.post s.netportCount
      (.bindSocket s.netportCount s.socketCount) accepted).Owns n k →
      s.Owns n k ∨ n = s.netportCount ∧ k = s.socketCount := by
    intro n k hk
    obtain hold | heq := owns_of_post hk
    · exact .inl (owns_of_withNetport hnum hold)
    · obtain ⟨hn, hk⟩ := Call.bindSocket.inj heq
      exact .inr ⟨hn.symm, hk.symm⟩
  constructor
  case lt =>
    intro n k hk
    rw [post_socketCount]
    obtain hold | ⟨-, rfl⟩ := hcases n k hk
    · exact Nat.lt_succ_of_lt (h.lt n k hold)
    · exact Nat.lt_succ_self s.socketCount
  case unique =>
    intro m n k hm hn
    obtain hold | ⟨rfl, rfl⟩ := hcases m k hm
    · obtain hold' | ⟨-, rfl⟩ := hcases n k hn
      · exact h.unique m n k hold hold'
      · exact absurd (h.lt m _ hold) (Nat.lt_irrefl _)
    · obtain hold' | ⟨rfl, -⟩ := hcases n _ hn
      · exact absurd (h.lt n _ hold') (Nat.lt_irrefl _)
      · rfl

theorem Owned.step {a : Action} (h : Owned s) (hnum : Numbered s) (hs : s.step a = some t) :
    Owned t := by
  cases a with
  | setStrand strand =>
    obtain rfl := Option.some.inj hs
    exact h.frame rfl rfl (Nat.le_refl _)
  | start =>
    obtain rfl := Option.some.inj hs
    exact h.frame rfl rfl (Nat.le_refl _)
  | connected accepted =>
    simp only [Helper.step] at hs
    split at hs
    · cases hs
    · obtain rfl := Option.some.inj hs
      cases hstop : s.stopped with
      | true =>
        rw [connected_stopped hstop]
        exact h.frame rfl rfl (Nat.le_succ _)
      | false => exact h.connected hnum hstop accepted
  | connectFailed =>
    simp only [Helper.step] at hs
    split at hs
    · cases hs
    · obtain rfl := Option.some.inj hs
      exact h.frame rfl rfl (Nat.le_refl _)
  | socketError k =>
    simp only [Helper.step] at hs
    split at hs
    · obtain rfl := Option.some.inj hs
      exact h.frame rfl rfl (Nat.le_refl _)
    · cases hs
  | badHeader n =>
    simp only [Helper.step] at hs
    split at hs
    · split at hs
      · obtain rfl := Option.some.inj hs
        exact h.frame rfl rfl (Nat.le_refl _)
      · cases hs
    · cases hs
  | postError i accepted =>
    simp only [Helper.step] at hs
    split at hs
    · rename_i n hi
      obtain rfl := Option.some.inj hs
      have h' : Owned { s with failing := s.failing.eraseIdx i } :=
        h.frame rfl rfl (Nat.le_refl _)
      exact h'.post (fun _ _ heq => by cases heq) n accepted
    · cases hs
  | perform strand => exact h.perform hnum hs
  | stop accepted =>
    simp only [Helper.step] at hs
    obtain rfl := Option.some.inj hs
    have h' : Owned { s with stopped := true } := h.frame rfl rfl (Nat.le_refl _)
    split
    · exact h'.post (fun _ _ heq => by cases heq) _ accepted
    · exact h'

/-! ## To the end of everything -/

/-- Stopped, with no connect under way and no call waiting. -/
def Done (s : Helper) : Prop :=
  s.stopped = true ∧ s.connecting = 0 ∧ ∀ strand, s.queues strand = []

/-- Socket `k` is open and no call that waits will close it. -/
structure Stray (s : Helper) (k : ℕ) : Prop where
  numbered : Numbered s
  neverNull : ∀ n < s.netportCount, NeverNull n (s.netports n).sock (s.queueOf n)
  isOpen : (s.sockets k).isOpen = true
  lt : k < s.socketCount
  lost : ∀ n, ¬ s.WillClose n k

theorem Stray.frame (h : Stray s k) (hnetports : t.netports = s.netports)
    (hqueues : t.queues = s.queues) (hsockets : t.sockets = s.sockets)
    (hsocketCount : t.socketCount = s.socketCount) (hnetport : t.netport = s.netport)
    (hcount : t.netportCount = s.netportCount) (hfailing : t.failing = s.failing) : Stray t k where
  numbered := h.numbered.frame hnetports hqueues (hfailing ▸ h.numbered.failing)
    (fun k n hk => hsockets ▸ hk) hnetport hcount
  neverNull := by
    simp only [queueOf, hnetports, hqueues, hcount]
    exact h.neverNull
  isOpen := hsockets ▸ h.isOpen
  lt := hsocketCount ▸ h.lt
  lost := by
    simp only [WillClose, queueOf, hnetports, hqueues]
    exact h.lost

theorem Stray.perform {strand : ℕ} (h : Stray s k) (hs : s.perform strand = some t) : Stray t k := by
  obtain ⟨hp, -, -, hcount, hsocks, -⟩ := perform_performs h.numbered.inPlace hs
  refine ⟨h.numbered.perform hs, ?_, hp.stays k h.isOpen h.lost, hsocks ▸ h.lt, ?_⟩
  · intro n hn
    exact (hp.moves n).neverNull (h.neverNull n (hcount ▸ hn))
  · intro n hclose
    exact h.lost n ((hp.moves n).closes_of hclose)

theorem perform_lighter {strand : ℕ} (hs : s.perform strand = some t) :
    weight (t.queues strand) < weight (s.queues strand) ∧
      ∀ strand', strand' ≠ strand → t.queues strand' = s.queues strand' := by
  unfold Helper.perform at hs
  split at hs
  case h_1 => cases hs
  case h_2 hq =>
    obtain rfl := Option.some.inj hs
    refine ⟨?_, fun strand' hne => Function.update_of_ne hne _ _⟩
    simp [setQueue, setSocket, hq, weight]
  case h_3 hq =>
    obtain rfl := Option.some.inj hs
    refine ⟨?_, fun strand' hne => Function.update_of_ne hne _ _⟩
    simp [setQueue, hq, weight]
  case h_4 hq =>
    split at hs
    · obtain rfl := Option.some.inj hs
      refine ⟨?_, fun strand' hne => Function.update_of_ne hne _ _⟩
      simp [setQueue, setSocket, hq, weight]
    · cases hs

/-- The calls that wait, counted for every netport. -/
def load (s : Helper) : ℕ := ∑ n ∈ Finset.range s.netportCount, weight (s.queueOf n)

theorem perform_load {strand : ℕ} (hnum : Numbered s) (hs : s.perform strand = some t) :
    t.load < s.load := by
  obtain ⟨hp, -, -, hcount, -⟩ := perform_performs hnum.inPlace hs
  obtain ⟨hlighter, hothers⟩ := perform_lighter hs
  have hqueue : ∀ n, (s.netports n).strand = strand →
      weight (t.queueOf n) < weight (s.queueOf n) := by
    intro n hn
    rw [queueOf, queueOf, hp.strands, hn]
    exact hlighter
  unfold load
  rw [hcount]
  apply Finset.sum_lt_sum
  · intro n _
    by_cases hn : (s.netports n).strand = strand
    · exact Nat.le_of_lt (hqueue n hn)
    · rw [queueOf, queueOf, hp.strands, hothers _ hn]
  · cases hq : s.queues strand with
    | nil =>
      rw [hq] at hlighter
      exact absurd hlighter (Nat.not_lt_zero _)
    | cons call rest =>
      have hmem : call ∈ s.queues strand := by
        rw [hq]
        exact List.mem_cons_self
      exact ⟨call.netport, Finset.mem_range.mpr (hnum.calls strand call hmem),
        hqueue _ (hnum.inPlace strand call hmem)⟩

/-- The strands run to their end. -/
theorem Stray.drains {w : ℕ} (h : Stray s k) (hw : s.load ≤ w) (hstop : s.stopped = true)
    (hidle : s.connecting = 0) : ∃ u, Reachable step s u ∧ Stray u k ∧ u.Done := by
  induction w generalizing s with
  | zero =>
    refine ⟨s, .refl, h, hstop, hidle, fun strand => ?_⟩
    by_contra hne
    obtain ⟨t, ht⟩ := perform_goes h.neverNull h.numbered hne
    have hload := perform_load h.numbered ht
    omega
  | succ w ih =>
    by_cases hdone : ∀ strand, s.queues strand = []
    · exact ⟨s, .refl, h, hstop, hidle, hdone⟩
    · obtain ⟨strand, hne⟩ := not_forall.mp hdone
      obtain ⟨t, ht⟩ := perform_goes h.neverNull h.numbered hne
      have hload := perform_load h.numbered ht
      obtain ⟨-, -, hstopped, -, -, -, hconnecting⟩ := perform_performs h.numbered.inPlace ht
      obtain ⟨u, hu, hstray, hdone⟩ := ih (h.perform ht) (by omega) (hstopped.trans hstop)
        (hconnecting.trans hidle)
      exact ⟨u, (Reach.refl.tail (a := Action.perform strand) trivial ht).trans hu, hstray, hdone⟩

/-- The connects that are under way fail. -/
theorem Stray.idles {d : ℕ} (h : Stray s k) (hd : s.connecting = d) :
    ∃ u, Reachable step s u ∧ Stray u k ∧ u.connecting = 0 := by
  induction d generalizing s with
  | zero => exact ⟨s, .refl, h, hd⟩
  | succ d ih =>
    have hfail : s.step .connectFailed = some { s with connecting := s.connecting - 1 } := by
      simp only [Helper.step]
      rw [if_neg (by omega)]
    have h' : Stray { s with connecting := s.connecting - 1 } k :=
      h.frame rfl rfl rfl rfl rfl rfl rfl
    obtain ⟨u, hu, hstray, hidle⟩ := ih h' (show s.connecting - 1 = d by omega)
    exact ⟨u, (Reach.refl.tail trivial hfail).trans hu, hstray, hidle⟩

/-- `stop` is called; `post_call` refuses its clear. -/
theorem stop_refused (s : Helper) : s.step (.stop false) = some { s with stopped := true } := by
  simp only [Helper.step]
  split <;> rfl

theorem Stray.remains (h : Stray s k) :
    ∃ u, Reachable step s u ∧ u.Done ∧ ∃ j < u.socketCount, (u.sockets j).isOpen = true := by
  obtain ⟨t, ht, hstray, hidle⟩ := h.idles rfl
  have hstopped : Stray { t with stopped := true } k :=
    hstray.frame rfl rfl rfl rfl rfl rfl rfl
  obtain ⟨u, hu, hstray', hdone⟩ := hstopped.drains (Nat.le_refl _) rfl hidle
  exact ⟨u, (ht.tail trivial (stop_refused t)).trans hu, hdone, k, hstray'.lt, hstray'.isOpen⟩

/-! ## Steps that lose a socket -/

theorem Owns.lt (hnum : Numbered s) (h : s.Owns n k) : n < s.netportCount := by
  obtain hsock | hbind := h
  · exact hnum.sock n k hsock
  · exact hnum.calls _ _ hbind

/-- A new netport and its bind close nothing. -/
theorem willClose_of_connected {accepted : Bool} (hnum : Numbered s) (hrun : s.stopped = false)
    (h : (s.connected accepted).WillClose n k) : s.WillClose n k := by
  rw [connected_running hrun, WillClose, post_netports, post_queueOf, closes_append] at h
  have hnew : s.withNetport.WillClose n k := by
    obtain hold | hbind := h
    · exact hold
    · split at hbind <;> exact hbind.elim
  have hlt : n < s.netportCount := (owns_of_withNetport hnum hnew.owns).lt hnum
  exact (withNetport_willClose (Nat.ne_of_lt hlt)).mp hnew

theorem Stray.connected {accepted : Bool} (h : Stray s k) (hrun : s.stopped = false) :
    Stray (s.connected accepted) k where
  numbered := by
    rw [connected_running hrun]
    exact h.numbered.withNetport.post (.bindSocket s.netportCount s.socketCount)
      (Nat.lt_succ_self s.netportCount) accepted
  neverNull := neverNull_connected h.neverNull h.numbered hrun accepted
  isOpen := by
    rw [connected_running hrun, post_sockets]
    simpa only [withNetport, setSocket, Function.update_of_ne (Nat.ne_of_lt h.lt)] using h.isOpen
  lt := by
    rw [connected_running hrun, post_socketCount]
    exact Nat.lt_succ_of_lt h.lt
  lost := fun n hclose => h.lost n (willClose_of_connected h.numbered hrun hclose)

/-- The bind of a new socket is refused. -/
theorem stray_refused (hkept : Kept s) (hnum : Numbered s) (howned : Owned s)
    (hrun : s.stopped = false) : Stray (s.connected false) s.socketCount where
  numbered := by
    rw [connected_running hrun]
    exact hnum.withNetport
  neverNull := neverNull_connected hkept.neverNull hnum hrun false
  isOpen := by
    rw [connected_running hrun, post_sockets]
    simp only [withNetport, setSocket, Function.update_self]
  lt := by
    rw [connected_running hrun, post_socketCount]
    exact Nat.lt_succ_self s.socketCount
  lost := by
    intro n hclose
    have howns := (willClose_of_connected hnum hrun hclose).owns
    exact Nat.lt_irrefl _ (howned.lt n _ howns)

/-- The socket of a netport is not settled. -/
theorem stray_unsettled (hkept : Kept s) (hnum : Numbered s) (howned : Owned s)
    (h : ¬ s.Settled n) : ∃ k, Stray s k := by
  simp only [Settled, not_forall] at h
  obtain ⟨k, hsock, hopen, hclose⟩ := h
  have howns : s.Owns n k := sockAfter_owned hsock
  refine ⟨k, hnum, hkept.neverNull, hopen, howned.lt n k howns, fun m hm => ?_⟩
  rw [howned.unique m n k hm.owns howns] at hm
  exact hclose hm

theorem careless_stray {a : Action} (hkept : Kept s) (hnum : Numbered s) (howned : Owned s)
    (hs : s.step a = some t) (h : ¬ s.Careful a) : ∃ k, Stray t k := by
  cases a with
  | connected accepted =>
    simp only [Helper.step] at hs
    split at hs
    · cases hs
    · obtain rfl := Option.some.inj hs
      obtain ⟨hrun, hlost⟩ := Classical.not_imp.mp h
      cases accepted with
      | false => exact ⟨_, stray_refused hkept hnum howned hrun⟩
      | true =>
        simp only [true_and, not_forall] at hlost
        obtain ⟨n, -, hunsettled⟩ := hlost
        obtain ⟨k, hstray⟩ := stray_unsettled hkept hnum howned hunsettled
        exact ⟨k, hstray.connected hrun⟩
  | stop accepted =>
    simp only [Careful, Classical.not_imp, not_forall] at h
    obtain ⟨-, rfl, n, -, hunsettled⟩ := h
    rw [stop_refused] at hs
    obtain rfl := Option.some.inj hs
    obtain ⟨k, hstray⟩ := stray_unsettled hkept hnum howned hunsettled
    exact ⟨k, hstray.frame rfl rfl rfl rfl rfl rfl rfl⟩
  | setStrand | start | connectFailed | socketError | badHeader | postError | perform =>
    exact absurd trivial h

/-- As long as every successful connect before the stop gets its bind posted and finds the socket of
`netport_` closed or about to be, and `stop` gets its clear posted unless that is so: once `stop`
has run, no connect is under way and no call waits, every socket is closed. Until then each strand
can always perform its next call. Any other step can be continued to a state with all done and a
socket open. -/
theorem sockets_closed {s : Helper} (h : Reach step Careful init s) :
    (s.Done → ∀ k < s.socketCount, (s.sockets k).isOpen = false) ∧
      (∀ strand, s.queues strand ≠ [] → ∃ t, s.step (.perform strand) = some t) ∧
      ∀ a t, s.step a = some t → ¬ s.Careful a →
        ∃ u, Reachable step t u ∧ u.Done ∧ ∃ k < u.socketCount, (u.sockets k).isOpen = true := by
  have howned₀ : Owned init := ⟨fun _ _ hk => by simp [Owns, init, queueOf] at hk,
    fun _ _ _ hk => by simp [Owns, init, queueOf] at hk⟩
  obtain ⟨⟨hkept, hnum⟩, howned⟩ :=
    h.invariant (P := fun u => (Kept u ∧ Numbered u) ∧ Owned u) ⟨init_kept, howned₀⟩
      fun u a v hu hcareful hs => ⟨hu.1.1.step hu.1.2 hcareful hs, hu.2.step hu.1.2 hs⟩
  refine ⟨?_, fun strand => perform_goes hkept.neverNull hnum, ?_⟩
  · rintro ⟨hstop, -, hempty⟩ k -
    by_contra hopen
    obtain ⟨n, -, hclose | ⟨-, hrun, -⟩⟩ := hkept.held k (Bool.eq_true_of_not_eq_false hopen)
    · rw [WillClose, queueOf, hempty] at hclose
      exact hclose
    · rw [hstop] at hrun
      cases hrun
  · intro a t hs hcareless
    obtain ⟨k, hstray⟩ := careless_stray hkept hnum howned hs hcareless
    exact hstray.remains

/-- A reconnect while the error of the old connection waits on the strand, then a stop. -/
theorem sockets_closed_reconnected :
    ∃ s, Reach step Careful init s ∧ s.Done ∧ s.socketCount = 2 ∧
      ∀ k < s.socketCount, (s.sockets k).isOpen = false := by
  have h0 : Reach step Careful init init := .refl
  have h1 := (h0.tail (a := Action.start) trivial rfl).tail (a := Action.connected true)
    (fun _ => ⟨rfl, nofun⟩) rfl
  have h2 := (h1.tail (a := Action.perform 0) trivial rfl).tail (a := Action.socketError 0) trivial
    rfl
  have h3 := (h2.tail (a := Action.postError 0 true) trivial rfl).tail (a := Action.start) trivial rfl
  have h4 := h3.tail (a := Action.connected true) (fun _ => ⟨rfl, fun n hn k hk _ => by
    obtain rfl : 0 = n := Option.some.inj hn
    exact .inl ⟨rfl, hk⟩⟩) rfl
  have h5 := (h4.tail (a := Action.perform 0) trivial rfl).tail (a := Action.perform 0) trivial rfl
  have h6 := (h5.tail (a := Action.perform 0) trivial rfl).tail (a := Action.stop true) nofun rfl
  have h7 := h6.tail (a := Action.perform 0) trivial rfl
  refine ⟨_, h7, ?_, rfl, (sockets_closed h7).1 ?_⟩ <;>
    exact ⟨rfl, rfl, fun | 0 => rfl | _ + 1 => rfl⟩

/-- Two connects succeed before the stop: nobody closes the first socket. -/
theorem first_socket_left_open :
    ∃ s, Reachable step init s ∧ s.Done ∧ s.socketCount = 2 ∧ (s.sockets 0).isOpen = true := by
  have h : Reachable step init _ := .of_run (rfl : run step init
    [.start, .start, .connected true, .connected true, .stop true, .perform 0, .perform 0,
      .perform 0] = some _)
  exact ⟨_, h, ⟨rfl, rfl, fun | 0 => rfl | _ + 1 => rfl⟩, rfl, rfl⟩

end Helper

end DevFramework.Connector
