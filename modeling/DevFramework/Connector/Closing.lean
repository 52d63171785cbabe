import DevFramework.Connector.Strand

/-! # Which sockets get closed

`stop` clears `netport_` and no other netport. An open socket is safe while it is the one of
`netport_`, and once an error or a clear of its netport waits on the strand behind the bind.
-/
namespace DevFramework.Connector
open Transition
set_option autoImplicit false
set_option maxHeartbeats 250000

/-- Calls of other netports do not matter. -/
theorem neverNull_of_others {n : ℕ} {calls : List Call} (h : ∀ call ∈ calls, call.netport ≠ n)
    (sock : Option ℕ) : NeverNull n sock calls := by
  induction calls generalizing sock with
  | nil => trivial
  | cons call rest ih =>
    have hrest := ih fun c hc => h c (List.mem_cons_of_mem call hc)
    have hne := h call List.mem_cons_self
    cases call with
    | bindSocket m j => exact hrest _
    | onError m | doClear m => exact ⟨fun heq => absurd heq hne, hrest sock⟩

namespace Helper
variable {s t : Helper} {n k : ℕ}

/-- The socket that netport `n` has or will have is closed, or a call that waits will close it. -/
def Settled (s : Helper) (n : ℕ) : Prop :=
  ∀ k, s.sockOf n = some k → (s.sockets k).isOpen = true → s.WillClose n k

/-- A connect succeeds before the stop only when `post_call` takes the bind and the socket of
`netport_` is settled; `stop` does without its clear only when that socket is settled. -/
def Careful (s : Helper) : Action → Prop
  | .connected accepted =>
    s.stopped = false → accepted = true ∧ ∀ n, s.netport = some n → s.Settled n
  | .stop accepted =>
    s.stopped = false → accepted = false → ∀ n, s.netport = some n → s.Settled n
  | _ => True

structure Numbered (s : Helper) : Prop where
  inPlace : InPlace s
  calls : ∀ strand, ∀ call ∈ s.queues strand, call.netport < s.netportCount
  failing : ∀ n ∈ s.failing, n < s.netportCount
  errCb : ∀ k n, (s.sockets k).errCb = some n → n < s.netportCount
  sock : ∀ n k, (s.netports n).sock = some k → n < s.netportCount
  netport : ∀ n, s.netport = some n → n < s.netportCount

/-- Every open socket will be closed by a call that waits, or is the one of `netport_`. -/
structure Kept (s : Helper) : Prop where
  held : ∀ k, (s.sockets k).isOpen = true → ∃ n < s.netportCount, s.WillClose n k ∨
    (s.netport = some n ∧ s.stopped = false ∧ s.sockOf n = some k)
  bound : ∀ n < s.netportCount, s.sockOf n ≠ none
  neverNull : ∀ n < s.netportCount, NeverNull n (s.netports n).sock (s.queueOf n)

/-! ## Posting -/

theorem Numbered.post (h : Numbered s) (call : Call) (hn : call.netport < s.netportCount)
    (accepted : Bool) : Numbered (s.post call.netport call accepted) := by
  have hcalls : ∀ strand, ∀ c ∈ (s.post call.netport call accepted).queues strand,
      c ∈ s.queues strand ∨ c = call ∧ strand = (s.netports call.netport).strand := by
    intro strand c hc
    rw [post_queues] at hc
    obtain hold | hnew := List.mem_append.mp hc
    · exact .inl hold
    · split at hnew
      · rename_i hwhere
        exact .inr ⟨List.mem_singleton.mp hnew, hwhere.2⟩
      · cases hnew
  constructor
  case inPlace =>
    intro strand c hc
    rw [post_netports]
    obtain hold | ⟨rfl, rfl⟩ := hcalls strand c hc
    · exact h.inPlace strand c hold
    · rfl
  case calls =>
    intro strand c hc
    rw [post_netportCount]
    obtain hold | ⟨rfl, -⟩ := hcalls strand c hc
    · exact h.calls strand c hold
    · exact hn
  all_goals simp only [post_failing, post_netportCount, post_sockets, post_netports, post_netport]
  case failing => exact h.failing
  case errCb => exact h.errCb
  case sock => exact h.sock
  case netport => exact h.netport

/-- An error or a clear is posted. -/
theorem Kept.post (h : Kept s) (call : Call) (hcall : ∀ m j, call ≠ .bindSocket m j) (n : ℕ)
    (accepted : Bool) : Kept (s.post n call accepted) where
  held := by
    intro k hk
    rw [post_sockets] at hk
    obtain ⟨m, hm, hclose | ⟨hcur, hrun, hsock⟩⟩ := h.held k hk
    · exact ⟨m, by simpa using hm, .inl (hclose.post n call accepted)⟩
    · refine ⟨m, by simpa using hm, .inr ⟨by simpa using hcur, by simpa using hrun, ?_⟩⟩
      rw [sockOf_post fun j => hcall m j]
      exact hsock
  bound := by
    intro m hm
    rw [post_netportCount] at hm
    rw [sockOf_post fun j => hcall m j]
    exact h.bound m hm
  neverNull := by
    intro m hm
    rw [post_netportCount] at hm
    rw [post_netports, post_queueOf, neverNull_append]
    refine ⟨h.neverNull m hm, ?_⟩
    split
    · cases call with
      | bindSocket m' j => exact absurd rfl (hcall m' j)
      | onError m' | doClear m' => exact ⟨fun _ => h.bound m hm, trivial⟩
    · trivial

/-! ## Performing -/

theorem Numbered.perform {strand : ℕ} (h : Numbered s) (hs : s.perform strand = some t) :
    Numbered t := by
  obtain ⟨hp, hnet, -, hcount, -, hfail, -⟩ := perform_performs h.inPlace hs
  constructor
  case inPlace =>
    intro strand' call hcall
    obtain ⟨call', hcall', heq⟩ := hp.calls strand' call hcall
    rw [hp.strands, ← heq]
    exact h.inPlace strand' call' hcall'
  case calls =>
    intro strand' call hcall
    obtain ⟨call', hcall', heq⟩ := hp.calls strand' call hcall
    rw [hcount, ← heq]
    exact h.calls strand' call' hcall'
  all_goals rw [hcount]
  case failing => exact hfail ▸ h.failing
  case errCb =>
    intro k n hk
    obtain hold | hbind := hp.errCb k n hk
    · exact h.errCb k n hold
    · exact h.calls strand _ hbind
  case sock =>
    intro n k hk
    obtain hold | hbind := hp.sock n k hk
    · exact h.sock n k hold
    · exact h.calls strand _ hbind
  case netport => exact hnet ▸ h.netport

theorem Kept.perform {strand : ℕ} (h : Kept s) (hnum : Numbered s)
    (hs : s.perform strand = some t) : Kept t := by
  obtain ⟨hp, hnet, hstop, hcount, -⟩ := perform_performs hnum.inPlace hs
  have hsockOf : ∀ n, t.sockOf n = s.sockOf n := fun n => (hp.moves n).sockAfter
  constructor
  case held =>
    intro k hk
    obtain ⟨n, hn, hclose | ⟨hcur, hrun, hsock⟩⟩ := h.held k (hp.isOpen k hk)
    · refine ⟨n, hcount ▸ hn, .inl ?_⟩
      obtain hlater | ⟨hnow, hsock⟩ := (hp.moves n).closes hclose
      · exact hlater
      · rw [hp.clears n k hnow hsock] at hk
        cases hk
    · exact ⟨n, hcount ▸ hn, .inr ⟨hnet.trans hcur, hstop.trans hrun, (hsockOf n).trans hsock⟩⟩
  case bound =>
    intro n hn
    rw [hsockOf]
    exact h.bound n (hcount ▸ hn)
  case neverNull => exact fun n hn => (hp.moves n).neverNull (h.neverNull n (hcount ▸ hn))

/-- The strands never stop at a null `sock_`. -/
theorem perform_goes (hnull : ∀ n < s.netportCount, NeverNull n (s.netports n).sock (s.queueOf n))
    (hnum : Numbered s) {strand : ℕ} (hne : s.queues strand ≠ []) :
    ∃ t, s.perform strand = some t := by
  unfold Helper.perform
  split
  case h_1 hq => exact absurd hq hne
  case h_2 => exact ⟨_, rfl⟩
  case h_3 => exact ⟨_, rfl⟩
  case h_4 m rest hq =>
    have hmem : .doClear m ∈ s.queues strand := by
      rw [hq]
      exact List.mem_cons_self
    have hplace : (s.netports m).strand = strand := hnum.inPlace strand _ hmem
    have hqueue : s.queueOf m = .doClear m :: rest := by rw [queueOf, hplace, hq]
    have hnull := hnull m (hnum.calls strand _ hmem)
    rw [hqueue] at hnull
    split
    · exact ⟨_, rfl⟩
    · rename_i hsock
      exact absurd hsock (hnull.1 rfl)

/-! ## A connect completes -/

/-- The helper with the new netport, before the bind is posted. -/
def withNetport (s : Helper) : Helper :=
  { s.setSocket s.socketCount ⟨true, none⟩ with
    connecting := s.connecting - 1
    socketCount := s.socketCount + 1
    netport := some s.netportCount
    netportCount := s.netportCount + 1
    netports := Function.update s.netports s.netportCount ⟨s.strand, none⟩ }

theorem connected_running (hrun : s.stopped = false) (accepted : Bool) :
    s.connected accepted =
      s.withNetport.post s.netportCount (.bindSocket s.netportCount s.socketCount) accepted := by
  simp only [connected, setSocket, hrun, Bool.false_eq_true, if_false, Bool.not_false, withNetport]

section WithNetport

theorem withNetport_netports (hn : n ≠ s.netportCount) :
    s.withNetport.netports n = s.netports n := Function.update_of_ne hn _ _

theorem withNetport_netports_self :
    s.withNetport.netports s.netportCount = ⟨s.strand, none⟩ := Function.update_self ..

theorem withNetport_queueOf (hn : n ≠ s.netportCount) :
    s.withNetport.queueOf n = s.queueOf n := by
  rw [queueOf, withNetport_netports hn]
  rfl

theorem withNetport_willClose (hn : n ≠ s.netportCount) :
    s.withNetport.WillClose n k ↔ s.WillClose n k := by
  rw [WillClose, WillClose, withNetport_netports hn, withNetport_queueOf hn]

theorem withNetport_sockOf (hn : n ≠ s.netportCount) :
    s.withNetport.sockOf n = s.sockOf n := by
  rw [sockOf, sockOf, withNetport_netports hn, withNetport_queueOf hn]

theorem withNetport_isOpen (hk : (s.withNetport.sockets k).isOpen = true) :
    k = s.socketCount ∨ (s.sockets k).isOpen = true := by
  by_cases heq : k = s.socketCount
  · exact .inl heq
  · refine .inr ?_
    simpa only [withNetport, setSocket, Function.update_of_ne heq] using hk

theorem Numbered.withNetport (h : Numbered s) : Numbered s.withNetport where
  inPlace := by
    intro strand call hcall
    rw [withNetport_netports (Nat.ne_of_lt (h.calls strand call hcall))]
    exact h.inPlace strand call hcall
  calls := fun strand call hcall => Nat.lt_succ_of_lt (h.calls strand call hcall)
  failing := fun n hn => Nat.lt_succ_of_lt (h.failing n hn)
  errCb := by
    intro k n hk
    by_cases heq : k = s.socketCount
    · simp [Helper.withNetport, setSocket, heq] at hk
    · simp only [Helper.withNetport, setSocket, Function.update_of_ne heq] at hk
      exact Nat.lt_succ_of_lt (h.errCb k n hk)
  sock := by
    intro n k hk
    by_cases heq : n = s.netportCount
    · rw [heq, withNetport_netports_self] at hk
      cases hk
    · rw [withNetport_netports heq] at hk
      exact Nat.lt_succ_of_lt (h.sock n k hk)
  netport := by
    intro n hn
    obtain rfl := Option.some.inj hn
    exact Nat.lt_succ_self s.netportCount

end WithNetport

theorem neverNull_connected
    (hnull : ∀ n < s.netportCount, NeverNull n (s.netports n).sock (s.queueOf n))
    (hnum : Numbered s) (hrun : s.stopped = false) (accepted : Bool) :
    ∀ n < (s.connected accepted).netportCount,
      NeverNull n ((s.connected accepted).netports n).sock ((s.connected accepted).queueOf n) := by
  rw [connected_running hrun]
  intro n hn
  rw [post_netports, post_queueOf, neverNull_append]
  refine ⟨?_, ?_⟩
  · by_cases heq : n = s.netportCount
    · apply neverNull_of_others
      intro call hcall
      rw [heq]
      exact Nat.ne_of_lt (hnum.calls _ call hcall)
    · rw [withNetport_netports heq, withNetport_queueOf heq]
      simp only [post_netportCount, withNetport] at hn
      exact hnull n (by omega)
  · split <;> trivial

/-- The new netport gets its bind, and the one it replaces is settled. -/
theorem Kept.connected (h : Kept s) (hnum : Numbered s) (hrun : s.stopped = false)
    (hsettled : ∀ n, s.netport = some n → s.Settled n) : Kept (s.connected true) := by
  rw [connected_running hrun]
  have hbind : ∀ n, n ≠ s.netportCount → ∀ j,
      Call.bindSocket s.netportCount s.socketCount ≠ .bindSocket n j := by
    intro n hn j heq
    exact hn (Call.bindSocket.inj heq).1.symm
  have hnew : (s.withNetport.post s.netportCount (.bindSocket s.netportCount s.socketCount)
      true).sockOf s.netportCount = some s.socketCount := by
    rw [sockOf, post_netports, post_queueOf, sockAfter_append, if_pos ⟨rfl, rfl⟩]
    exact if_pos rfl
  constructor
  case held =>
    intro k hk
    rw [post_sockets] at hk
    obtain rfl | hopen := withNetport_isOpen hk
    · refine ⟨s.netportCount, by simp [withNetport], .inr ⟨?_, ?_, hnew⟩⟩
      · rw [post_netport]
        rfl
      · rw [post_stopped]
        exact hrun
    · obtain ⟨n, hn, hheld⟩ := h.held k hopen
      refine ⟨n, by simpa [withNetport] using Nat.lt_succ_of_lt hn, .inl ?_⟩
      have hclose : s.WillClose n k := by
        obtain hclose | ⟨hcur, -, hsock⟩ := hheld
        · exact hclose
        · exact hsettled n hcur k hsock hopen
      exact ((withNetport_willClose (Nat.ne_of_lt hn)).mpr hclose).post _ _ _
  case bound =>
    intro n hn
    by_cases heq : n = s.netportCount
    · rw [heq, hnew]
      nofun
    · rw [sockOf_post (hbind n heq), withNetport_sockOf heq]
      simp only [post_netportCount, withNetport] at hn
      exact h.bound n (by omega)
  case neverNull =>
    rw [← connected_running hrun]
    exact neverNull_connected h.neverNull hnum hrun true

/-! ## All steps -/

/-- Neither the netports, nor the calls, nor what is open has changed. -/
theorem Kept.frame (h : Kept s) (hnetports : t.netports = s.netports) (hqueues : t.queues = s.queues)
    (hopen : ∀ k, (t.sockets k).isOpen = true → (s.sockets k).isOpen = true)
    (hnetport : t.netport = s.netport) (hstopped : t.stopped = s.stopped)
    (hcount : t.netportCount = s.netportCount) : Kept t where
  held := by
    intro k hk
    simp only [WillClose, sockOf, queueOf, hnetports, hqueues, hnetport, hstopped, hcount]
    exact h.held k (hopen k hk)
  bound := by
    simp only [sockOf, queueOf, hnetports, hqueues, hcount]
    exact h.bound
  neverNull := by
    simp only [queueOf, hnetports, hqueues, hcount]
    exact h.neverNull

theorem Numbered.frame (h : Numbered s) (hnetports : t.netports = s.netports)
    (hqueues : t.queues = s.queues) (hfailing : ∀ n ∈ t.failing, n < s.netportCount)
    (herrCb : ∀ k n, (t.sockets k).errCb = some n → (s.sockets k).errCb = some n)
    (hnetport : t.netport = s.netport) (hcount : t.netportCount = s.netportCount) :
    Numbered t where
  inPlace := by
    simp only [InPlace, hnetports, hqueues]
    exact h.inPlace
  calls := by
    rw [hqueues, hcount]
    exact h.calls
  failing := by
    rw [hcount]
    exact hfailing
  errCb := by
    rw [hcount]
    exact fun k n hk => h.errCb k n (herrCb k n hk)
  sock := by
    rw [hnetports, hcount]
    exact h.sock
  netport := by
    rw [hnetport, hcount]
    exact h.netport

/-- A netport calls its `i_on_error`. -/
theorem Numbered.fails (h : Numbered s) (hn : n < s.netportCount) :
    ∀ m ∈ s.failing ++ [n], m < s.netportCount := by
  intro m hm
  obtain hold | hnew := List.mem_append.mp hm
  · exact h.failing m hold
  · rw [List.mem_singleton.mp hnew]
    exact hn

/-- What a socket that is obtained after the stop changes: there is one more that is closed. -/
theorem connected_stopped (hstop : s.stopped = true) (accepted : Bool) :
    s.connected accepted = { s.setSocket s.socketCount ⟨false, none⟩ with
      connecting := s.connecting - 1
      socketCount := s.socketCount + 1 } := by
  simp only [connected, setSocket, hstop, if_true, Bool.not_true]

theorem setSocket_isOpen {sock : Socket} {j : ℕ}
    (hsock : sock.isOpen = true → (s.sockets j).isOpen = true)
    (hk : ((s.setSocket j sock).sockets k).isOpen = true) : (s.sockets k).isOpen = true := by
  by_cases heq : k = j
  · subst heq
    simp only [setSocket, Function.update_self] at hk
    exact hsock hk
  · simpa only [setSocket, Function.update_of_ne heq] using hk

theorem setSocket_errCb {sock : Socket} {j : ℕ} (hsock : sock.errCb = none)
    (hk : ((s.setSocket j sock).sockets k).errCb = some n) : (s.sockets k).errCb = some n := by
  by_cases heq : k = j
  · subst heq
    simp only [setSocket, Function.update_self, hsock] at hk
    cases hk
  · simpa only [setSocket, Function.update_of_ne heq] using hk

theorem post_settled : (s.post n (.doClear n) true).Settled n := by
  intro k hsock _
  rw [sockOf_post (by nofun)] at hsock
  exact willClose_post_clear hsock

theorem Kept.stop (h : Kept s)
    (hsettled : s.stopped = false → ∀ n, s.netport = some n → s.Settled n) :
    Kept { s with stopped := true } where
  held := by
    intro k hk
    obtain ⟨n, hn, hclose | ⟨hcur, hrun, hsock⟩⟩ := h.held k hk
    · exact ⟨n, hn, .inl hclose⟩
    · exact ⟨n, hn, .inl (hsettled hrun n hcur k hsock hk)⟩
  bound := h.bound
  neverNull := h.neverNull

theorem stop_post (s : Helper) (n : ℕ) (call : Call) (accepted : Bool) :
    post { s with stopped := true } n call accepted =
      { s.post n call accepted with stopped := true } := by
  unfold post
  split <;> rfl

theorem Kept.step {a : Action} (h : Kept s) (hnum : Numbered s) (hcareful : s.Careful a)
    (hs : s.step a = some t) : Kept t ∧ Numbered t := by
  cases a with
  | setStrand strand =>
    obtain rfl := Option.some.inj hs
    exact ⟨h.frame rfl rfl (fun _ => id) rfl rfl rfl,
      hnum.frame rfl rfl hnum.failing (fun _ _ => id) rfl rfl⟩
  | start =>
    obtain rfl := Option.some.inj hs
    exact ⟨h.frame rfl rfl (fun _ => id) rfl rfl rfl,
      hnum.frame rfl rfl hnum.failing (fun _ _ => id) rfl rfl⟩
  | connected accepted =>
    simp only [Helper.step] at hs
    split at hs
    · cases hs
    · obtain rfl := Option.some.inj hs
      cases hstop : s.stopped with
      | true =>
        rw [connected_stopped hstop]
        exact ⟨h.frame rfl rfl (fun k => setSocket_isOpen nofun) rfl rfl rfl,
          hnum.frame rfl rfl hnum.failing (fun k n => setSocket_errCb rfl) rfl rfl⟩
      | false =>
        obtain ⟨rfl, hsettled⟩ := hcareful hstop
        refine ⟨h.connected hnum hstop hsettled, ?_⟩
        rw [connected_running hstop]
        exact hnum.withNetport.post (.bindSocket s.netportCount s.socketCount)
          (Nat.lt_succ_self s.netportCount) true
  | connectFailed =>
    simp only [Helper.step] at hs
    split at hs
    · cases hs
    · obtain rfl := Option.some.inj hs
      exact ⟨h.frame rfl rfl (fun _ => id) rfl rfl rfl,
        hnum.frame rfl rfl hnum.failing (fun _ _ => id) rfl rfl⟩
  | socketError k =>
    simp only [Helper.step] at hs
    split at hs
    · rename_i n hn
      obtain rfl := Option.some.inj hs
      exact ⟨h.frame rfl rfl (fun j => setSocket_isOpen id) rfl rfl rfl,
        hnum.frame rfl rfl (hnum.fails (hnum.errCb k n hn)) (fun j m => setSocket_errCb rfl) rfl rfl⟩
    · cases hs
  | badHeader n =>
    simp only [Helper.step] at hs
    split at hs
    · rename_i k hk
      split at hs
      · obtain rfl := Option.some.inj hs
        exact ⟨h.frame rfl rfl (fun _ => id) rfl rfl rfl,
          hnum.frame rfl rfl (hnum.fails (hnum.sock n k hk)) (fun _ _ => id) rfl rfl⟩
      · cases hs
    · cases hs
  | postError i accepted =>
    simp only [Helper.step] at hs
    split at hs
    · rename_i n hi
      obtain rfl := Option.some.inj hs
      have hnum' : Numbered { s with failing := s.failing.eraseIdx i } :=
        hnum.frame rfl rfl (fun m hm => hnum.failing m (List.mem_of_mem_eraseIdx hm))
          (fun _ _ => id) rfl rfl
      have h' : Kept { s with failing := s.failing.eraseIdx i } :=
        h.frame rfl rfl (fun _ => id) rfl rfl rfl
      exact ⟨h'.post (.onError n) nofun n accepted, hnum'.post (.onError n)
        (hnum.failing n (List.mem_of_getElem? hi)) accepted⟩
    · cases hs
  | perform strand => exact ⟨h.perform hnum hs, hnum.perform hs⟩
  | stop accepted =>
    simp only [Helper.step] at hs
    obtain rfl := Option.some.inj hs
    split
    · rename_i n hn
      have hn' : s.netport = some n := hn
      rw [stop_post]
      have hpost := h.post (.doClear n) nofun n accepted
      have hnum' := hnum.post (.doClear n) (hnum.netport n hn') accepted
      refine ⟨hpost.stop fun hrun m hm => ?_,
        hnum'.frame rfl rfl hnum'.failing (fun _ _ => id) rfl rfl⟩
      rw [post_netport, hn'] at hm
      obtain rfl := Option.some.inj hm
      rw [post_stopped] at hrun
      cases accepted with
      | true => exact post_settled
      | false => exact hcareful hrun rfl n hn'
    · rename_i hnone
      refine ⟨h.stop fun _ n hn => ?_, hnum.frame rfl rfl hnum.failing (fun _ _ => id) rfl rfl⟩
      rw [show s.netport = none from hnone] at hn
      cases hn

theorem init_kept : Kept init ∧ Numbered init :=
  ⟨⟨nofun, fun _ hn => absurd hn (Nat.not_lt_zero _), fun _ _ => trivial⟩,
    ⟨fun _ _ => nofun, fun _ _ => nofun, nofun, nofun, nofun, nofun⟩⟩

end Helper

end DevFramework.Connector
