import DevFramework.Netport.Leftovers

/-! # A netport bound again

A run ends with a `clear()`, and the upper layer calls `bind_socket` again. `i_do_clear` leaves
`has_recved_` and `ci_.body_len` as they are, and takes away callbacks that are set before it runs;
`i_bind_socket_strand` sets only the header buffer and `flag_`. A handler of the old socket that has
taken its callback posts to the strand that the new socket uses. What the netport asks of the new
socket and delivers from it is that of a new netport exactly when none of this is in the way.
-/
namespace DevFramework.Netport
open Transition
set_option autoImplicit false
set_option maxHeartbeats 250000

/-! ## A closed netport -/

/-- What `i_do_clear` leaves, apart from `has_recved_` and `ci_.body_len`. -/
def Port.Emptied (s : Port) : Prop :=
  s.isOpen = false → s.cmdBody = none ∧ s.curSend = none ∧ s.cmdInfoList = []

section Emptied
variable {env : Env} {s t : Port}

theorem Emptied.frame (h : s.Emptied) (hopen : t.isOpen = s.isOpen) (hbody : t.cmdBody = s.cmdBody)
    (hcur : t.curSend = s.curSend) (hlist : t.cmdInfoList = s.cmdInfoList) : t.Emptied := by
  unfold Port.Emptied
  rw [hopen, hbody, hcur, hlist]
  exact h

theorem Emptied.post (h : s.Emptied) (call : StrandCall) : (s.post env call).Emptied := by
  unfold Port.post
  split <;> exact Emptied.frame h rfl rfl rfl rfl

theorem emptied_iDoClear (s : Port) : s.iDoClear.Emptied := by
  rw [iDoClear_eq]
  exact fun _ => ⟨rfl, rfl, rfl⟩

theorem Emptied.exec (h : s.Emptied) (call : StrandCall) : (s.exec env call).Emptied := by
  have hopened : ∀ {u : Port}, s.isOpen = true → u.isOpen = s.isOpen → u.Emptied := by
    intro u hopen hu hclosed
    rw [hu, hopen] at hclosed
    cases hclosed
  cases call with
  | sendMessage ci =>
    cases hopen : s.isOpen with
    | true =>
      obtain ⟨_, _, _, _, _, _, _, ht, -, -⟩ := iSendMessageStrand_frame s ci
      refine hopened hopen ?_
      simp only [Port.exec, ht]
    | false =>
      simp only [Port.exec]
      rw [iSendMessageStrand_closed s hopen]
      exact Emptied.frame h rfl rfl rfl rfl
  | onRecv bt err =>
    cases hopen : s.isOpen with
    | true =>
      obtain ⟨_, ⟨_, _, _, _, _, _, _, _, ht, -, -⟩, -⟩ := iOnRecvStrand_frame env s bt err
      refine hopened hopen ?_
      simp only [Port.exec, ht]
    | false =>
      have hstill : s.exec env (.onRecv bt err) = s := if_pos (.inr hopen)
      rw [hstill]
      exact h
  | onSend bt err =>
    cases hopen : s.isOpen with
    | true =>
      obtain ⟨_, _, _, _, _, _, _, ht, -, -⟩ := iOnSendStrand_frame s bt
      refine hopened hopen ?_
      simp only [Port.exec, ht]
    | false =>
      obtain ⟨hbody, -, hlist⟩ := h hopen
      simp only [Port.exec]
      rw [iOnSendStrand_last s bt hlist]
      exact fun _ => ⟨hbody, rfl, hlist⟩
  | onError err => exact emptied_iDoClear _
  | doClear => exact emptied_iDoClear s
  | other => exact h

theorem Emptied.work (h : s.Emptied) (hs : s.work env = some t) : t.Emptied := by
  obtain ⟨call, rest, -, rfl⟩ := step_work_iff.mp hs
  have hpop : ({ s with queue := rest } : Port).Emptied := h
  exact Emptied.exec hpop call

theorem Emptied.take (h : s.Emptied) {calls : List StrandCall} (ht : Taken s t calls) :
    t.Emptied := by
  cases ht with
  | recvDone i r bytes =>
    intro hclosed
    obtain ⟨hbody, hcur, hlist⟩ := h hclosed
    refine ⟨?_, hcur, hlist⟩
    simp [Port.received, Port.log, hbody]
  | sendDone | recvFail | sendFail => exact Emptied.frame h rfl rfl rfl rfl

theorem Emptied.step (h : s.Emptied) {a : Action} (ha : a.completes = false)
    (hs : step env s a = some t) : t.Emptied := by
  cases a with
  | send buf =>
    obtain ⟨-, rfl⟩ | ⟨-, rfl⟩ := step_send_iff.mp hs
    · exact h
    · simp only [Port.sendMessage]
      split <;> exact Emptied.frame h rfl rfl rfl rfl
  | clear =>
    obtain rfl := Option.some.inj hs
    exact Emptied.post h _
  | other =>
    obtain rfl := Option.some.inj hs
    exact Emptied.post h _
  | work => exact Emptied.work h hs
  | transmit i n =>
    obtain ⟨r, -, -, -, -, rfl⟩ := step_transmit_iff.mp hs
    exact Emptied.frame h rfl rfl rfl rfl
  | recvDone | recvFail | sendDone | sendFail => cases ha

end Emptied

namespace Life
variable {env : Env} {s t : Life}

theorem emptied_step (h : s.port.Emptied) {a : Action} (hs : step env s a = some t) :
    t.port.Emptied := by
  cases a with
  | port a =>
    by_cases hwork : a = .work
    · subst hwork
      simp only [step, work] at hs
      split at hs
      · cases hs
      · rename_i p hp
        have hwork := Emptied.work h hp
        split at hs
        · split at hs <;> cases hs
          exact fun hclosed => by cases hclosed
        · cases hs
          exact hwork
        · cases hs
          exact hwork
    · rw [step_port env s hwork] at hs
      split at hs
      · obtain ⟨⟨p, calls⟩, hp, rfl⟩ := Option.map_eq_some_iff.mp hs
        exact Emptied.take h (take_inv hp)
      · rename_i ha
        obtain ⟨p, hp, rfl⟩ := Option.map_eq_some_iff.mp hs
        exact Emptied.step h (Bool.eq_false_iff.mpr ha) hp
  | put i =>
    simp only [step] at hs
    split at hs <;> cases hs
    exact Emptied.post h _
  | setRecvCallback | setSendCallback | setErrorCallback =>
    cases hs
    exact Emptied.frame h rfl rfl rfl rfl
  | bindSocket =>
    simp only [step, bindSocket] at hs
    split at hs <;> cases hs
    exact Emptied.post h _

/-! ## The calls on their way -/

/-- A step other than one of the worker only adds calls to its list. -/
theorem step_grow {a : Action} (hwork : a ≠ .port .work) (hs : step env s a = some t) :
    (∃ sent, t.port.queue = s.port.queue ++ sent) ∧ t.port.isOpen = s.port.isOpen ∧
      (a ≠ .bindSocket → t.binding = s.binding) := by
  cases a with
  | port a =>
    have ha : a ≠ .work := fun h => hwork (h ▸ rfl)
    rw [step_port env s ha] at hs
    split at hs
    · obtain ⟨⟨p, sent⟩, hp, rfl⟩ := Option.map_eq_some_iff.mp hs
      have hkeep : p.queue = s.port.queue ∧ p.isOpen = s.port.isOpen := by
        cases take_inv hp <;> exact ⟨rfl, rfl⟩
      exact ⟨⟨[], by simpa using hkeep.1⟩, hkeep.2, fun _ => rfl⟩
    · rename_i hcompletes
      obtain ⟨p, hp, rfl⟩ := Option.map_eq_some_iff.mp hs
      have hsender : a.ofSender = true := by
        cases a <;> first | rfl | exact absurd rfl ha | exact absurd rfl hcompletes
      obtain ⟨sent, hst, -⟩ := sender_step_frame hsender hp
      have hopen : p.isOpen = s.port.isOpen := by
        obtain ⟨_, _, _, _, _, _, _, rfl, -, -⟩ := hst
        rfl
      exact ⟨⟨sent, hst.queue⟩, hopen, fun _ => rfl⟩
  | put i =>
    simp only [step] at hs
    split at hs <;> cases hs
    obtain ⟨sent, hqueue, -⟩ := post_queue env s.port _
    exact ⟨⟨sent, hqueue⟩, post_isOpen _ _, fun _ => rfl⟩
  | setRecvCallback | setSendCallback | setErrorCallback =>
    cases hs
    exact ⟨⟨[], (List.append_nil _).symm⟩, rfl, fun _ => rfl⟩
  | bindSocket =>
    simp only [step, bindSocket] at hs
    split at hs <;> cases hs
    obtain ⟨sent, hqueue, -⟩ := post_queue env s.port .other
    exact ⟨⟨sent, hqueue⟩, post_isOpen _ _, fun h => absurd rfl h⟩

/-- A step of the worker: the strand call of the bind, or another one. -/
theorem step_work_cases (hs : step env s (.port .work) = some t) :
    ∃ call rest sent, s.port.queue = call :: rest ∧ t.hand = s.hand ∧
      t.port.queue = rest ++ sent ∧ (sent = [] ∨ sent = [.onError badHeader]) ∧
      (s.binding = some 0 ∧ t.binding = none ∨
        s.binding ≠ some 0 ∧ t.binding = s.binding.map Nat.pred ∧
          t.port = { s.port with queue := rest }.exec env call) := by
  simp only [step, work] at hs
  split at hs
  · cases hs
  · rename_i p hp
    obtain ⟨call, rest, hqueue, rfl⟩ := step_work_iff.mp hp
    obtain ⟨sent, hsent, hcalls⟩ := exec_posts env { s.port with queue := rest } call
    have hsome : sent = [] ∨ sent = [.onError badHeader] := hcalls.imp_right And.right
    split at hs
    · rename_i hbinding
      split at hs <;> cases hs
      refine ⟨call, rest, sent, hqueue, rfl, ?_, hsome, .inl ⟨hbinding, rfl⟩⟩
      exact hsent
    · rename_i n hbinding
      cases hs
      exact ⟨call, rest, sent, hqueue, rfl, hsent, hsome,
        .inr ⟨by simp [hbinding], by simp [hbinding], rfl⟩⟩
    · rename_i hbinding
      cases hs
      exact ⟨call, rest, sent, hqueue, rfl, hsent, hsome,
        .inr ⟨by simp [hbinding], by simp [hbinding], rfl⟩⟩

theorem fine_of_not_isOnRecv {call : StrandCall} (h : call.isOnRecv = false) :
    call.fine = true := by
  cases call <;> first | rfl | cases h

theorem fine_step (h : ∀ call ∈ s.calls, call.fine = true) {a : Action}
    (hs : step env s a = some t) : ∀ call ∈ t.calls, call.fine = true := by
  have hqueue : ∀ call ∈ s.port.queue, call.fine = true := fun call hc =>
    h call (List.mem_append_left _ hc)
  have hhand : ∀ call ∈ s.hand, call.fine = true := fun call hc =>
    h call (List.mem_append_right _ hc)
  cases a with
  | port a =>
    by_cases hwork : a = .work
    · subst hwork
      obtain ⟨call, rest, sent, hq, hkeep, hnow, hsent, -⟩ := step_work_cases hs
      rw [hq] at hqueue
      have hfine : ∀ c ∈ sent, c.fine = true := by
        rcases hsent with rfl | rfl
        · exact List.forall_mem_nil _
        · exact List.forall_mem_singleton.mpr rfl
      rw [calls, hkeep, hnow]
      exact List.forall_mem_append.mpr
        ⟨List.forall_mem_append.mpr ⟨(List.forall_mem_cons.mp hqueue).2, hfine⟩, hhand⟩
    · rw [step_port env s hwork] at hs
      split at hs
      · obtain ⟨⟨p, sent⟩, hp, rfl⟩ := Option.map_eq_some_iff.mp hs
        have hkeep : p.queue = s.port.queue ∧ ∀ c ∈ sent, c.fine = true := by
          cases take_inv hp <;> refine ⟨rfl, ?_⟩ <;>
          · split
            · exact List.forall_mem_singleton.mpr rfl
            · exact List.forall_mem_nil _
        rw [calls, hkeep.1]
        exact List.forall_mem_append.mpr ⟨hqueue, List.forall_mem_append.mpr ⟨hhand, hkeep.2⟩⟩
      · rename_i hcompletes
        obtain ⟨p, hp, rfl⟩ := Option.map_eq_some_iff.mp hs
        have hsender : a.ofSender = true := by
          cases a <;> first | rfl | exact absurd rfl hwork | exact absurd rfl hcompletes
        obtain ⟨sent, hst, hsent⟩ := sender_step_frame hsender hp
        rw [calls, hst.queue]
        exact List.forall_mem_append.mpr ⟨List.forall_mem_append.mpr ⟨hqueue, fun c hc =>
          fine_of_not_isOnRecv (hsent c hc).1⟩, hhand⟩
  | put i =>
    simp only [step] at hs
    split at hs <;> cases hs
    rename_i call hi
    obtain ⟨sent, hsent, rfl | rfl⟩ := post_queue env s.port call
    · rw [calls, hsent, List.append_nil]
      exact fun c hc => h c ((calls_erase hi).subset (List.mem_cons_of_mem _ hc))
    · rw [calls, hsent]
      exact fun c hc => h c ((calls_put hi).subset hc)
  | setRecvCallback | setSendCallback | setErrorCallback =>
    cases hs
    exact h
  | bindSocket =>
    simp only [step, bindSocket] at hs
    split at hs <;> cases hs
    obtain ⟨sent, hsent, rfl | rfl⟩ := post_queue env s.port .other
    · rw [calls, hsent, List.append_nil]
      exact h
    · rw [calls, hsent]
      exact List.forall_mem_append.mpr
        ⟨List.forall_mem_append.mpr ⟨hqueue, List.forall_mem_singleton.mpr rfl⟩, hhand⟩

/-! ## From the clear to the bind -/

/-- The call of the bind is where `binding` says. -/
def Marked (s : Life) : Prop := ∀ n, s.binding = some n → s.port.queue[n]? = some .other

theorem marked_step (h : Marked s) {a : Action} (hs : step env s a = some t) : Marked t := by
  intro n hn
  by_cases hwork : a = .port .work
  · subst hwork
    obtain ⟨call, rest, sent, hq, -, hnow, -, ⟨-, hnone⟩ | ⟨hpos, hmap, -⟩⟩ := step_work_cases hs
    · rw [hnone] at hn
      cases hn
    · rw [hmap] at hn
      obtain ⟨m, hm, rfl⟩ := Option.map_eq_some_iff.mp hn
      cases m with
      | zero => exact absurd hm hpos
      | succ m =>
        have hmark := h (m + 1) hm
        rw [hq, List.getElem?_cons_succ] at hmark
        rw [hnow, Nat.pred_succ, List.getElem?_append_left]
        · exact hmark
        · exact (List.getElem?_eq_some_iff.mp hmark).1
  obtain ⟨⟨sent, hsent⟩, -, hbinding⟩ := step_grow hwork hs
  by_cases hbind : a = .bindSocket
  · subst hbind
    simp only [step, bindSocket] at hs
    split at hs <;> cases hs
    by_cases hbusy : env.busy s.port.queue.length = true
    · rw [if_pos hbusy] at hn
      cases hn
    · rw [if_neg hbusy] at hn
      cases hn
      rw [post_free (Bool.eq_false_iff.mpr hbusy)]
      exact List.getElem?_concat_length
  · have hmark := h n ((hbinding hbind).symm.trans hn)
    rw [hsent, List.getElem?_append_left]
    · exact hmark
    · exact (List.getElem?_eq_some_iff.mp hmark).1

/-- A `clear()` waits on the strand behind any bind, or has closed the socket. -/
def Clearing (s : Life) : Prop :=
  (s.binding = none → s.port.isOpen = false ∨ .doClear ∈ s.port.queue) ∧
    ∀ n, s.binding = some n → .doClear ∈ s.port.queue.drop (n + 1)

/-- A `clear()` waits on the strand before the bind, or has closed the socket. -/
def ClearsFirst (s : Life) : Prop :=
  ∀ n, s.binding = some n → s.port.isOpen = false ∨ .doClear ∈ s.port.queue.take n

theorem exec_closes {p : Port} {call : StrandCall}
    (h : p.isOpen = false ∨ call = .doClear) : (p.exec env call).isOpen = false := by
  rcases h with hclosed | rfl
  · exact (exec_closed hclosed call).1
  · exact (iDoClear_closed p).1

theorem clearing_step (h : Clearing s) {a : Action} (hbind : a ≠ .bindSocket)
    (hs : step env s a = some t) : Clearing t := by
  obtain ⟨hnone, hsome⟩ := h
  by_cases hwork : a = .port .work
  · subst hwork
    obtain ⟨call, rest, sent, hq, -, hnow, -, ⟨hzero, hdone⟩ | ⟨hpos, hmap, hport⟩⟩ :=
      step_work_cases hs
    · have hwaits := hsome 0 hzero
      rw [hq, List.drop_succ_cons, List.drop_zero] at hwaits
      refine ⟨fun _ => .inr ?_, fun n hn => ?_⟩
      · rw [hnow]
        exact List.mem_append_left _ hwaits
      · rw [hdone] at hn
        cases hn
    · rw [Clearing, hmap, hnow]
      refine ⟨fun hn => ?_, fun n hn => ?_⟩
      · have hfree := hnone (Option.map_eq_none_iff.mp hn)
        rw [hq] at hfree
        rcases hfree with hclosed | hmem
        · exact .inl (hport ▸ exec_closes (.inl hclosed))
        · rcases List.mem_cons.mp hmem with hcall | hrest
          · exact .inl (hport ▸ exec_closes (.inr hcall.symm))
          · exact .inr (List.mem_append_left _ hrest)
      · obtain ⟨m, hm, rfl⟩ := Option.map_eq_some_iff.mp hn
        cases m with
        | zero => exact absurd hm hpos
        | succ m =>
          have hwaits := hsome (m + 1) hm
          rw [hq, List.drop_succ_cons] at hwaits
          rw [Nat.pred_succ, List.drop_append]
          exact List.mem_append_left _ hwaits
  · obtain ⟨⟨sent, hsent⟩, hopen, hbinding⟩ := step_grow hwork hs
    rw [Clearing, hbinding hbind, hsent, hopen]
    refine ⟨fun hn => (hnone hn).imp_right (List.mem_append_left _), fun n hn => ?_⟩
    rw [List.drop_append]
    exact List.mem_append_left _ (hsome n hn)

theorem clearsFirst_step (h : ClearsFirst s) {a : Action} (hbind : a ≠ .bindSocket)
    (hs : step env s a = some t) : ClearsFirst t := by
  intro n hn
  by_cases hwork : a = .port .work
  · subst hwork
    obtain ⟨call, rest, sent, hq, -, hnow, -, ⟨hzero, hdone⟩ | ⟨hpos, hmap, hport⟩⟩ :=
      step_work_cases hs
    · rw [hdone] at hn
      cases hn
    · rw [hmap] at hn
      obtain ⟨m, hm, rfl⟩ := Option.map_eq_some_iff.mp hn
      cases m with
      | zero => exact absurd hm hpos
      | succ m =>
        have hfirst := h (m + 1) hm
        rw [hq, List.take_succ_cons] at hfirst
        rw [hnow, Nat.pred_succ, List.take_append]
        rcases hfirst with hclosed | hmem
        · exact .inl (hport ▸ exec_closes (.inl hclosed))
        · rcases List.mem_cons.mp hmem with hcall | hrest
          · exact .inl (hport ▸ exec_closes (.inr hcall.symm))
          · exact .inr (List.mem_append_left _ hrest)
  · obtain ⟨⟨sent, hsent⟩, hopen, hbinding⟩ := step_grow hwork hs
    rw [hsent, hopen, List.take_append]
    exact (h n ((hbinding hbind).symm.trans hn)).imp_right (List.mem_append_left _)

/-- No other `bind_socket`. -/
def NoBind (_ : Life) (a : Action) : Prop := a ≠ .bindSocket

/-- A run ends with a `clear()` that the worker takes; then `bind_socket` is called, and in `s` its
strand call is the next one. The callbacks may be set, and anything else may happen, at any time. -/
def Rebinds (env : Env) (load : ℕ) (s : Life) : Prop :=
  ∃ s₀ s₁ s₂ s₃, Reachable (step env) (bound load) s₀ ∧
    env.busy s₀.port.queue.length = false ∧ step env s₀ (.port .clear) = some s₁ ∧
    Reach (step env) NoBind s₁ s₂ ∧ step env s₂ .bindSocket = some s₃ ∧
    Reach (step env) NoBind s₃ s ∧ s.binding = some 0

theorem Reach.unguarded {ok : Life → Action → Prop} (h : Reach (step env) ok s t) :
    Reachable (step env) s t :=
  h.strengthen (P := fun _ => True) trivial (fun _ _ _ _ _ _ => trivial) fun _ _ _ _ => trivial

theorem Rebinds.reachable {load : ℕ} (h : Rebinds env load s) :
    Reachable (step env) (bound load) s := by
  obtain ⟨s₀, s₁, s₂, s₃, h₀, -, hclear, h₂, hbind, h₃, -⟩ := h
  have h₁ := h₀.tail trivial hclear
  exact ((h₁.trans (Reach.unguarded h₂)).tail trivial hbind).trans (Reach.unguarded h₃)

/-- The strand has closed the socket when it comes to the bind. -/
theorem Rebinds.closed {load : ℕ} (h : Rebinds env load s) : s.port.isOpen = false := by
  obtain ⟨s₀, s₁, s₂, s₃, h₀, hbusy, hclear, h₂, hbind, h₃, hnext⟩ := h
  have hmarked : Marked s₀ := h₀.invariant (fun n hn => by cases hn)
    fun _ _ _ hm _ hs => marked_step hm hs
  have hport : s₁ = { s₀ with port := { s₀.port with queue := s₀.port.queue ++ [.doClear] } } := by
    rw [step_port env s₀ (by decide)] at hclear
    simp only [Action.completes, Netport.step, post_free hbusy] at hclear
    exact (Option.some.inj hclear).symm
  have hclearing : Clearing s₁ := by
    subst hport
    refine ⟨fun _ => .inr (List.mem_append_right _ List.mem_cons_self), fun n hn => ?_⟩
    have hlt := (List.getElem?_eq_some_iff.mp (hmarked n hn)).1
    show StrandCall.doClear ∈ (s₀.port.queue ++ [StrandCall.doClear]).drop (n + 1)
    rw [List.drop_append, Nat.sub_eq_zero_of_le hlt]
    exact List.mem_append_right _ List.mem_cons_self
  have hcleared : Clearing s₂ := h₂.invariant hclearing fun _ _ _ hc hok hs =>
    clearing_step hc hok hs
  have hfirst : ClearsFirst s₃ := by
    intro n hn
    simp only [step, bindSocket] at hbind
    split at hbind
    · cases hbind
    · rename_i hnone
      cases hbind
      have hfree := hcleared.1 hnone
      by_cases hbusy : env.busy s₂.port.queue.length = true
      · rw [if_pos hbusy] at hn
        cases hn
      · rw [if_neg hbusy] at hn
        cases hn
        rw [post_free (Bool.eq_false_iff.mpr hbusy)]
        refine hfree.imp_right fun hmem => ?_
        rw [List.take_left']
        · exact hmem
        · rfl
  have hlast : ClearsFirst s := h₃.invariant hfirst fun _ _ _ hc hok hs =>
    clearsFirst_step hc hok hs
  refine (hlast 0 hnext).resolve_right fun hmem => ?_
  rw [List.take_zero] at hmem
  cases hmem

/-! ## The bind -/

/-- A netport after a bind, with what may be left from the connection before. -/
def connected (recvCb sendCb errCb : Bool) (hasRecved bodyLen : ℤ) (made : ℕ)
    (queue : List StrandCall) : Port where
  flag := 1
  hasRecved := hasRecved
  cmdHdr := some ⟨made, zeros⟩
  cmdBody := none
  bodyLen := bodyLen
  errCb := errCb
  recvCb := recvCb
  sendCb := sendCb
  curSend := none
  cmdInfoList := []
  isOpen := true
  sockRecvCb := true
  sockSendCb := true
  sockErrCb := true
  recvs := [⟨made, 0, headerLen⟩]
  sends := []
  queue := queue
  made := made + 1
  posted := []
  trace := [.recvReq ⟨made, 0, headerLen⟩]

theorem iBindSocketStrand_emptied {p : Port} (h : p.Emptied) (hclosed : p.isOpen = false) :
    p.iBindSocketStrand =
      connected p.recvCb p.sendCb p.errCb p.hasRecved p.bodyLen p.made p.queue := by
  obtain ⟨flag, hasRecved, cmdHdr, cmdBody, bodyLen, errCb, recvCb, sendCb, curSend, cmdInfoList,
    isOpen, sockRecvCb, sockSendCb, sockErrCb, recvs, sends, queue, made, posted, trace⟩ := p
  obtain ⟨hbody, hcur, hlist⟩ := h hclosed
  simp only at hbody hcur hlist
  subst hbody hcur hlist
  rfl

theorem Rebinds.step_bind {load : ℕ} (h : Rebinds env load s) :
    ∃ rest, s.port.queue = .other :: rest ∧ step env s (.port .work) =
      some ⟨connected s.port.recvCb s.port.sendCb s.port.errCb s.port.hasRecved s.port.bodyLen
        s.port.made rest, s.hand, none⟩ := by
  have hclosed := h.closed
  have hreach := h.reachable
  have hmarked : Marked s := hreach.invariant (fun n hn => by cases hn)
    fun _ _ _ hm _ hs => marked_step hm hs
  have hemptied : s.port.Emptied := hreach.invariant (fun hclosed => by cases hclosed)
    fun _ _ _ hi _ hs => emptied_step hi hs
  obtain ⟨_, _, _, _, -, -, -, -, -, -, hnext⟩ := h
  have hmark := hmarked 0 hnext
  cases hqueue : s.port.queue with
  | nil => simp [hqueue] at hmark
  | cons call rest =>
    rw [hqueue, List.getElem?_cons_zero] at hmark
    obtain rfl := Option.some.inj hmark
    have hport : s.port.work env = some { s.port with queue := rest } := by
      simp only [Port.work, hqueue, Port.exec]
    have hpop : ({ s.port with queue := rest } : Port).Emptied := hemptied
    refine ⟨rest, rfl, ?_⟩
    simp only [step, work, hport, hnext]
    rw [if_neg (by simp [hclosed]), iBindSocketStrand_emptied hpop hclosed]

theorem step_fresh (flag : ℤ) (made : ℕ) (queue : List StrandCall) :
    step env (fresh flag made queue) (.port .work) =
      some ⟨connected true true true 0 0 made queue, [], none⟩ :=
  rfl

/-- On the socket bound next, however the connection goes on, the requests and the calls of `recv_cb_`
are the first ones of a new netport that receives the same; when the upper layer does not clear the
netport, no operation fails and nothing is on its way any more, they are all of them. -/
def AsFresh (env : Env) (flag : ℤ) (s : Life) : Prop :=
  ∀ acts t, (∀ a ∈ acts, a.stays = true) → run (step env) s (.port .work :: acts) = some t →
    ∃ u, run (step env) (fresh flag s.port.made [])
        (.port .work :: receives t.port.blocks) = some u ∧
      t.port.heard s.port.made <+: u.port.heard s.port.made ∧
      ((∀ a ∈ acts, a.calm = true) → t.Settled →
        t.port.heard s.port.made = u.port.heard s.port.made)

section
variable {recvCb sendCb errCb : Bool} {hasRecved bodyLen : ℤ} {made : ℕ} {rest : List StrandCall}

theorem awaits_connected (recvCb sendCb errCb : Bool) (hasRecved bodyLen : ℤ) (made : ℕ)
    (rest : List StrandCall) :
    AwaitsHeader made (connected recvCb sendCb errCb hasRecved bodyLen made rest) :=
  ⟨rfl, rfl, rfl, rfl, rfl, rfl, Nat.lt_succ_self made⟩

theorem connected_heard :
    (connected recvCb sendCb errCb hasRecved bodyLen made rest).heard made =
      [.request true 0 headerLen] := by
  simp [connected, Port.heard, Event.heard?]

theorem connected_unlost :
    (connected recvCb sendCb errCb hasRecved bodyLen made rest).Unlost := by
  intro bt err hmem
  cases List.mem_singleton.mp hmem

/-- Nothing is left: the connection goes on beside that of a new netport. -/
theorem tracks_connected (env : Env) (ok : Prop) (sendCb errCb : Bool) (made : ℕ)
    {hand : List StrandCall}
    (hquiet : ∀ call ∈ rest ++ hand, call.noisy = false) :
    Tracks env ok made ⟨connected true true true 0 0 made [], [], none⟩
      ⟨connected true sendCb errCb 0 0 made rest, hand, none⟩ := by
  have hnone : ∀ f : StrandCall → Bool, (∀ call, f call = true → call.noisy = true) →
      (rest ++ hand).filter f = [] := by
    intro f hf
    refine List.filter_eq_nil_iff.mpr fun call hcall htrue => ?_
    cases (hquiet call hcall).symm.trans (hf call htrue)
  refine .waits rfl rfl ?_ ⟨_, _, rfl, rfl, rfl, rfl, .inl ⟨rfl, rfl⟩⟩ ?_ ?_ fun _ => ?_
  · exact ⟨rfl, rfl, rfl, rfl, ⟨rfl, rfl⟩, ⟨rfl, rfl⟩, ⟨_, rfl, rfl⟩, trivial,
      ⟨Nat.lt_succ_self made, Nat.lt_succ_self made⟩⟩
  · exact hnone _ fun call h => by simp [StrandCall.noisy, h]
  · exact connected_heard.trans connected_heard.symm
  · exact hnone _ fun call h => by simp [StrandCall.noisy, h]

/-- Each calm run to its end is heard as that of a new netport. -/
def HeardAsNew (env : Env) (made : ℕ) (s : Life) : Prop :=
  ∀ acts t, (∀ a ∈ acts, a.calm = true) → run (step env) s acts = some t → t.Settled →
    ∃ u, run (step env) ⟨connected true true true 0 0 made [], [], none⟩
        (receives t.port.blocks) = some u ∧
      t.port.heard made = u.port.heard made

theorem HeardAsNew.same {s t u : Life} {acts : List Action} {blocks : List (List UInt8)}
    (h : HeardAsNew env made s) (hcalm : ∀ a ∈ acts, a.calm = true)
    (hrun : run (step env) s acts = some t) (hsettled : t.Settled) (hblocks : t.port.blocks = blocks)
    (hu : run (step env) ⟨connected true true true 0 0 made [], [], none⟩ (receives blocks) = some u) :
    t.port.heard made = u.port.heard made := by
  obtain ⟨v, hv, hsame⟩ := h acts t hcalm hrun hsettled
  rw [hblocks, hu] at hv
  obtain rfl := Option.some.inj hv
  exact hsame

theorem HeardAsNew.run {s t : Life} {acts : List Action} (h : HeardAsNew env made s)
    (hcalm : ∀ a ∈ acts, a.calm = true) (hrun : Transition.run (step env) s acts = some t) :
    HeardAsNew env made t := by
  intro more u hmore hrest
  refine h (acts ++ more) u (List.forall_mem_append.mpr ⟨hcalm, hmore⟩) ?_
  rw [run_append, hrun, Option.bind_some, hrest]

theorem quiet_of_heardAsNew (hfree : env.busy 0 = false) {hand : List StrandCall}
    (hfine : ∀ call ∈ rest ++ hand, call.fine = true)
    (h : HeardAsNew env made
      ⟨connected recvCb sendCb errCb hasRecved bodyLen made rest, hand, none⟩) :
    ∀ call ∈ rest ++ hand, call.noisy = false := by
  intro call hcall
  by_contra hnot
  obtain ⟨acts, t, n, hrun, hcalm, hsettled, hblocks, hasked⟩ := exists_deaf hfree
    (awaits_connected recvCb sendCb errCb hasRecved bodyLen made rest)
    (by rw [Port.asked, connected_heard]; rfl) rfl connected_unlost hfine
    ⟨call, hcall, by simpa using hnot⟩
  obtain ⟨q, hq, hcount⟩ := run_receives_alone hfree (awaits_connected true true true 0 0 made [])
    rfl n
  have hheard := h.same hcalm hrun hsettled hblocks hq
  have hone : (connected true true true 0 0 made []).asked made = 1 := by
    rw [Port.asked, connected_heard]
    rfl
  have hsame : t.port.asked made = q.asked made := Port.asked_eq hheard
  omega

theorem arrive_calm (bytes : List UInt8) : ∀ a ∈ arrive bytes, a.calm = true := by
  intro a ha
  simp only [arrive, List.mem_cons, List.not_mem_nil, or_false] at ha
  rcases ha with rfl | rfl | rfl <;> rfl

/-- A header that announces a body of 4097 bytes, and the first part of the body. -/
def long : List UInt8 := header [1, 16, 0, 0]

def part : List UInt8 := List.replicate 2048 0

section Clean
variable {q : Port} (hfree : env.busy 0 = false) (h : HeardAsNew env made ⟨q, [], none⟩)
  (hawaits : AwaitsHeader made q) (hempty : q.queue = [])
  (hbeside : Beside made (connected recvCb sendCb errCb hasRecved bodyLen made rest) q)
include hfree h hawaits hempty hbeside

/-- A message without body tells whether `recv_cb_` is set and `body_len` is zero. -/
theorem recvCb_of_heardAsNew : q.recvCb = true ∧ q.bodyLen = 0 := by
  have hnew := awaits_connected true true true 0 0 made []
  obtain ⟨t, ht, -, htempty, -, htheard, htblocks, htunlost⟩ := run_alone hfree hawaits hempty
  obtain ⟨u, hu, -, -, -, huheard, -, -⟩ := run_alone hfree hnew rfl
  have hsettled := settled_of_unlost htempty (htunlost (hbeside.unlost connected_unlost))
  have hblocks : t.blocks = [alone] := by
    rw [htblocks, hbeside.blocks]
    rfl
  have hrecv : receives [alone] = arrive alone := List.append_nil _
  rw [← hrecv] at hu
  have hsame : t.heard made = u.heard made := h.same (arrive_calm alone) ht hsettled hblocks hu
  rw [htheard, huheard, hbeside.heard, connected_heard, connected_heard] at hsame
  have hcalls := List.append_cancel_right (List.append_cancel_left hsame)
  by_contra hnot
  rw [aloneCalls, if_neg hnot] at hcalls
  cases hcalls

/-- The second part of a long body tells `has_recved_`. -/
theorem hasRecved_of_heardAsNew (hcb : q.recvCb = true) : q.hasRecved = 0 := by
  have hnew := awaits_connected true true true 0 0 made []
  have hclone : clone long = some long := by decide
  have hlen : getBodyLen long = 4097 := by decide
  have hlong : tpMaxRecvSize < getBodyLen long := by rw [hlen]; decide
  have hpart : (part.length : ℤ) = tpMaxRecvSize := by
    rw [part, List.length_replicate]
    rfl
  obtain ⟨t, e, later, ht, htempty, htheard, htcase, htblocks, htunlost⟩ :=
    run_long (by decide) hclone hlong hpart hfree hawaits hempty hcb
  obtain ⟨u, e', later', hu, -, huheard, hucase, -, -⟩ :=
    run_long (by decide) hclone hlong hpart hfree hnew rfl rfl
  have hsettled := settled_of_unlost htempty (htunlost (hbeside.unlost connected_unlost))
  have hcalm := List.forall_mem_append.mpr ⟨arrive_calm long, arrive_calm part⟩
  have hblocks : t.blocks = [long, part] := by
    rw [htblocks, hbeside.blocks]
    rfl
  have hrecv : receives [long, part] = arrive long ++ arrive part := by
    simp [receives]
  rw [← hrecv] at hu
  have hsame : t.heard made = u.heard made := h.same hcalm ht hsettled hblocks hu
  rw [htheard, huheard, hbeside.heard, connected_heard, connected_heard] at hsame
  have hnext := (List.cons.inj (List.append_cancel_left hsame)).2
  obtain rfl := (List.cons.inj hnext).1
  rcases hucase with ⟨len', rfl⟩ | ⟨hlast, -⟩
  · rcases htcase with ⟨len, heq⟩ | ⟨-, d, heq⟩
    · have hplace := (Heard.request.inj heq).2.1
      change 0 + tpMaxRecvSize = q.hasRecved + tpMaxRecvSize at hplace
      omega
    · cases heq
  · rw [hlen] at hlast
    change 0 + tpMaxRecvSize = 4097 at hlast
    exact absurd hlast (by decide)

end Clean

theorem clean_of_heardAsNew (hfree : env.busy 0 = false) {hand : List StrandCall}
    (hquiet : ∀ call ∈ rest ++ hand, call.noisy = false)
    (h : HeardAsNew env made
      ⟨connected recvCb sendCb errCb hasRecved bodyLen made rest, hand, none⟩) :
    recvCb = true ∧ hasRecved = 0 ∧ bodyLen = 0 := by
  obtain ⟨acts, q, hrun, hacts, hempty, hbeside⟩ := exists_quiet made hfree
    (connected recvCb sendCb errCb hasRecved bodyLen made rest) hand hquiet
  have hawaits := (awaits_connected recvCb sendCb errCb hasRecved bodyLen made rest).beside hbeside
  have hq := h.run hacts hrun
  obtain ⟨hcb, hbody⟩ := recvCb_of_heardAsNew hfree hq hawaits hempty hbeside
  have hrecved := hasRecved_of_heardAsNew hfree hq hawaits hempty hbeside hcb
  exact ⟨hbeside.recvCb.symm.trans hcb, hbeside.hasRecved.symm.trans hrecved,
    hbeside.bodyLen.symm.trans hbody⟩

end

/-- A run ends with a `clear()`, and the strand call of the next `bind_socket` comes. What is asked of
the new socket and delivered from it is what a new netport does with the same bytes exactly when
`recv_cb_` is set, the last connection did not end in a body, and no completed read, no error and no
other `clear()` is on its way to the strand. -/
theorem rebound_as_fresh (env : Env) (load : ℕ) (flag : ℤ) (s : Life) (h : Rebinds env load s)
    (hfree : env.busy 0 = false) :
    AsFresh env flag s ↔
      s.port.recvCb = true ∧ s.port.hasRecved = 0 ∧ s.port.bodyLen = 0 ∧
        ∀ call ∈ s.calls, call.noisy = false := by
  obtain ⟨rest, hqueue, hbind⟩ := h.step_bind
  have hfine : ∀ call ∈ s.calls, call.fine = true := h.reachable.invariant
    (fun call hcall => by
      have hother : call ∈ List.replicate load StrandCall.other := by
        rwa [calls, show (bound load).hand = [] from rfl, List.append_nil] at hcall
      rw [List.eq_of_mem_replicate hother]
      rfl) fun _ _ _ hi _ hs => fine_step hi hs
  have hmem : ∀ call, call ∈ s.calls ↔ call = .other ∨ call ∈ rest ++ s.hand := by
    intro call
    rw [calls, hqueue, List.cons_append, List.mem_cons]
  have hstart : ∀ acts, run (step env) s (.port .work :: acts) = run (step env)
      ⟨connected s.port.recvCb s.port.sendCb s.port.errCb s.port.hasRecved s.port.bodyLen
        s.port.made rest, s.hand, none⟩ acts := fun acts => by
    rw [run, hbind, Option.bind_some]
  have hnew : ∀ acts, run (step env) (fresh flag s.port.made []) (.port .work :: acts) =
      run (step env) ⟨connected true true true 0 0 s.port.made [], [], none⟩ acts := fun acts => by
    rw [run, step_fresh, Option.bind_some]
  constructor
  · intro hsame
    have hheard : HeardAsNew env s.port.made
        ⟨connected s.port.recvCb s.port.sendCb s.port.errCb s.port.hasRecved s.port.bodyLen
          s.port.made rest, s.hand, none⟩ := by
      intro acts t hcalm hrun hsettled
      obtain ⟨u, hu, -, hall⟩ := hsame acts t (fun a ha => stays_of_calm (hcalm a ha))
        ((hstart acts).trans hrun)
      exact ⟨u, (hnew _).symm.trans hu, hall hcalm hsettled⟩
    have hquiet := quiet_of_heardAsNew hfree
      (fun call hc => hfine call ((hmem call).mpr (.inr hc))) hheard
    obtain ⟨hcb, hrecved, hlen⟩ := clean_of_heardAsNew hfree hquiet hheard
    refine ⟨hcb, hrecved, hlen, fun call hc => ?_⟩
    rcases (hmem call).mp hc with rfl | hc
    · rfl
    · exact hquiet call hc
  · rintro ⟨hcb, hrecved, hlen, hquiet⟩ acts t hstays hrun
    rw [hstart, hcb, hrecved, hlen] at hrun
    have htracks := tracks_connected env (∀ a ∈ acts, a.calm = true) s.port.sendCb s.port.errCb
      s.port.made fun call hc => hquiet call ((hmem call).mpr (.inr hc))
    obtain ⟨c, hfed, hprefix, hall⟩ := (htracks.run hfree rfl hstays id hrun).heard
    exact ⟨_, (hnew _).trans hfed, hprefix, hall⟩

/-- The owner clears the netport, sets its callbacks once it is closed, and binds it. -/
def setAll : List Action :=
  [.port .work, .setRecvCallback true, .setSendCallback true, .setErrorCallback true]

/-- An accepting worker, and no encryption. -/
def plainEnv : Env := ⟨fun _ => false, fun _ => 0⟩

theorem rebinds_setAll {s₀ s₁ s₂ s : Life} (h₀ : Reachable (step plainEnv) (bound 0) s₀)
    (h₁ : step plainEnv s₀ (.port .clear) = some s₁) (h₂ : run (step plainEnv) s₁ setAll = some s₂)
    (hbind : step plainEnv s₂ .bindSocket = some s) (hnext : s.binding = some 0) :
    Rebinds plainEnv 0 s := by
  have hok : ∀ a ∈ setAll, ∀ u, NoBind u a := by
    intro a ha u
    simp only [setAll, List.mem_cons, List.not_mem_nil, or_false] at ha
    rcases ha with rfl | rfl | rfl | rfl <;> exact fun h => by cases h
  exact ⟨s₀, s₁, s₂, s, h₀, rfl, h₁, .of_run_ok hok h₂, hbind, .refl, hnext⟩

/-- The netport is cleared between two messages, and bound again. -/
theorem rebound_as_fresh_betweenMessages :
    ∃ s, run (step plainEnv) (bound 0) (.port .clear :: (setAll ++ [.bindSocket])) = some s ∧
      AsFresh plainEnv 0 s := by
  refine ⟨_, rfl, (rebound_as_fresh plainEnv 0 0 _ (rebinds_setAll .refl rfl rfl rfl rfl) rfl).mpr
    ⟨rfl, rfl, rfl, ?_⟩⟩
  exact List.forall_mem_singleton.mpr rfl

/-- The netport is cleared while it waits for a body of one byte, and bound again. It takes the first
message of the new socket, which has no body, for one with a body of one byte, and reads through the
null `cmd_body`. -/
theorem rebound_reads_null :
    ∃ s₀ s t u, run (step plainEnv) (bound 0) (arrive (header [1, 0, 0, 0])) = some s₀ ∧
      run (step plainEnv) s₀ (.port .clear :: (setAll ++ [.bindSocket])) = some s ∧
      Rebinds plainEnv 0 s ∧
      (s.port.recvCb = true ∧ s.port.sendCb = true ∧ s.port.errCb = true) ∧
      run (step plainEnv) s (.port .work :: receives [alone]) = some t ∧
      run (step plainEnv) (fresh 0 s.port.made []) (.port .work :: receives [alone]) = some u ∧
      .nullBody ∈ t.port.trace ∧ .recvCb ⟨alone, none, 0⟩ ∈ u.port.trace ∧
      t.port.heard s.port.made ≠ u.port.heard s.port.made := by
  have hstart : run (step plainEnv) (bound 0) (arrive (header [1, 0, 0, 0])) = some _ := rfl
  refine ⟨_, _, _, _, hstart, rfl, rebinds_setAll (.of_run hstart) rfl rfl rfl rfl,
    ⟨rfl, rfl, rfl⟩, rfl, rfl, ?_, ?_, ?_⟩ <;> decide +kernel

end Life

end DevFramework.Netport
