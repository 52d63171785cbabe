import DevFramework.Foundations.Transition
import DevFramework.Netport.Parsing

/-! # What a netport delivers

The bytes of a stream `w` come to a netport whose strand takes every call; its owner sends what it
likes and does not clear it.
-/
namespace DevFramework.Netport
open Transition Framing
set_option autoImplicit false
set_option maxHeartbeats 250000

/-- A netport whose worker takes every call. -/
def accepting (ks : ℕ → UInt8) : Env := { busy := fun _ => false, ks := ks }

@[simp] theorem accepting_busy (ks : ℕ → UInt8) (n : ℕ) : (accepting ks).busy n = false := rfl

/-- What comes is `w`, and nothing from outside ends the connection. -/
def Arrives (w : List UInt8) (s : Port) (a : Action) : Prop :=
  a.disturbs = false ∧ ∀ i bytes, a = .recvDone i bytes → s.taken ++ bytes <+: w

/-- The steps of the netport itself: strand calls, and reads that complete with what comes next. -/
def advance (ks : ℕ → UInt8) (w : List UInt8) (s : Port) : Action → Option Port
  | .work => step (accepting ks) s .work
  | .recvDone i bytes =>
    if s.taken ++ bytes <+: w then step (accepting ks) s (.recvDone i bytes) else none
  | _ => none

def Event.request? : Event → Option RecvReq
  | .recvReq r => some r
  | _ => none

/-- The reads asked for. -/
def Port.requests (s : Port) : List RecvReq := s.trace.filterMap Event.request?

/-- The error for a bad header has been raised. -/
def BadHeaderRaised (s : Port) : Prop := .onError badHeader ∈ s.queue ∨ badHeader ∈ s.errors

section
variable {env : Env} {ks : ℕ → UInt8} {w : List UInt8} {s t : Port} {calls : List StrandCall}

/-! ## What has come -/

theorem ofReceiver_bytes {evs : List Event} (h : ∀ e ∈ evs, e.ofReceiver = true) :
    evs.flatMap Event.bytes = [] := by
  refine List.flatMap_eq_nil_iff.mpr fun e he => ?_
  have := h e he
  cases e <;> first | rfl | cases this

theorem RecvOnly.taken (h : RecvOnly s t calls) : t.taken = s.taken := by
  obtain ⟨_, _, _, _, _, _, _, evs, rfl, -, hall⟩ := h
  rw [Port.taken, List.flatMap_append, ofReceiver_bytes hall, List.append_nil]
  rfl

theorem SendOnly.taken (h : SendOnly s t calls) : t.taken = s.taken := by
  obtain ⟨_, _, _, _, _, _, evs, rfl, -, hall⟩ := h
  rw [Port.taken, List.flatMap_append, (ofSender_unseen hall).1, List.append_nil]
  rfl

theorem iDoClear_taken (s : Port) : s.iDoClear.taken = s.taken := by
  rw [iDoClear_eq, Port.taken, List.flatMap_append, (clearEvents_unseen s).1, List.append_nil]
  rfl

theorem exec_taken (s : Port) (call : StrandCall) : (s.exec env call).taken = s.taken := by
  cases call with
  | sendMessage ci => exact (iSendMessageStrand_frame s ci).taken
  | onRecv bt err =>
    obtain ⟨calls, hr, -⟩ := iOnRecvStrand_frame env s bt err
    exact hr.taken
  | onSend bt err => exact (iOnSendStrand_frame s bt).taken
  | onError err =>
    refine (iDoClear_taken _).trans ?_
    split
    · simp [Port.taken, Port.log, Event.bytes]
    · rfl
  | doClear => exact iDoClear_taken s
  | other => rfl

theorem recvDone_taken {i : ℕ} {bytes : List UInt8}
    (hs : step env s (.recvDone i bytes) = some t) : t.taken = s.taken ++ bytes := by
  obtain ⟨r, -, -, rfl⟩ := step_recvDone_iff.mp hs
  obtain ⟨htaken, -, -⟩ := received_seen s i r bytes
  split
  · exact (post_unseen env _ _).1.trans htaken
  · exact htaken

theorem arrives_taken {a : Action} (ha : Arrives w s a) (hs : step env s a = some t)
    (h : s.taken <+: w) : t.taken <+: w := by
  by_cases hsender : a.ofSender = true
  · obtain ⟨calls, hst, -⟩ := sender_step_frame hsender hs
    rwa [hst.taken]
  cases a with
  | work =>
    obtain ⟨call, rest, -, rfl⟩ := step_work_iff.mp hs
    rw [exec_taken]
    exact h
  | recvDone i bytes =>
    rw [recvDone_taken hs]
    exact ha.2 i bytes rfl
  | recvFail i err => exact absurd ha.1 (by simp [Action.disturbs])
  | _ => exact absurd rfl hsender

/-! ## Deliveries -/

theorem Parsing.firstFrames {ok : Prop} (hp : Parsing ok ks s) (h : s.taken <+: w) :
    s.delivered <+: ((frames ks).parse w).frames := by
  obtain ⟨un, -, hparse⟩ := hp
  obtain ⟨z, rfl⟩ := h
  rw [hparse z]
  exact List.prefix_append _ _

/-- No strand call waits, and what is left does not complete a read. -/
def Quiet (w : List UInt8) (s : Port) : Prop :=
  s.queue = [] ∧ ∀ r ∈ s.recvs, (w.length : ℤ) < s.taken.length + r.len

/-- When nothing more can happen, the deliveries are the parse. -/
theorem Parsing.quiet (hp : Parsing True ks s) (h : s.taken <+: w) (hquiet : Quiet w s) :
    s.delivered = ((frames ks).parse w).frames ∧ s.errors = ((frames ks).parse w).error.toList := by
  obtain ⟨un, hphase, hparse⟩ := hp
  obtain ⟨z, rfl⟩ := h
  obtain ⟨hqueue, hreads⟩ := hquiet
  have hdone : s.completions = [] := by rw [Port.completions, hqueue]; rfl
  have hrest : ∀ {p : Parsed UInt8 Delivery ℤ}, (frames ks).parse (un ++ z) = p → p.frames = [] →
      s.errors = p.error.toList →
      s.delivered = ((frames ks).parse (s.taken ++ z)).frames ∧
        s.errors = ((frames ks).parse (s.taken ++ z)).error.toList := by
    intro p hun hframes herrors
    rw [hparse z, hun]
    exact ⟨by simp [Parsed.after, hframes], herrors⟩
  cases hphase with
  | hdrHere _ _ _ hone => exact absurd (hdone.symm.trans hone) (by simp)
  | bodyHere _ _ _ hone => exact absurd (hdone.symm.trans hone) (by simp)
  | stopped hok _ => exact absurd trivial hok
  | hdrAsked hb _ hrecvs _ =>
    have hlen := hreads _ (by rw [hrecvs]; exact List.mem_cons_self)
    simp only [List.length_append] at hlen
    refine hrest (Format.parse_short (frames_short ?_)) rfl (hb.calm trivial).errors
    simp only [List.nil_append]
    omega
  | @bodyAsked b c hb hat hrecvs _ =>
    have hlen := hreads _ (by rw [hrecvs]; exact List.mem_cons_self)
    have hnext : s.nextLen = min (s.bodyLen - s.hasRecved) tpMaxRecvSize := rfl
    have hmore := hat.more
    have hstart := hat.start
    have hlength := hat.bodyLen
    simp only [List.length_append] at hlen
    rw [List.append_assoc] at hrest
    refine hrest (Format.parse_short (frames_part hb.hdrLen hat.magic ?_)) rfl
      (hb.calm trivial).errors
    rw [List.length_append, List.length_take]
    omega
  | failed hlen hbad _ _ hraised =>
    refine hrest (Format.parse_bad (frames_bad hlen hbad z)) rfl ?_
    rcases hraised trivial with ⟨hone, -, -⟩ | ⟨-, herrors⟩
    · rw [Port.endings, hqueue] at hone
      cases hone
    · exact herrors

/-! ## After a bad header -/

theorem Parsing.raised (hp : Parsing True ks s) (hr : BadHeaderRaised s) :
    s.recvs = [] ∧ s.completions = [] := by
  have hcalm : Calm s → False := by
    intro hcalm
    rcases hr with hqueue | herrors
    · have : StrandCall.onError badHeader ∈ s.endings := List.mem_filter.mpr ⟨hqueue, rfl⟩
      rw [hcalm.endings] at this
      cases this
    · rw [hcalm.errors] at herrors
      cases herrors
  obtain ⟨un, hphase, -⟩ := hp
  cases hphase with
  | hdrAsked hb _ _ _ => exact (hcalm (hb.calm trivial)).elim
  | hdrHere hb _ _ _ => exact (hcalm (hb.calm trivial)).elim
  | bodyAsked hb _ _ _ => exact (hcalm (hb.calm trivial)).elim
  | bodyHere hb _ _ _ => exact (hcalm (hb.calm trivial)).elim
  | failed _ _ hrecvs hdone _ => exact ⟨hrecvs, hdone⟩
  | stopped hok _ => exact absurd trivial hok

theorem requests_append (trace evs : List Event) (h : evs.filterMap Event.request? = []) :
    (trace ++ evs).filterMap Event.request? = trace.filterMap Event.request? := by
  rw [List.filterMap_append, h, List.append_nil]

theorem SendOnly.requests (h : SendOnly s t calls) : t.requests = s.requests := by
  obtain ⟨_, _, _, _, _, _, evs, rfl, -, hall⟩ := h
  refine requests_append s.trace evs (List.filterMap_eq_nil_iff.mpr fun e he => ?_)
  have := hall e he
  cases e <;> first | rfl | cases this

theorem iDoClear_requests (s : Port) : s.iDoClear.requests = s.requests := by
  rw [iDoClear_eq]
  refine requests_append s.trace _ (List.filterMap_eq_nil_iff.mpr fun e he => ?_)
  simp only [clearEvents, List.mem_append, List.mem_map, List.mem_singleton] at he
  rcases he with ((⟨_, _, rfl⟩ | ⟨_, _, rfl⟩) | ⟨_, _, rfl⟩) | rfl <;> rfl

/-- The receive machine has no read and no completion. -/
def Halted (s : Port) : Prop := s.recvs = [] ∧ s.completions = []

theorem SendOnly.halted (hst : SendOnly s t calls) (hcalls : ∀ call ∈ calls, call.isOnRecv = false)
    (h : Halted s) : Halted t ∧ t.requests = s.requests := by
  obtain ⟨hsame, -, -⟩ := hst.same hcalls
  exact ⟨⟨hsame.recvs.trans h.1, hsame.completions.trans h.2⟩, hst.requests⟩

/-- Once it is without either it asks for nothing any more. -/
theorem halted_step (h : Halted s) {a : Action} (hs : step env s a = some t) :
    Halted t ∧ t.requests = s.requests := by
  by_cases hsender : a.ofSender = true
  · obtain ⟨calls, hst, hcalls⟩ := sender_step_frame hsender hs
    exact hst.halted (fun call hcall => (hcalls call hcall).1) h
  cases a with
  | work =>
    obtain ⟨call, rest, hq, rfl⟩ := step_work_iff.mp hs
    have hcall : call.isOnRecv = false ∧ rest.filter StrandCall.isOnRecv = [] := by
      have hdone := h.2
      rw [Port.completions, hq] at hdone
      rw [List.filter_eq_nil_iff] at hdone ⊢
      exact ⟨by simpa using hdone call List.mem_cons_self,
        fun c hc => hdone c (List.mem_cons_of_mem _ hc)⟩
    have hpop : Halted { s with queue := rest } := ⟨h.1, hcall.2⟩
    cases call with
    | sendMessage ci => exact (iSendMessageStrand_frame _ ci).halted (by simp) hpop
    | onRecv bt err => exact absurd hcall.1 (by simp [StrandCall.isOnRecv])
    | onSend bt err => exact (iOnSendStrand_frame _ bt).halted (by simp) hpop
    | onError err =>
      have hlog : Halted (if s.errCb then ({ s with queue := rest } : Port).log (.errCb err)
          else { s with queue := rest }) := by
        split
        · exact hpop
        · exact hpop
      refine ⟨?_, (iDoClear_requests _).trans ?_⟩
      · rw [Port.exec, Port.iOnErrorStrand, iDoClear_eq]
        exact hlog
      · split
        · exact requests_append s.trace [.errCb err] rfl
        · rfl
    | doClear =>
      refine ⟨?_, iDoClear_requests _⟩
      rw [Port.exec, iDoClear_eq]
      exact hpop
    | other => exact ⟨hpop, rfl⟩
  | recvDone i bytes =>
    obtain ⟨r, hr, -, -⟩ := step_recvDone_iff.mp hs
    simp [h.1] at hr
  | recvFail i err =>
    obtain ⟨hi, -⟩ := step_recvFail_iff.mp hs
    simp [h.1] at hi
  | _ => exact absurd rfl hsender

/-! ## The steps of the netport itself -/

theorem advance_arrives {a : Action} (hs : advance ks w s a = some t) :
    Arrives w s a ∧ step (accepting ks) s a = some t := by
  cases a with
  | work => exact ⟨⟨rfl, nofun⟩, hs⟩
  | recvDone i bytes =>
    by_cases hw : s.taken ++ bytes <+: w
    · refine ⟨⟨rfl, fun j bs h => ?_⟩, (if_pos hw).symm.trans hs⟩
      cases h
      exact hw
    · exact absurd ((if_neg hw).symm.trans hs) (by simp)
  | _ => cases hs

def StrandCall.weight : StrandCall → ℕ
  | .onRecv _ _ => 2
  | _ => 1

/-- What the netport can still do: take the bytes that are left, and run the calls that wait. -/
def rank (w : List UInt8) (s : Port) : ℕ :=
  3 * (w.length - s.taken.length) + (s.queue.map StrandCall.weight).sum

theorem exec_queue (env : Env) (s : Port) (call : StrandCall) :
    ∃ calls, (s.exec env call).queue = s.queue ++ calls ∧
      (calls.map StrandCall.weight).sum < call.weight := by
  obtain ⟨calls, hqueue, hcalls⟩ := exec_posts env s call
  refine ⟨calls, hqueue, ?_⟩
  rcases hcalls with rfl | ⟨hrecv, rfl⟩
  · cases call <;> simp [StrandCall.weight]
  · cases call with
    | onRecv bt err => simp [StrandCall.weight]
    | _ => cases hrecv

theorem Parsing.asks (hp : Parsing True ks s) : ∀ r ∈ s.recvs, 0 < r.len := by
  obtain ⟨un, hphase, -⟩ := hp
  intro r hr
  cases hphase with
  | hdrAsked _ _ hrecvs _ =>
    rw [hrecvs] at hr
    rw [List.mem_singleton.mp hr]
    exact Int.natCast_pos.mpr (by decide)
  | bodyAsked _ hat hrecvs _ =>
    rw [hrecvs] at hr
    rw [List.mem_singleton.mp hr]
    have hmore := hat.more
    simp only [Port.nextLen, tpMaxRecvSize]
    omega
  | hdrHere _ _ hrecvs _ => simp [hrecvs] at hr
  | bodyHere _ _ hrecvs _ => simp [hrecvs] at hr
  | failed _ _ hrecvs _ _ => simp [hrecvs] at hr
  | stopped hok _ => exact absurd trivial hok

theorem advance_rank (hp : Parsing True ks s) {a : Action} (hs : advance ks w s a = some t) :
    rank w t < rank w s := by
  obtain ⟨ha, hstep⟩ := advance_arrives hs
  cases a with
  | work =>
    obtain ⟨call, rest, hq, rfl⟩ := step_work_iff.mp hstep
    obtain ⟨calls, hqueue, hweight⟩ := exec_queue (accepting ks) { s with queue := rest } call
    unfold rank
    rw [exec_taken, hqueue, hq]
    simp only [List.map_append, List.sum_append, List.map_cons, List.sum_cons]
    show 3 * (w.length - s.taken.length) + _ < _
    omega
  | recvDone i bytes =>
    have htaken := recvDone_taken hstep
    obtain ⟨r, hr, hlen, rfl⟩ := step_recvDone_iff.mp hstep
    have hpos := hp.asks r (List.mem_of_getElem? hr)
    have hfits : s.taken.length + bytes.length ≤ w.length := by
      have := (ha.2 i bytes rfl).length_le
      rwa [List.length_append] at this
    have hqueue : ∃ calls, (calls.map StrandCall.weight).sum ≤ 2 ∧
        (if s.sockRecvCb then (s.received i r bytes).post (accepting ks) (.onRecv r.len 0)
          else s.received i r bytes).queue = s.queue ++ calls := by
      split
      · rw [post_free rfl]
        exact ⟨[.onRecv r.len 0], by simp [StrandCall.weight], rfl⟩
      · exact ⟨[], by simp, (List.append_nil _).symm⟩
    obtain ⟨calls, hweight, hqueue⟩ := hqueue
    unfold rank
    rw [htaken, hqueue, List.length_append]
    simp only [List.map_append, List.sum_append]
    omega
  | _ => cases hs

theorem Parsing.stuck (hp : Parsing True ks s) (h : s.taken <+: w)
    (hstuck : ∀ a, advance ks w s a = none) : Quiet w s := by
  refine ⟨?_, fun r hr => ?_⟩
  · cases hq : s.queue with
    | nil => rfl
    | cons call rest =>
      have hwork : advance ks w s .work = some _ := step_work_iff.mpr ⟨call, rest, hq, rfl⟩
      rw [hstuck] at hwork
      cases hwork
  · obtain ⟨z, rfl⟩ := h
    by_contra hle
    have hpos := hp.asks r hr
    simp only [List.length_append, not_lt] at hle
    obtain ⟨i, hi⟩ := List.mem_iff_getElem?.mp hr
    have hlen : ((z.take r.len.toNat).length : ℤ) = r.len := by
      rw [List.length_take]
      omega
    have hprefix : s.taken ++ z.take r.len.toNat <+: s.taken ++ z :=
      (List.prefix_append_right_inj _).mpr (List.take_prefix _ _)
    obtain ⟨t, ht⟩ : ∃ t, step (accepting ks) s (.recvDone i (z.take r.len.toNat)) = some t :=
      ⟨_, step_recvDone_iff.mpr ⟨r, hi, hlen, rfl⟩⟩
    have hdone : advance ks (s.taken ++ z) s (.recvDone i (z.take r.len.toNat)) = some t :=
      (if_pos hprefix).trans ht
    rw [hstuck] at hdone
    cases hdone

end

/-! ## Runs -/

/-- Whatever happens to a connection, what was delivered is the beginning of the parse of what came. -/
theorem delivered_prefix (env : Env) (load : ℕ) (s : Port)
    (h : Reachable (step env) (bound load) s) :
    s.delivered <+: ((frames env.ks).parse s.taken).frames := by
  have hp : Parsing False env.ks s :=
    h.invariant (parsing_bound False env.ks load) fun _ _ _ hp _ hs =>
      parsing_step (fun ho => ho.elim) hp (fun ho => ho.elim) hs
  exact hp.firstFrames List.prefix_rfl

/-- What a netport delivers of a stream is at all times the beginning of its reference parse, and
when the netport has done what it can, the whole of it; `err_cb_` is called exactly if the parse
ends at a bad header, and from then on no read is asked for. -/
theorem receives_reference_parse (ks : ℕ → UInt8) (load : ℕ) (w : List UInt8) (s : Port)
    (h : Reach (step (accepting ks)) (Arrives w) (bound load) s) :
    s.delivered <+: ((frames ks).parse w).frames ∧
    (∀ as t, run (advance ks w) s as = some t → as.length ≤ rank w s ∧
      ((∀ a, advance ks w t a = none) →
        t.delivered = ((frames ks).parse w).frames ∧
        t.errors = ((frames ks).parse w).error.toList)) ∧
    (BadHeaderRaised s →
      ∀ t, Reach (step (accepting ks)) (Arrives w) s t → t.requests = s.requests) := by
  have hkeep : ∀ u a v, Parsing True ks u ∧ u.taken <+: w → Arrives w u a →
      step (accepting ks) u a = some v → Parsing True ks v ∧ v.taken <+: w := by
    rintro u a v ⟨hp, htaken⟩ ha hs
    exact ⟨parsing_step (fun _ => accepting_busy ks) hp (fun _ => ha.1) hs,
      arrives_taken ha hs htaken⟩
  have hinv : Parsing True ks s ∧ s.taken <+: w :=
    h.invariant ⟨parsing_bound True ks load, List.nil_prefix⟩ hkeep
  have hadvance : ∀ u a v, Parsing True ks u ∧ u.taken <+: w → advance ks w u a = some v →
      (Parsing True ks v ∧ v.taken <+: w) ∧ rank w v < rank w u := by
    intro u a v hu hs
    obtain ⟨ha, hstep⟩ := advance_arrives hs
    exact ⟨hkeep u a v hu ha hstep, advance_rank hu.1 hs⟩
  refine ⟨hinv.1.firstFrames hinv.2, fun as t hrun => ⟨?_, fun hstuck => ?_⟩, fun hraised t ht => ?_⟩
  · exact (Nat.le_add_right _ _).trans (run_length_le hadvance hinv hrun)
  · obtain ⟨hp, htaken⟩ := (Reach.of_run hrun).invariant
      (P := fun u => Parsing True ks u ∧ u.taken <+: w) hinv fun u a v hu _ hs =>
        (hadvance u a v hu hs).1
    exact hp.quiet htaken (hp.stuck htaken hstuck)
  · refine (ht.invariant (P := fun u => Halted u ∧ u.requests = s.requests)
      ⟨hinv.1.raised hraised, rfl⟩ ?_).2
    rintro u a v ⟨hhalted, hreq⟩ - hs
    obtain ⟨hhalted', hreq'⟩ := halted_step hhalted hs
    exact ⟨hhalted', hreq'.trans hreq⟩

/-- A header that announces no body. -/
def emptyHeader : List UInt8 := List.replicate 84 0 ++ [0x78, 0x56, 0x34, 0x12]

set_option maxRecDepth 4000 in
theorem receives_reference_parse_one_header :
    ∃ s, run (step (accepting fun _ => 0)) (bound 0) [.recvDone 0 emptyHeader, .work] = some s ∧
      s.delivered = [⟨emptyHeader, none, 0⟩] ∧
      s.delivered <+: ((frames fun _ => 0).parse emptyHeader).frames := by
  have hread : Arrives emptyHeader (bound 0) (.recvDone 0 emptyHeader) := by
    refine ⟨rfl, fun i bytes h => ?_⟩
    cases h
    exact List.prefix_rfl
  have hwork : ∀ u, Arrives emptyHeader u .work := fun u => ⟨rfl, nofun⟩
  refine ⟨_, rfl, rfl, (receives_reference_parse (fun _ => 0) 0 emptyHeader _ ?_).1⟩
  exact (Reach.refl.tail hread rfl).tail (hwork _) rfl

end DevFramework.Netport
