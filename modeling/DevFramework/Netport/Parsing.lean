import DevFramework.Netport.Receiver

/-! # The receive machine parses

`un` is what the machine holds of a frame that is not complete. In every phase, whatever comes
next, the parse of all bytes received is what was delivered, followed by the parse of `un` and what
comes. With `ok` nothing but a bad header ends the connection; without it everything may.
-/
namespace DevFramework.Netport
open Framing
set_option autoImplicit false
set_option maxHeartbeats 250000

def Event.bytes : Event → List UInt8
  | .received bytes => bytes
  | _ => []

def Event.delivery? : Event → Option Delivery
  | .recvCb d => some d
  | _ => none

def Event.error? : Event → Option ℤ
  | .errCb err => some err
  | _ => none

namespace Port

/-- The bytes that have come. -/
def taken (s : Port) : List UInt8 := s.trace.flatMap Event.bytes

/-- The calls of `recv_cb_`. -/
def delivered (s : Port) : List Delivery := s.trace.filterMap Event.delivery?

/-- The calls of `err_cb_`. -/
def errors (s : Port) : List ℤ := s.trace.filterMap Event.error?

/-- The completions of reads that wait on the strand. -/
def completions (s : Port) : List StrandCall := s.queue.filter StrandCall.isOnRecv

/-- The calls that wait on the strand and end the connection. -/
def endings (s : Port) : List StrandCall := s.queue.filter StrandCall.ends

/-- The size of the next read of a body. -/
def nextLen (s : Port) : ℤ := min (s.bodyLen - s.hasRecved) tpMaxRecvSize

end Port

/-- Nothing ends the connection. -/
structure Calm (s : Port) : Prop where
  endings : s.endings = []
  errors : s.errors = []
  errCb : s.errCb = true

/-- The error for a bad header waits, or has been handled. -/
def Raised (s : Port) : Prop :=
  s.endings = [.onError badHeader] ∧ s.errors = [] ∧ s.errCb = true ∨
    s.endings = [] ∧ s.errors = [badHeader]

/-- The receive machine works, with the header buffer `b`. -/
structure Works (ok : Prop) (s : Port) (b : Buf) : Prop where
  isOpen : s.isOpen = true
  callback : s.sockRecvCb = true
  recvCb : s.recvCb = true
  cmdHdr : s.cmdHdr = some b
  hdrLen : b.bytes.length = headerLen
  hdrId : b.id < s.made
  calm : ok → Calm s

/-- It is at a header. -/
structure AtHeader (s : Port) : Prop where
  flag : s.flag = 1
  hasRecved : s.hasRecved = 0
  cmdBody : s.cmdBody = none
  bodyLen : s.bodyLen = 0

/-- It is in a body, with the buffer `c`. -/
structure AtBody (s : Port) (b c : Buf) : Prop where
  magic : magic b.bytes = magicNum
  cmdBody : s.cmdBody = some c
  bodyLen : s.bodyLen = getBodyLen b.bytes
  length : (c.bytes.length : ℤ) = s.bodyLen
  id : b.id ≠ c.id
  flag : s.flag = 0 ∧ s.hasRecved = 0 ∧ s.bodyLen ≤ tpMaxRecvSize ∨ s.flag = 2
  start : 0 ≤ s.hasRecved
  more : s.hasRecved < s.bodyLen

inductive Phase (ok : Prop) (s : Port) : List UInt8 → Prop where
  | hdrAsked {b : Buf} (hb : Works ok s b) (hat : AtHeader s)
      (hrecvs : s.recvs = [⟨b.id, 0, headerLen⟩]) (hdone : s.completions = []) : Phase ok s []
  | hdrHere {b : Buf} (hb : Works ok s b) (hat : AtHeader s)
      (hrecvs : s.recvs = []) (hdone : s.completions = [.onRecv headerLen 0]) : Phase ok s b.bytes
  | bodyAsked {b c : Buf} (hb : Works ok s b) (hat : AtBody s b c)
      (hrecvs : s.recvs = [⟨c.id, s.hasRecved, s.nextLen⟩]) (hdone : s.completions = []) :
      Phase ok s (b.bytes ++ c.bytes.take s.hasRecved.toNat)
  | bodyHere {b c : Buf} (hb : Works ok s b) (hat : AtBody s b c)
      (hrecvs : s.recvs = []) (hdone : s.completions = [.onRecv s.nextLen 0]) :
      Phase ok s (b.bytes ++ c.bytes.take (s.hasRecved + s.nextLen).toNat)
  | failed {hdr : List UInt8} (hlen : hdr.length = headerLen) (hbad : magic hdr ≠ magicNum)
      (hrecvs : s.recvs = []) (hdone : s.completions = []) (hraised : ok → Raised s) : Phase ok s hdr
  | stopped {un : List UInt8} (hok : ¬ ok)
      (hstop : s.isOpen = false ∨ s.recvs = [] ∧ s.completions = []) : Phase ok s un

/-- What was delivered, and what is held, are the parse of what has come. -/
def Parsing (ok : Prop) (ks : ℕ → UInt8) (s : Port) : Prop :=
  ∃ un, Phase ok s un ∧
    ∀ z, (frames ks).parse (s.taken ++ z) = ((frames ks).parse (un ++ z)).after s.delivered

section
variable {ok : Prop} {env : Env} {s t : Port} {un : List UInt8} {calls : List StrandCall}

/-! ## What leaves the phase alone -/

/-- `t` is `s` for the receive machine. -/
structure Same (s t : Port) : Prop where
  flag : t.flag = s.flag
  hasRecved : t.hasRecved = s.hasRecved
  cmdHdr : t.cmdHdr = s.cmdHdr
  cmdBody : t.cmdBody = s.cmdBody
  bodyLen : t.bodyLen = s.bodyLen
  isOpen : t.isOpen = s.isOpen
  sockRecvCb : t.sockRecvCb = s.sockRecvCb
  recvCb : t.recvCb = s.recvCb
  errCb : t.errCb = s.errCb
  recvs : t.recvs = s.recvs
  completions : t.completions = s.completions
  made : s.made ≤ t.made
  errors : t.errors = s.errors

theorem Same.phase (h : Same s t) (hend : ok → t.endings = s.endings) (hp : Phase ok s un) :
    Phase ok t un := by
  have hcalm : ok → Calm s → Calm t := fun ho hc =>
    ⟨(hend ho).trans hc.endings, h.errors.trans hc.errors, h.errCb.trans hc.errCb⟩
  have hworks : ∀ {b}, Works ok s b → Works ok t b := fun hb =>
    ⟨h.isOpen.trans hb.isOpen, h.sockRecvCb.trans hb.callback, h.recvCb.trans hb.recvCb,
      h.cmdHdr.trans hb.cmdHdr, hb.hdrLen, hb.hdrId.trans_le h.made, fun ho => hcalm ho (hb.calm ho)⟩
  have hnext : t.nextLen = s.nextLen := by rw [Port.nextLen, h.bodyLen, h.hasRecved]; rfl
  have hbody : ∀ {b c}, AtBody s b c → AtBody t b c := fun hat =>
    ⟨hat.magic, h.cmdBody.trans hat.cmdBody, h.bodyLen.trans hat.bodyLen,
      hat.length.trans h.bodyLen.symm, hat.id, by rw [h.flag, h.hasRecved, h.bodyLen]; exact hat.flag,
      by rw [h.hasRecved]; exact hat.start, by rw [h.hasRecved, h.bodyLen]; exact hat.more⟩
  have hheader : AtHeader s → AtHeader t := fun hat =>
    ⟨h.flag.trans hat.flag, h.hasRecved.trans hat.hasRecved, h.cmdBody.trans hat.cmdBody,
      h.bodyLen.trans hat.bodyLen⟩
  cases hp with
  | hdrAsked hb hat hrecvs hdone =>
    exact .hdrAsked (hworks hb) (hheader hat) (h.recvs.trans hrecvs) (h.completions.trans hdone)
  | hdrHere hb hat hrecvs hdone =>
    exact .hdrHere (hworks hb) (hheader hat) (h.recvs.trans hrecvs) (h.completions.trans hdone)
  | bodyAsked hb hat hrecvs hdone =>
    rw [← h.hasRecved]
    refine .bodyAsked (hworks hb) (hbody hat) ?_ (h.completions.trans hdone)
    rw [h.recvs, hrecvs, h.hasRecved, hnext]
  | bodyHere hb hat hrecvs hdone =>
    rw [← h.hasRecved, ← hnext]
    refine .bodyHere (hworks hb) (hbody hat) (h.recvs.trans hrecvs) ?_
    rw [h.completions, hdone, hnext]
  | failed hlen hbad hrecvs hdone hraised =>
    refine .failed hlen hbad (h.recvs.trans hrecvs) (h.completions.trans hdone) fun ho => ?_
    unfold Raised
    rw [hend ho, h.errors, h.errCb]
    exact hraised ho
  | stopped hok hstop =>
    refine .stopped hok ?_
    rw [h.isOpen, h.recvs, h.completions]
    exact hstop

theorem Same.parsing {ks : ℕ → UInt8} (h : Same s t) (hend : ok → t.endings = s.endings)
    (htaken : t.taken = s.taken) (hdelivered : t.delivered = s.delivered)
    (hp : Parsing ok ks s) : Parsing ok ks t := by
  obtain ⟨un, hphase, hparse⟩ := hp
  exact ⟨un, h.phase hend hphase, by rw [htaken, hdelivered]; exact hparse⟩

/-! ## The send side -/

theorem ofSender_unseen {evs : List Event} (h : ∀ e ∈ evs, e.ofSender = true) :
    evs.flatMap Event.bytes = [] ∧ evs.filterMap Event.delivery? = [] ∧
      evs.filterMap Event.error? = [] := by
  refine ⟨List.flatMap_eq_nil_iff.mpr ?_, List.filterMap_eq_nil_iff.mpr ?_,
    List.filterMap_eq_nil_iff.mpr ?_⟩ <;>
  · intro e he
    have := h e he
    cases e <;> first | rfl | cases this

theorem SendOnly.same (hst : SendOnly s t calls) (hcalls : ∀ call ∈ calls, call.isOnRecv = false) :
    Same s t ∧ t.taken = s.taken ∧ t.delivered = s.delivered := by
  obtain ⟨_, _, _, _, _, _, evs, rfl, hm, hall⟩ := hst
  obtain ⟨hbytes, hdelivery, herror⟩ := ofSender_unseen hall
  have hfilter : calls.filter StrandCall.isOnRecv = [] :=
    List.filter_eq_nil_iff.mpr fun call hcall => by simp [hcalls call hcall]
  refine ⟨⟨rfl, rfl, rfl, rfl, rfl, rfl, rfl, rfl, rfl, rfl, ?_, hm, ?_⟩, ?_, ?_⟩
  · rw [Port.completions, List.filter_append, hfilter, List.append_nil]
    rfl
  · rw [Port.errors, List.filterMap_append, herror, List.append_nil]
    rfl
  · rw [Port.taken, List.flatMap_append, hbytes, List.append_nil]
    rfl
  · rw [Port.delivered, List.filterMap_append, hdelivery, List.append_nil]
    rfl

theorem Parsing.sender {ks : ℕ → UInt8} (hp : Parsing ok ks s) (hst : SendOnly s t calls)
    (hcalls : ∀ call ∈ calls, call.isOnRecv = false ∧ (ok → call.ends = false)) :
    Parsing ok ks t := by
  obtain ⟨hsame, htaken, hdelivered⟩ := hst.same fun call hcall => (hcalls call hcall).1
  refine hsame.parsing (fun ho => ?_) htaken hdelivered hp
  have hfilter : calls.filter StrandCall.ends = [] :=
    List.filter_eq_nil_iff.mpr fun call hcall => by simp [(hcalls call hcall).2 ho]
  rw [Port.endings, hst.queue, List.filter_append, hfilter, List.append_nil]
  rfl

theorem Parsing.pop {ks : ℕ → UInt8} (hp : Parsing ok ks s) {call : StrandCall}
    {rest : List StrandCall} (hq : s.queue = call :: rest) (hcall : call.isOnRecv = false)
    (hend : call.ends = false) : Parsing ok ks { s with queue := rest } := by
  have hdone : s.completions = rest.filter StrandCall.isOnRecv := by
    rw [Port.completions, hq, List.filter_cons_of_neg (by simp [hcall])]
  have hendings : s.endings = rest.filter StrandCall.ends := by
    rw [Port.endings, hq, List.filter_cons_of_neg (by simp [hend])]
  have hsame : Same s { s with queue := rest } :=
    ⟨rfl, rfl, rfl, rfl, rfl, rfl, rfl, rfl, rfl, rfl, hdone.symm, le_rfl, rfl⟩
  exact hsame.parsing (fun _ => hendings.symm) rfl rfl hp

/-! ## The end of a connection -/

theorem Phase.clear (hp : Phase ok s un) (hopen : t.isOpen = false) (hrecvs : t.recvs = s.recvs)
    (hdone : t.completions = s.completions) (hwait : s.endings ≠ [])
    (hraised : ok → Raised s → Raised t) : Phase ok t un := by
  have hnot : ∀ {b}, Works ok s b → ¬ ok := fun hb ho => hwait (hb.calm ho).endings
  cases hp with
  | hdrAsked hb _ _ _ => exact .stopped (hnot hb) (.inl hopen)
  | hdrHere hb _ _ _ => exact .stopped (hnot hb) (.inl hopen)
  | bodyAsked hb _ _ _ => exact .stopped (hnot hb) (.inl hopen)
  | bodyHere hb _ _ _ => exact .stopped (hnot hb) (.inl hopen)
  | failed hlen hbad hr hd hraise =>
    exact .failed hlen hbad (hrecvs.trans hr) (hdone.trans hd) fun ho => hraised ho (hraise ho)
  | stopped hok _ => exact .stopped hok (.inl hopen)

theorem clearEvents_unseen (s : Port) :
    (clearEvents s).flatMap Event.bytes = [] ∧ (clearEvents s).filterMap Event.delivery? = [] ∧
      (clearEvents s).filterMap Event.error? = [] := by
  refine ⟨List.flatMap_eq_nil_iff.mpr ?_, List.filterMap_eq_nil_iff.mpr ?_,
    List.filterMap_eq_nil_iff.mpr ?_⟩ <;>
  · intro e he
    simp only [clearEvents, List.mem_append, List.mem_map, List.mem_singleton] at he
    rcases he with ((⟨_, _, rfl⟩ | ⟨_, _, rfl⟩) | ⟨_, _, rfl⟩) | rfl <;> rfl

theorem Parsing.clear {ks : ℕ → UInt8} (hp : Parsing ok ks s) {call : StrandCall}
    {rest : List StrandCall} (hq : s.queue = call :: rest) (hend : call.ends = true)
    {evs : List Event} (hbytes : evs.flatMap Event.bytes = [])
    (hdelivery : evs.filterMap Event.delivery? = [])
    (hraised : Raised s → rest.filter StrandCall.ends = [] ∧
      s.errors ++ evs.filterMap Event.error? = [badHeader]) :
    Parsing ok ks ({ s with queue := rest, trace := s.trace ++ evs } : Port).iDoClear := by
  obtain ⟨un, hphase, hparse⟩ := hp
  obtain ⟨hb, hd, he⟩ := clearEvents_unseen { s with queue := rest, trace := s.trace ++ evs }
  have hcall : call.isOnRecv = false := by cases call <;> first | rfl | cases hend
  rw [iDoClear_eq]
  generalize clearEvents _ = cs at hb hd he ⊢
  refine ⟨un, hphase.clear rfl rfl ?_ ?_ fun _ hr => ?_, ?_⟩
  · rw [Port.completions, Port.completions, hq, List.filter_cons_of_neg (by simp [hcall])]
  · rw [Port.endings, hq, List.filter_cons_of_pos hend]
    exact List.cons_ne_nil _ _
  · obtain ⟨hrest, herrors⟩ := hraised hr
    refine .inr ⟨hrest, ?_⟩
    rw [Port.errors, List.filterMap_append, he, List.append_nil, List.filterMap_append]
    exact herrors
  · intro z
    have htaken : (s.trace ++ evs ++ cs).flatMap Event.bytes = s.taken := by
      rw [List.flatMap_append, List.flatMap_append, hb, hbytes, List.append_nil, List.append_nil]
      rfl
    have hdelivered : (s.trace ++ evs ++ cs).filterMap Event.delivery? =
        s.delivered := by
      rw [List.filterMap_append, List.filterMap_append, hd, hdelivery, List.append_nil,
        List.append_nil]
      rfl
    have hz := hparse z
    rw [← htaken, ← hdelivered] at hz
    exact hz

/-! ## A strand call of the receive machine -/

theorem Works.of_eq {b : Buf} (hb : Works ok s b) (hopen : t.isOpen = s.isOpen)
    (hcb : t.sockRecvCb = s.sockRecvCb) (hrecvCb : t.recvCb = s.recvCb)
    (hhdr : t.cmdHdr = s.cmdHdr) (hmade : s.made ≤ t.made) (hend : t.endings = s.endings)
    (herr : t.errors = s.errors) (herrCb : t.errCb = s.errCb) : Works ok t b := by
  refine ⟨hopen.trans hb.isOpen, hcb.trans hb.callback, hrecvCb.trans hb.recvCb,
    hhdr.trans hb.cmdHdr, hb.hdrLen, hb.hdrId.trans_le hmade, fun ho => ?_⟩
  have hcalm := hb.calm ho
  exact ⟨hend.trans hcalm.endings, herr.trans hcalm.errors, herrCb.trans hcalm.errCb⟩

theorem recvReq_unseen (r : RecvReq) (trace : List Event) :
    (trace ++ [Event.recvReq r]).flatMap Event.bytes = trace.flatMap Event.bytes ∧
      (trace ++ [Event.recvReq r]).filterMap Event.delivery? = trace.filterMap Event.delivery? ∧
      (trace ++ [Event.recvReq r]).filterMap Event.error? = trace.filterMap Event.error? := by
  refine ⟨?_, ?_, ?_⟩
  · simp [Event.bytes]
  · simp [Event.delivery?]
  · simp [Event.error?]

theorem freeEvents_unseen (s : Port) :
    (freeEvents s).flatMap Event.bytes = [] ∧ (freeEvents s).filterMap Event.delivery? = [] ∧
      (freeEvents s).filterMap Event.error? = [] := by
  unfold freeEvents
  cases s.cmdBody <;> exact ⟨rfl, rfl, rfl⟩

/-- What is in the buffers when a frame is complete. -/
def Complete (s : Port) (body : List UInt8) : Prop :=
  s.bodyLen = 0 ∧ body = [] ∨
    s.bodyLen ≠ 0 ∧ s.bodyLen = body.length ∧ ∃ c, s.cmdBody = some c ∧ c.bytes = body

theorem processEvents_complete {b : Buf} (hcb : s.recvCb = true) {body : List UInt8}
    (hbody : Complete s body) :
    processEvents env s b.bytes = [.recvCb (deliver env.ks b.bytes body)] := by
  unfold processEvents
  rw [if_neg (by simp [hcb])]
  rcases hbody with ⟨hzero, rfl⟩ | ⟨hne, hlen, c, hc, rfl⟩
  · rw [if_pos hzero]
    rfl
  · rw [if_neg hne, hc]
    simp [deliver, hlen]

/-- A complete frame is delivered, and the machine is at the next header. -/
theorem Works.recvBody (env : Env) {b : Buf} (hb : Works ok s b) {body : List UInt8}
    (hbody : Complete s body) (hzero : s.hasRecved = 0) (hrecvs : s.recvs = [])
    (hdone : s.completions = []) :
    Phase ok (s.recvBody env) [] ∧ (s.recvBody env).taken = s.taken ∧
      (s.recvBody env).delivered = s.delivered ++ [deliver env.ks b.bytes body] := by
  obtain ⟨hbytes, hdelivery, herror⟩ := freeEvents_unseen s
  rw [recvBody_eq hb.isOpen hb.cmdHdr, processEvents_complete hb.recvCb hbody]
  generalize freeEvents s = fs at hbytes hdelivery herror
  refine ⟨?_, ?_, ?_⟩
  · refine .hdrAsked (b := ⟨b.id, List.replicate headerLen 0⟩)
      ⟨hb.isOpen, hb.callback, hb.recvCb, rfl, List.length_replicate, hb.hdrId, fun ho => ?_⟩
      ⟨rfl, hzero, rfl, rfl⟩ (by rw [hrecvs]; rfl) hdone
    have hcalm := hb.calm ho
    refine ⟨hcalm.endings, ?_, hcalm.errCb⟩
    have := hcalm.errors
    simp only [Port.errors, List.filterMap_append, herror] at this ⊢
    rw [this]
    rfl
  · simp only [Port.taken, List.flatMap_append, hbytes]
    simp [Event.bytes]
  · simp only [Port.delivered, List.filterMap_append, hdelivery]
    simp [Event.delivery?]

theorem frames_complete {b : Buf} (hlen : b.bytes.length = headerLen)
    (hmagic : magic b.bytes = magicNum) {body : List UInt8}
    (hbody : body.length = (getBodyLen b.bytes).toNat) (ks : ℕ → UInt8) (z : List UInt8) :
    (frames ks).parse (b.bytes ++ body ++ z) =
      ((frames ks).parse ([] ++ z)).after [deliver ks b.bytes body] :=
  Format.parse_frame_append (frames_whole hlen hmagic hbody z)

theorem Works.deliver {b : Buf} (hb : Works ok s b) {body : List UInt8} (hbody : Complete s body)
    (hzero : s.hasRecved = 0) (hrecvs : s.recvs = []) (hdone : s.completions = [])
    (hmagic : magic b.bytes = magicNum) (hlen : body.length = (getBodyLen b.bytes).toNat)
    (hparse : ∀ z, (frames env.ks).parse (s.taken ++ z) =
      ((frames env.ks).parse (b.bytes ++ body ++ z)).after s.delivered) :
    Parsing ok env.ks (s.recvBody env) := by
  obtain ⟨hphase, htaken, hdelivered⟩ := hb.recvBody env hbody hzero hrecvs hdone
  refine ⟨[], hphase, fun z => ?_⟩
  rw [htaken, hdelivered, hparse z, frames_complete hb.hdrLen hmagic hlen, Parsed.after_after]

theorem Works.header (hfree : ok → ∀ n, env.busy n = false) {b : Buf} (hb : Works ok s b)
    (hat : AtHeader s) (hrecvs : s.recvs = []) (hdone : s.completions = [])
    (hparse : ∀ z, (frames env.ks).parse (s.taken ++ z) =
      ((frames env.ks).parse (b.bytes ++ z)).after s.delivered) :
    Parsing ok env.ks (s.recvHeader env) := by
  by_cases hmagic : magic b.bytes = magicNum
  · have hsh : clone b.bytes = some b.bytes := if_pos hmagic
    by_cases hn : getBodyLen b.bytes ≤ 0
    · rw [recvHeader_alone hb.cmdHdr hsh hn]
      have hset : Works ok { s with flag := 0 } b :=
        hb.of_eq rfl rfl rfl rfl le_rfl rfl rfl rfl
      refine hset.deliver (.inl ⟨hat.bodyLen, rfl⟩) hat.hasRecved hrecvs hdone hmagic ?_ ?_
      · simp only [List.length_nil]
        omega
      · simp only [List.append_nil]
        exact hparse
    · have hpos := not_le.mp hn
      obtain ⟨htaken, hdelivered, herrors⟩ := recvReq_unseen
        ⟨s.made, 0, min (getBodyLen b.bytes) tpMaxRecvSize⟩ s.trace
      rw [recvHeader_body hb.isOpen hb.cmdHdr hsh hpos]
      refine ⟨_, .bodyAsked (c := ⟨s.made, List.replicate (getBodyLen b.bytes).toNat 0⟩)
        (hb.of_eq rfl rfl rfl rfl (Nat.le_succ _) rfl herrors rfl)
        ⟨hmagic, rfl, rfl, ?_, hb.hdrId.ne, ?_, hat.hasRecved.ge, ?_⟩ ?_ hdone, fun z => ?_⟩
      · simp only [List.length_replicate]
        omega
      · show (if getBodyLen b.bytes > tpMaxRecvSize then (2 : ℤ) else 0) = 0 ∧ _ ∨ _
        split
        next => exact .inr rfl
        next hshort => exact .inl ⟨rfl, hat.hasRecved, not_lt.mp hshort⟩
      · exact hat.hasRecved.trans_lt hpos
      · simp only [hrecvs, hat.hasRecved, Port.nextLen, sub_zero, List.nil_append]
      · have hz := hparse z
        simp only [hat.hasRecved, Int.toNat_zero, List.take_zero, List.append_nil]
        rw [Port.taken, htaken, Port.delivered, hdelivered]
        exact hz
  · have hbad : clone b.bytes = none := if_neg hmagic
    rw [recvHeader_bad hb.cmdHdr hbad]
    obtain ⟨calls, hst, hcalls⟩ := post_frame env s
      (show (StrandCall.onError badHeader).isOnRecv = false from rfl)
    obtain ⟨hsame, htaken, hdelivered⟩ := hst.same (by
      rcases hcalls with rfl | rfl <;> simp [StrandCall.isOnRecv])
    refine ⟨b.bytes, .failed hb.hdrLen hmagic (hsame.recvs.trans hrecvs)
      (hsame.completions.trans hdone) (fun ho => .inl ?_), fun z => ?_⟩
    · have hcalm := hb.calm ho
      refine ⟨?_, hsame.errors.trans hcalm.errors, hsame.errCb.trans hcalm.errCb⟩
      rw [Port.iOnError, post_free (hfree ho _)]
      have := hcalm.endings
      simp only [Port.endings, List.filter_append] at this ⊢
      rw [this]
      rfl
    · have hz := hparse z
      rw [← htaken, ← hdelivered] at hz
      exact hz

theorem Works.body {b c : Buf} (hb : Works ok s b) (hat : AtBody s b c) (hrecvs : s.recvs = [])
    (hdone : s.completions = []) (hparse : ∀ z, (frames env.ks).parse (s.taken ++ z) =
      ((frames env.ks).parse
        (b.bytes ++ c.bytes.take (s.hasRecved + s.nextLen).toNat ++ z)).after s.delivered) :
    Parsing ok env.ks (s.iOnRecvStrand env s.nextLen 0) := by
  have hstart := hat.start
  have hmore := hat.more
  have hlength := hat.length
  have hnext : s.nextLen = min (s.bodyLen - s.hasRecved) tpMaxRecvSize := rfl
  have hsize : tpMaxRecvSize = 2048 := rfl
  have hbody : c.bytes.length = (getBodyLen b.bytes).toNat := by
    have := hat.bodyLen
    omega
  have hcomplete : s.bodyLen ≠ 0 ∧ s.bodyLen = c.bytes.length ∧
      ∃ d, s.cmdBody = some d ∧ d.bytes = c.bytes := ⟨by omega, by omega, c, hat.cmdBody, rfl⟩
  have hwhole : s.hasRecved + s.nextLen = s.bodyLen →
      c.bytes.take (s.hasRecved + s.nextLen).toNat = c.bytes := by
    intro h
    exact List.take_of_length_le (by omega)
  rcases hat.flag with ⟨hflag, hzero, hshort⟩ | hflag
  · rw [iOnRecvStrand_body hb.isOpen hflag]
    rw [hwhole (by omega)] at hparse
    exact hb.deliver (.inr hcomplete) hzero hrecvs hdone hat.magic hbody hparse
  · rw [iOnRecvStrand_part hb.isOpen hflag]
    by_cases hlast : s.hasRecved + s.nextLen = s.bodyLen
    · rw [recvPart_last hlast]
      rw [hwhole hlast] at hparse
      have hset : Works ok { s with hasRecved := 0, flag := 0 } b :=
        hb.of_eq rfl rfl rfl rfl le_rfl rfl rfl rfl
      exact hset.deliver (.inr hcomplete) rfl hrecvs hdone hat.magic hbody hparse
    · rw [recvPart_next hb.isOpen hat.cmdBody hlast]
      obtain ⟨htaken, hdelivered, herrors⟩ := recvReq_unseen
        ⟨c.id, s.hasRecved + s.nextLen,
          min (s.bodyLen - (s.hasRecved + s.nextLen)) tpMaxRecvSize⟩ s.trace
      refine ⟨_, .bodyAsked (hb.of_eq rfl rfl rfl rfl le_rfl rfl herrors rfl)
        ⟨hat.magic, hat.cmdBody, hat.bodyLen, hat.length, hat.id, .inr hflag, ?_, ?_⟩ ?_ hdone,
        fun z => ?_⟩
      · show 0 ≤ s.hasRecved + s.nextLen
        omega
      · show s.hasRecved + s.nextLen < s.bodyLen
        omega
      · rw [hrecvs]
        rfl
      · have hz := hparse z
        rw [Port.taken, htaken, Port.delivered, hdelivered]
        exact hz

theorem Parsing.onRecv (hfree : ok → ∀ n, env.busy n = false) (hp : Parsing ok env.ks s)
    {bt err : ℤ} {rest : List StrandCall} (hq : s.queue = .onRecv bt err :: rest) :
    Parsing ok env.ks ({ s with queue := rest }.iOnRecvStrand env bt err) := by
  have hhead : s.completions = .onRecv bt err :: rest.filter StrandCall.isOnRecv := by
    rw [Port.completions, hq, List.filter_cons_of_pos rfl]
  have hendings : s.endings = rest.filter StrandCall.ends := by
    rw [Port.endings, hq, List.filter_cons_of_neg (by simp [StrandCall.ends])]
  have hworks : ∀ {b}, Works ok s b → Works ok { s with queue := rest } b := fun hb =>
    hb.of_eq rfl rfl rfl rfl le_rfl hendings.symm rfl rfl
  obtain ⟨un, hphase, hparse⟩ := hp
  cases hphase with
  | hdrAsked _ _ _ hdone => exact absurd (hhead.symm.trans hdone) (by simp)
  | bodyAsked _ _ _ hdone => exact absurd (hhead.symm.trans hdone) (by simp)
  | failed _ _ _ hdone _ => exact absurd (hhead.symm.trans hdone) (by simp)
  | hdrHere hb hat hrecvs hdone =>
    obtain ⟨hcall, hrest⟩ := List.cons.inj (hhead.symm.trans hdone)
    obtain ⟨rfl, rfl⟩ := StrandCall.onRecv.inj hcall
    have hopen := (hworks hb).isOpen
    rw [iOnRecvStrand_header hopen hat.flag]
    exact (hworks hb).header hfree ⟨hat.flag, hat.hasRecved, hat.cmdBody, hat.bodyLen⟩ hrecvs hrest
      hparse
  | bodyHere hb hat hrecvs hdone =>
    obtain ⟨hcall, hrest⟩ := List.cons.inj (hhead.symm.trans hdone)
    obtain ⟨rfl, rfl⟩ := StrandCall.onRecv.inj hcall
    exact (hworks hb).body ⟨hat.magic, hat.cmdBody, hat.bodyLen, hat.length, hat.id, hat.flag,
      hat.start, hat.more⟩ hrecvs hrest hparse
  | stopped hok hstop =>
    rcases hstop with hclosed | ⟨-, hdone⟩
    · rw [show ({ s with queue := rest } : Port).iOnRecvStrand env bt err = _ from
        if_pos (.inr hclosed)]
      exact ⟨un, .stopped hok (.inl hclosed), hparse⟩
    · exact absurd (hhead.symm.trans hdone) (by simp)

theorem Parsing.exec (hfree : ok → ∀ n, env.busy n = false) (hp : Parsing ok env.ks s)
    {call : StrandCall} {rest : List StrandCall} (hq : s.queue = call :: rest) :
    Parsing ok env.ks ({ s with queue := rest }.exec env call) := by
  cases call with
  | sendMessage ci => exact (hp.pop hq rfl rfl).sender (iSendMessageStrand_frame _ ci) (by simp)
  | onRecv bt err => exact hp.onRecv hfree hq
  | onSend bt err => exact (hp.pop hq rfl rfl).sender (iOnSendStrand_frame _ bt) (by simp)
  | onError err =>
    have hclear : ∀ evs : List Event, evs = (if s.errCb then [.errCb err] else []) →
        Parsing ok env.ks ({ s with queue := rest, trace := s.trace ++ evs } : Port).iDoClear := by
      rintro evs rfl
      refine hp.clear hq rfl ?_ ?_ fun hraised => ?_
      · split <;> rfl
      · split <;> rfl
      · have hend : s.endings = .onError err :: rest.filter StrandCall.ends := by
          rw [Port.endings, hq, List.filter_cons_of_pos rfl]
        rcases hraised with ⟨hone, herrors, hcb⟩ | ⟨hnone, -⟩
        · obtain ⟨hcall, hrest⟩ := List.cons.inj (hend.symm.trans hone)
          obtain rfl := StrandCall.onError.inj hcall
          rw [hcb, herrors]
          exact ⟨hrest, rfl⟩
        · exact absurd (hend.symm.trans hnone) (by simp)
    unfold Port.exec Port.iOnErrorStrand
    simp only
    split
    next hcb => exact hclear [.errCb err] (by rw [if_pos hcb])
    next hcb =>
      have := hclear [] (by rw [if_neg hcb])
      rwa [List.append_nil] at this
  | doClear =>
    have hend : s.endings = .doClear :: rest.filter StrandCall.ends := by
      rw [Port.endings, hq, List.filter_cons_of_pos rfl]
    have := hp.clear hq rfl (show ([] : List Event).flatMap Event.bytes = [] from rfl) rfl
      fun hraised => by
      rcases hraised with ⟨hone, -⟩ | ⟨hnone, -⟩
      · exact absurd (hend.symm.trans hone) (by simp)
      · exact absurd (hend.symm.trans hnone) (by simp)
    rwa [List.append_nil] at this
  | other => exact hp.pop hq rfl rfl

/-! ## The end of a read -/

theorem received_seen (s : Port) (i : ℕ) (r : RecvReq) (bytes : List UInt8) :
    (s.received i r bytes).taken = s.taken ++ bytes ∧
      (s.received i r bytes).delivered = s.delivered ∧
      (s.received i r bytes).errors = s.errors := by
  refine ⟨?_, ?_, ?_⟩
  · simp [Port.taken, Port.received, Port.log, Event.bytes]
  · simp [Port.delivered, Port.received, Port.log, Event.delivery?]
  · simp [Port.errors, Port.received, Port.log, Event.error?]

theorem post_unseen (env : Env) (s : Port) (call : StrandCall) :
    (s.post env call).taken = s.taken ∧ (s.post env call).delivered = s.delivered := by
  unfold Port.post
  split
  · exact ⟨by simp [Port.taken, Port.log, Event.bytes],
      by simp [Port.delivered, Port.log, Event.delivery?]⟩
  · exact ⟨rfl, rfl⟩

/-- The completion of the only read is posted; if it is refused, the machine has stopped. -/
theorem Phase.post_done (hfree : ok → ∀ n, env.busy n = false) (hrecvs : s.recvs = [])
    (hdone : s.completions = []) {bt : ℤ}
    (hthen : Phase ok { s with queue := s.queue ++ [.onRecv bt 0] } un) :
    Phase ok (s.post env (.onRecv bt 0)) un := by
  unfold Port.post
  split
  next hbusy =>
    have hnot : ¬ ok := fun ho => absurd ((hfree ho _).symm.trans hbusy) (by simp)
    exact .stopped hnot (.inr ⟨hrecvs, hdone⟩)
  next => exact hthen

theorem fill_header (b : Buf) (r : RecvReq) (bytes : List UInt8) (hid : b.id = r.buf)
    (hoffset : r.offset = 0) (hlen : b.bytes.length = bytes.length) :
    Port.fill r bytes b = ⟨b.id, bytes⟩ := by
  rw [Port.fill, if_pos hid, hoffset]
  simp [← hlen]

theorem fill_other (b : Buf) (r : RecvReq) (bytes : List UInt8) (hid : b.id ≠ r.buf) :
    Port.fill r bytes b = b := if_neg hid

theorem fill_part (c : Buf) (r : RecvReq) (bytes : List UInt8) (hid : c.id = r.buf)
    (hfits : r.offset.toNat + bytes.length ≤ c.bytes.length) :
    (Port.fill r bytes c).id = c.id ∧ (Port.fill r bytes c).bytes.length = c.bytes.length ∧
      (Port.fill r bytes c).bytes.take (r.offset.toNat + bytes.length) =
        c.bytes.take r.offset.toNat ++ bytes := by
  have hlen : (c.bytes.take r.offset.toNat ++ bytes).length = r.offset.toNat + bytes.length := by
    rw [List.length_append, List.length_take]
    omega
  rw [Port.fill, if_pos hid]
  refine ⟨rfl, ?_, ?_⟩
  · rw [List.length_append, hlen, List.length_drop]
    omega
  · rw [← hlen, List.take_left]

theorem only_read {i : ℕ} {q r : RecvReq} (hr : s.recvs[i]? = some r) (hq : s.recvs = [q]) :
    q = r ∧ s.recvs.eraseIdx i = [] := by
  rw [hq] at hr ⊢
  cases i with
  | zero => exact ⟨Option.some.inj hr, rfl⟩
  | succ i => simp at hr

theorem push_onRecv (s : Port) (bt : ℤ) :
    (s.queue ++ [StrandCall.onRecv bt 0]).filter StrandCall.ends = s.endings ∧
      (s.queue ++ [StrandCall.onRecv bt 0]).filter StrandCall.isOnRecv =
        s.completions ++ [.onRecv bt 0] := by
  rw [List.filter_append, List.filter_append]
  exact ⟨List.append_nil _, rfl⟩

/-- The machine with the bytes of a read, and its completion on the strand. -/
theorem Works.received {b b' : Buf} (hb : Works ok s b) (i : ℕ) {r : RecvReq} {bytes : List UInt8}
    (bt : ℤ) (hfill : Port.fill r bytes b = b') (hlen : b'.bytes.length = headerLen)
    (hid : b'.id = b.id) :
    Works ok { s.received i r bytes with queue := s.queue ++ [.onRecv bt 0] } b' := by
  obtain ⟨-, -, herrors⟩ := received_seen s i r bytes
  refine ⟨hb.isOpen, hb.callback, hb.recvCb, ?_, hlen, hid ▸ hb.hdrId, fun ho => ?_⟩
  · show s.cmdHdr.map _ = _
    rw [hb.cmdHdr, Option.map_some, hfill]
  · have hcalm := hb.calm ho
    exact ⟨(push_onRecv s bt).1.trans hcalm.endings, herrors.trans hcalm.errors, hcalm.errCb⟩

theorem Works.headerRead {b : Buf} (hb : Works ok s b) (hat : AtHeader s)
    (hdone : s.completions = []) {i : ℕ} (herase : s.recvs.eraseIdx i = []) {bytes : List UInt8}
    (hlen : bytes.length = headerLen) :
    Phase ok { s.received i ⟨b.id, 0, headerLen⟩ bytes with
      queue := s.queue ++ [.onRecv headerLen 0] } bytes := by
  have hfill := fill_header b ⟨b.id, 0, headerLen⟩ bytes rfl rfl (hb.hdrLen.trans hlen.symm)
  refine .hdrHere (hb.received i headerLen hfill hlen rfl)
    ⟨hat.flag, hat.hasRecved, ?_, hat.bodyLen⟩ herase ?_
  · show s.cmdBody.map _ = _
    rw [hat.cmdBody]
    rfl
  · exact (push_onRecv s headerLen).2.trans (congrArg (· ++ _) hdone)

theorem Works.partRead {b c : Buf} (hb : Works ok s b) (hat : AtBody s b c)
    (hdone : s.completions = []) {i : ℕ} (herase : s.recvs.eraseIdx i = []) {bytes : List UInt8}
    (hlen : (bytes.length : ℤ) = s.nextLen) :
    Phase ok { s.received i ⟨c.id, s.hasRecved, s.nextLen⟩ bytes with
      queue := s.queue ++ [.onRecv s.nextLen 0] }
      (b.bytes ++ c.bytes.take s.hasRecved.toNat ++ bytes) := by
  have hstart := hat.start
  have hmore := hat.more
  have hlength := hat.length
  have hnext : s.nextLen = min (s.bodyLen - s.hasRecved) tpMaxRecvSize := rfl
  have hsize : tpMaxRecvSize = 2048 := rfl
  obtain ⟨hid, hkeep, htake⟩ := fill_part c ⟨c.id, s.hasRecved, s.nextLen⟩ bytes rfl
    (by simp only; omega)
  have hother := fill_other b ⟨c.id, s.hasRecved, s.nextLen⟩ bytes hat.id
  have hun : b.bytes ++ c.bytes.take s.hasRecved.toNat ++ bytes = b.bytes ++
      (Port.fill ⟨c.id, s.hasRecved, s.nextLen⟩ bytes c).bytes.take
        (s.hasRecved + s.nextLen).toNat := by
    rw [List.append_assoc, ← htake]
    congr 2
    simp only
    omega
  rw [hun]
  refine .bodyHere (c := Port.fill _ bytes c) (hb.received i s.nextLen hother hb.hdrLen rfl)
    ⟨hat.magic, ?_, hat.bodyLen, ?_, ?_, hat.flag, hat.start, hat.more⟩ herase ?_
  · show s.cmdBody.map _ = _
    rw [hat.cmdBody, Option.map_some]
  · rw [hkeep]
    exact hat.length
  · rw [hid]
    exact hat.id
  · exact (push_onRecv s s.nextLen).2.trans (congrArg (· ++ _) hdone)

theorem Phase.received (hfree : ok → ∀ n, env.busy n = false) (hp : Phase ok s un) {i : ℕ}
    {r : RecvReq} {bytes : List UInt8} (hr : s.recvs[i]? = some r)
    (hlen : (bytes.length : ℤ) = r.len) :
    Phase ok (if s.sockRecvCb then (s.received i r bytes).post env (.onRecv r.len 0)
      else s.received i r bytes) (un ++ bytes) := by
  have hnil : s.recvs ≠ [] := fun hnil => by simp [hnil] at hr
  cases hp with
  | hdrHere _ _ hrecvs _ => exact absurd hrecvs hnil
  | bodyHere _ _ hrecvs _ => exact absurd hrecvs hnil
  | failed _ _ hrecvs _ _ => exact absurd hrecvs hnil
  | stopped hok hstop =>
    have hclosed := hstop.resolve_right fun h => hnil h.1
    refine .stopped hok (.inl ?_)
    split
    · exact (post_isOpen _ _).trans hclosed
    · exact hclosed
  | hdrAsked hb hat hrecvs hdone =>
    obtain ⟨rfl, herase⟩ := only_read hr hrecvs
    rw [if_pos hb.callback]
    refine Phase.post_done (s := s.received i _ bytes) hfree herase hdone ?_
    exact hb.headerRead hat hdone herase (Int.ofNat_inj.mp hlen)
  | bodyAsked hb hat hrecvs hdone =>
    obtain ⟨rfl, herase⟩ := only_read hr hrecvs
    rw [if_pos hb.callback]
    refine Phase.post_done (s := s.received i _ bytes) hfree herase hdone ?_
    exact hb.partRead hat hdone herase hlen

theorem Parsing.recvDone (hfree : ok → ∀ n, env.busy n = false) (hp : Parsing ok env.ks s) {i : ℕ}
    {r : RecvReq} {bytes : List UInt8} (hr : s.recvs[i]? = some r)
    (hlen : (bytes.length : ℤ) = r.len) :
    Parsing ok env.ks (if s.sockRecvCb then (s.received i r bytes).post env (.onRecv r.len 0)
      else s.received i r bytes) := by
  obtain ⟨un, hphase, hparse⟩ := hp
  obtain ⟨htaken, hdelivered, -⟩ := received_seen s i r bytes
  obtain ⟨htaken', hdelivered'⟩ := post_unseen env (s.received i r bytes) (.onRecv r.len 0)
  have hphase' := hphase.received hfree hr hlen
  have hz : ∀ z, (frames env.ks).parse (s.taken ++ bytes ++ z) =
      ((frames env.ks).parse (un ++ bytes ++ z)).after s.delivered := by
    intro z
    rw [List.append_assoc, hparse, List.append_assoc]
  refine ⟨un ++ bytes, hphase', fun z => ?_⟩
  split
  · rw [htaken', htaken, hdelivered', hdelivered]
    exact hz z
  · rw [htaken, hdelivered]
    exact hz z

theorem Parsing.recvFail (hok : ¬ ok) (hp : Parsing ok env.ks s) {i : ℕ} (hi : i < s.recvs.length)
    (err : ℤ) : Parsing ok env.ks ({ s with recvs := s.recvs.eraseIdx i }.errorOccur env err) := by
  obtain ⟨un, hphase, hparse⟩ := hp
  have hnil : s.recvs ≠ [] := fun hnil => by simp [hnil] at hi
  have hone : ∀ q : RecvReq, s.recvs = [q] → s.recvs.eraseIdx i = [] := fun q hq =>
    (only_read (List.getElem?_eq_getElem hi) hq).2
  have hstop : s.isOpen = false ∨ s.recvs.eraseIdx i = [] ∧ s.completions = [] := by
    cases hphase with
    | hdrAsked _ _ hrecvs hdone => exact .inr ⟨hone _ hrecvs, hdone⟩
    | bodyAsked _ _ hrecvs hdone => exact .inr ⟨hone _ hrecvs, hdone⟩
    | hdrHere _ _ hrecvs _ => exact absurd hrecvs hnil
    | bodyHere _ _ hrecvs _ => exact absurd hrecvs hnil
    | failed _ _ hrecvs _ _ => exact absurd hrecvs hnil
    | stopped _ h => exact .inl (h.resolve_right fun h => hnil h.1)
  have herased : Parsing ok env.ks { s with recvs := s.recvs.eraseIdx i } :=
    ⟨un, .stopped hok hstop, hparse⟩
  obtain ⟨calls, hst, hcalls⟩ := errorOccur_frame env { s with recvs := s.recvs.eraseIdx i } err
  refine herased.sender hst fun call hcall => ⟨?_, fun ho => absurd ho hok⟩
  rcases hcalls with rfl | rfl
  · cases hcall
  · rw [List.mem_singleton.mp hcall]
    rfl

/-! ## Every step -/

theorem parsing_step (hfree : ok → ∀ n, env.busy n = false) (hp : Parsing ok env.ks s) {a : Action}
    (ha : ok → a.disturbs = false) (hs : step env s a = some t) : Parsing ok env.ks t := by
  by_cases hsender : a.ofSender = true
  · obtain ⟨calls, hst, hcalls⟩ := sender_step_frame hsender hs
    refine hp.sender hst fun call hcall => ⟨(hcalls call hcall).1, fun ho => ?_⟩
    exact Bool.eq_false_iff.mpr fun hends =>
      absurd ((ha ho).symm.trans ((hcalls call hcall).2 hends)) (by simp)
  cases a with
  | work =>
    obtain ⟨call, rest, hq, rfl⟩ := step_work_iff.mp hs
    exact hp.exec hfree hq
  | recvDone i bytes =>
    obtain ⟨r, hr, hlen, rfl⟩ := step_recvDone_iff.mp hs
    exact hp.recvDone hfree hr hlen
  | recvFail i err =>
    obtain ⟨hi, rfl⟩ := step_recvFail_iff.mp hs
    exact hp.recvFail (fun ho => absurd (ha ho) (by simp [Action.disturbs])) hi err
  | _ => exact absurd rfl hsender

theorem parsing_bound (ok : Prop) (ks : ℕ → UInt8) (load : ℕ) : Parsing ok ks (bound load) := by
  have hnone : ∀ p : StrandCall → Bool, p .other = false →
      (List.replicate load StrandCall.other).filter p = [] := by
    intro p hp
    exact List.filter_eq_nil_iff.mpr fun call hcall => by simp [List.eq_of_mem_replicate hcall, hp]
  refine ⟨[], .hdrAsked (b := ⟨0, List.replicate headerLen 0⟩) ⟨rfl, rfl, rfl, rfl,
    List.length_replicate, Nat.one_pos, fun _ => ⟨hnone _ rfl, rfl, rfl⟩⟩ ⟨rfl, rfl, rfl, rfl⟩ rfl
    (hnone _ rfl), fun z => ?_⟩
  rfl

end

end DevFramework.Netport
