import DevFramework.Netport.Receiving
import Mathlib.Data.List.Forall2

/-! # The reads of the receive machine

Every header is read in one piece and every body in pieces of at most `tpMaxRecvSize` bytes, one
behind the other. `Asked` says which reads have been asked for: for every frame that was delivered
its header and its whole body, and for the frame in progress what the counters say.
-/
namespace DevFramework.Netport
open Transition Framing
set_option autoImplicit false
set_option maxHeartbeats 250000

/-! ## Reads one behind the other -/

/-- The read of a header, into the buffer that was allocated when the socket was bound. -/
def headerReq : RecvReq := ⟨0, 0, headerLen⟩

/-- The reads are pieces of one buffer, one behind the other. -/
def Chunked (id : ℕ) : ℤ → List RecvReq → ℤ → Prop
  | start, [], stop => start = stop
  | start, r :: rs, stop => r.buf = id ∧ r.offset = start ∧ 0 < r.len ∧ r.len ≤ tpMaxRecvSize ∧
      Chunked id (start + r.len) rs stop

theorem Chunked.append {id : ℕ} {start stop : ℤ} {rs : List RecvReq} (h : Chunked id start rs stop)
    {r : RecvReq} (hbuf : r.buf = id) (hoffset : r.offset = stop) (hpos : 0 < r.len)
    (hmax : r.len ≤ tpMaxRecvSize) : Chunked id start (rs ++ [r]) (stop + r.len) := by
  induction rs generalizing start with
  | nil =>
    obtain rfl : start = stop := h
    exact ⟨hbuf, hoffset, hpos, hmax, rfl⟩
  | cons r' rs ih =>
    obtain ⟨hbuf', hoffset', hpos', hmax', hrest⟩ := h
    exact ⟨hbuf', hoffset', hpos', hmax', ih hrest⟩

/-- The lengths of the pieces add up. -/
theorem Chunked.sum {id : ℕ} {start stop : ℤ} {rs : List RecvReq} (h : Chunked id start rs stop) :
    start + (rs.map RecvReq.len).sum = stop := by
  induction rs generalizing start with
  | nil =>
    obtain rfl : start = stop := h
    simp
  | cons r rs ih =>
    obtain ⟨-, -, -, -, hrest⟩ := h
    have hsum := ih hrest
    simp only [List.map_cons, List.sum_cons]
    omega

/-- The reads are those of the body of the frame that was delivered, which its header announces. -/
def Whole (chunks : List RecvReq) (d : Delivery) : Prop :=
  d.len = max (getBodyLen d.hdr) 0 ∧ (∃ id, Chunked id 0 chunks d.len) ∧
    (chunks.map RecvReq.len).sum = d.len

/-- The reads of the body of the frame in progress. -/
inductive InFrame (s : Port) : List RecvReq → Prop where
  | header (flag : s.flag = 1) (hasRecved : s.hasRecved = 0) : InFrame s []
  | body {id : ℕ} {cs : List RecvReq}
      (flag : s.flag = 0 ∧ s.hasRecved = 0 ∧ s.bodyLen ≤ tpMaxRecvSize ∨ s.flag = 2)
      (start : 0 ≤ s.hasRecved) (more : s.hasRecved < s.bodyLen)
      (chunks : Chunked id 0 cs (s.hasRecved + s.nextLen))
      (buffer : ∀ c, s.cmdBody = some c → c.id = id) : InFrame s cs

/-- The reads asked for so far. -/
structure Asked (s : Port) (css : List (List RecvReq)) (cs : List RecvReq) : Prop where
  requests : s.requests = (css.flatMap fun cs => headerReq :: cs) ++ headerReq :: cs
  whole : List.Forall₂ Whole css s.delivered
  frame : InFrame s cs
  header : ∀ b, s.cmdHdr = some b → b.id = 0

/-- The read lies inside the buffer that it is for. -/
def InBuffer (s : Port) (r : RecvReq) : Prop :=
  (∃ b, s.cmdHdr = some b ∧ r = ⟨b.id, 0, headerLen⟩ ∧ b.bytes.length = headerLen) ∨
    ∃ c, s.cmdBody = some c ∧ r.buf = c.id ∧ (c.bytes.length : ℤ) = s.bodyLen ∧
      0 < r.len ∧ r.len ≤ tpMaxRecvSize ∧ r.offset = s.hasRecved ∧ 0 ≤ s.hasRecved ∧
      s.hasRecved + r.len ≤ s.bodyLen

section
variable {env : Env} {s t u : Port} {calls : List StrandCall} {css : List (List RecvReq)}
  {cs : List RecvReq}

/-! ## What leaves the counters alone -/

/-- `t` is `s` for the reads; buffers may have been filled or released. -/
structure Untouched (s t : Port) : Prop where
  flag : t.flag = s.flag
  hasRecved : t.hasRecved = s.hasRecved
  bodyLen : t.bodyLen = s.bodyLen
  requests : t.requests = s.requests
  delivered : t.delivered = s.delivered
  cmdHdr : ∀ b, t.cmdHdr = some b → ∃ b₀, s.cmdHdr = some b₀ ∧ b.id = b₀.id
  cmdBody : ∀ c, t.cmdBody = some c → ∃ c₀, s.cmdBody = some c₀ ∧ c.id = c₀.id

theorem Untouched.of_eq (hflag : t.flag = s.flag) (hhas : t.hasRecved = s.hasRecved)
    (hlen : t.bodyLen = s.bodyLen) (hreq : t.requests = s.requests)
    (hdelivered : t.delivered = s.delivered) (hhdr : t.cmdHdr = s.cmdHdr)
    (hbody : t.cmdBody = s.cmdBody) : Untouched s t :=
  ⟨hflag, hhas, hlen, hreq, hdelivered, fun b hb => ⟨b, hhdr ▸ hb, rfl⟩,
    fun c hc => ⟨c, hbody ▸ hc, rfl⟩⟩

theorem Untouched.trans (h : Untouched s t) (h' : Untouched t u) : Untouched s u := by
  refine ⟨h'.flag.trans h.flag, h'.hasRecved.trans h.hasRecved, h'.bodyLen.trans h.bodyLen,
    h'.requests.trans h.requests, h'.delivered.trans h.delivered, fun b hb => ?_, fun c hc => ?_⟩
  · obtain ⟨b₁, hb₁, hid⟩ := h'.cmdHdr b hb
    obtain ⟨b₀, hb₀, hid₀⟩ := h.cmdHdr b₁ hb₁
    exact ⟨b₀, hb₀, hid.trans hid₀⟩
  · obtain ⟨c₁, hc₁, hid⟩ := h'.cmdBody c hc
    obtain ⟨c₀, hc₀, hid₀⟩ := h.cmdBody c₁ hc₁
    exact ⟨c₀, hc₀, hid.trans hid₀⟩

theorem Asked.untouched (h : Asked s css cs) (hst : Untouched s t) : Asked t css cs := by
  refine ⟨hst.requests.trans h.requests, by rw [hst.delivered]; exact h.whole, ?_, fun b hb => ?_⟩
  · have hnext : t.nextLen = s.nextLen := by rw [Port.nextLen, hst.bodyLen, hst.hasRecved]; rfl
    cases h.frame with
    | header hflag hhas => exact .header (hst.flag.trans hflag) (hst.hasRecved.trans hhas)
    | body hflag hstart hmore hchunks hbuffer =>
      rw [← hst.flag, ← hst.hasRecved, ← hst.bodyLen] at hflag
      rw [← hst.hasRecved] at hstart
      rw [← hst.hasRecved, ← hst.bodyLen] at hmore
      rw [← hst.hasRecved, ← hnext] at hchunks
      refine .body hflag hstart hmore hchunks fun c hc => ?_
      obtain ⟨c₀, hc₀, hid⟩ := hst.cmdBody c hc
      exact hid.trans (hbuffer c₀ hc₀)
  · obtain ⟨b₀, hb₀, hid⟩ := hst.cmdHdr b hb
    exact hid.trans (h.header b₀ hb₀)

theorem SendOnly.untouched (hst : SendOnly s t calls)
    (hcalls : ∀ call ∈ calls, call.isOnRecv = false) : Untouched s t := by
  obtain ⟨hsame, -, hdelivered⟩ := hst.same hcalls
  exact .of_eq hsame.flag hsame.hasRecved hsame.bodyLen hst.requests hdelivered hsame.cmdHdr
    hsame.cmdBody

theorem untouched_clear (s : Port) : Untouched s s.iDoClear := by
  obtain ⟨-, hdelivery, -⟩ := clearEvents_unseen s
  have hreq := iDoClear_requests s
  rw [iDoClear_eq] at hreq ⊢
  refine ⟨rfl, rfl, rfl, hreq, ?_, nofun, nofun⟩
  rw [Port.delivered, List.filterMap_append, hdelivery, List.append_nil]
  rfl

theorem untouched_received (s : Port) (i : ℕ) (r : RecvReq) (bytes : List UInt8) :
    Untouched s (s.received i r bytes) := by
  have hfill : ∀ (o : Option Buf) b, o.map (Port.fill r bytes) = some b →
      ∃ b₀, o = some b₀ ∧ b.id = b₀.id := by
    intro o b hb
    obtain ⟨b₀, hb₀, rfl⟩ := Option.map_eq_some_iff.mp hb
    exact ⟨b₀, hb₀, fill_id r bytes b₀⟩
  refine ⟨rfl, rfl, rfl, ?_, (received_seen s i r bytes).2.1, hfill s.cmdHdr, hfill s.cmdBody⟩
  exact requests_append s.trace [.received bytes] rfl

theorem untouched_post (env : Env) (s : Port) (call : StrandCall) :
    Untouched s (s.post env call) := by
  unfold Port.post
  split
  · exact .of_eq rfl rfl rfl (requests_append s.trace _ rfl)
      (by simp [Port.delivered, Port.log, Event.delivery?]) rfl rfl
  · exact .of_eq rfl rfl rfl rfl rfl rfl rfl

/-! ## A strand call of the receive machine -/

/-- What a step asks for lies inside the buffers. -/
structure Issues (s t : Port) (rs : List RecvReq) : Prop where
  requests : t.requests = s.requests ++ rs
  inside : ∀ r ∈ rs, InBuffer t r

theorem Untouched.issues (h : Untouched s t) : Issues s t [] :=
  ⟨by rw [h.requests, List.append_nil], fun r hr => absurd hr List.not_mem_nil⟩

theorem Issues.one {r : RecvReq} (hreq : t.requests = s.requests ++ [r]) (hin : InBuffer t r) :
    Issues s t [r] := by
  refine ⟨hreq, fun r' hr' => ?_⟩
  rw [List.mem_singleton.mp hr']
  exact hin

/-- A header that announces no command ends the machine. -/
def BadHeader (s : Port) : Prop := s.flag = 1 ∧ ∃ b, s.cmdHdr = some b ∧ clone b.bytes = none

/-- What a receipt asks for: one read, unless the header is bad. -/
def Continues (s t : Port) : Prop :=
  ∃ css cs rs, Asked t css cs ∧ Issues s t rs ∧ (rs.length = 1 ∨ rs = [] ∧ BadHeader s)

theorem requests_push (trace : List Event) (r : RecvReq) :
    (trace ++ [Event.recvReq r]).filterMap Event.request? =
      trace.filterMap Event.request? ++ [r] := by
  rw [List.filterMap_append]
  rfl

/-- One more read of the body in progress. -/
theorem Asked.push (h : Asked s css cs) {r : RecvReq} (hreq : t.requests = s.requests ++ [r])
    (hdelivered : t.delivered = s.delivered) (hhdr : t.cmdHdr = s.cmdHdr)
    (hframe : InFrame t (cs ++ [r])) : Asked t css (cs ++ [r]) := by
  refine ⟨?_, hdelivered ▸ h.whole, hframe, hhdr ▸ h.header⟩
  rw [hreq, h.requests, List.append_assoc]
  rfl

variable (env) in
/-- A complete frame: its header's and its body's reads are done, and the next header is asked for. -/
theorem asked_recvBody {ok : Prop} {b : Buf} (hb : Works ok s b) {body : List UInt8}
    (hbody : Complete s body) (hzero : s.hasRecved = 0) (hrecvs : s.recvs = [])
    (hdone : s.completions = [])
    (hreq : s.requests = (css.flatMap fun cs => headerReq :: cs) ++ headerReq :: cs)
    (hwhole : List.Forall₂ Whole css s.delivered) (hid : b.id = 0)
    (hchunks : Whole cs (deliver env.ks b.bytes body)) :
    Asked (s.recvBody env) (css ++ [cs]) [] ∧ Issues s (s.recvBody env) [headerReq] := by
  obtain ⟨-, -, hdelivered⟩ := hb.recvBody env hbody hzero hrecvs hdone
  have hnext : (s.recvBody env).requests = s.requests ++ [headerReq] := by
    have hfree : (freeEvents s).filterMap Event.request? = [] := by
      unfold freeEvents
      cases s.cmdBody <;> rfl
    rw [recvBody_eq hb.isOpen hb.cmdHdr, processEvents_complete hb.recvCb hbody, hid]
    simp only [Port.requests, List.filterMap_append, hfree]
    rfl
  have hhdr : (s.recvBody env).cmdHdr = some ⟨0, List.replicate headerLen 0⟩ := by
    rw [recvBody_eq hb.isOpen hb.cmdHdr, hid]
  have hflag : (s.recvBody env).flag = 1 := by rw [recvBody_eq hb.isOpen hb.cmdHdr]
  have hcount : (s.recvBody env).hasRecved = 0 := by
    rw [recvBody_eq hb.isOpen hb.cmdHdr]
    exact hzero
  refine ⟨⟨?_, ?_, .header hflag hcount, fun b' hb' => ?_⟩, .one hnext ?_⟩
  · rw [hnext, hreq, List.flatMap_append]
    simp
  · rw [hdelivered]
    exact List.rel_append hwhole (.cons hchunks .nil)
  · rw [hhdr] at hb'
    rw [← Option.some.inj hb']
  · exact .inl ⟨_, hhdr, rfl, List.length_replicate⟩

/-- A header is there that announces a body: its first piece is asked for. -/
theorem asked_recvHeader_body {ok : Prop} {b : Buf} (hb : Works ok s b) (hat : AtHeader s)
    (h : Asked s css []) (hsh : clone b.bytes = some b.bytes) (hpos : 0 < getBodyLen b.bytes) :
    Continues s (s.recvHeader env) := by
  let r : RecvReq := ⟨s.made, 0, min (getBodyLen b.bytes) tpMaxRecvSize⟩
  have hsize : tpMaxRecvSize = 2048 := rfl
  have hreq := requests_push s.trace r
  obtain ⟨-, hdelivered, -⟩ := recvReq_unseen r s.trace
  have hlen : 0 < r.len := by
    show 0 < min (getBodyLen b.bytes) tpMaxRecvSize
    omega
  rw [recvHeader_body hb.isOpen hb.cmdHdr hsh hpos]
  refine ⟨css, [r], [r], h.push hreq hdelivered rfl ?_, .one hreq ?_, .inl rfl⟩
  · have hnext : s.hasRecved + min (getBodyLen b.bytes - s.hasRecved) tpMaxRecvSize =
        0 + r.len := by rw [hat.hasRecved, sub_zero]
    have hchunk : Chunked s.made 0 [r] (0 + r.len) := ⟨rfl, rfl, hlen, min_le_right _ _, rfl⟩
    rw [← hnext] at hchunk
    refine .body ?_ hat.hasRecved.ge (hat.hasRecved.trans_lt hpos) hchunk ?_
    · show (if getBodyLen b.bytes > tpMaxRecvSize then (2 : ℤ) else 0) = 0 ∧ _ ∨ _
      split
      next => exact .inr rfl
      next hshort => exact .inl ⟨rfl, hat.hasRecved, not_lt.mp hshort⟩
    · intro c hc
      rw [← Option.some.inj hc]
  · refine .inr ⟨_, rfl, rfl, ?_, hlen, min_le_right _ _, hat.hasRecved.symm, hat.hasRecved.ge, ?_⟩
    · simp only [List.length_replicate]
      omega
    · show s.hasRecved + min (getBodyLen b.bytes) tpMaxRecvSize ≤ getBodyLen b.bytes
      rw [hat.hasRecved]
      omega

variable (env) in
/-- A header is there. -/
theorem asked_recvHeader {ok : Prop} {b : Buf} (hb : Works ok s b) (hat : AtHeader s)
    (hrecvs : s.recvs = []) (hdone : s.completions = []) (h : Asked s css cs) :
    Continues s (s.recvHeader env) := by
  have hid := h.header b hb.cmdHdr
  have hcs : cs = [] := by
    cases h.frame with
    | header _ _ => rfl
    | body hflag _ _ _ _ =>
      have := hat.flag
      omega
  subst hcs
  by_cases hmagic : magic b.bytes = magicNum
  · have hsh : clone b.bytes = some b.bytes := if_pos hmagic
    by_cases hn : getBodyLen b.bytes ≤ 0
    · rw [recvHeader_alone hb.cmdHdr hsh hn]
      have hset : Works ok { s with flag := 0 } b := hb.of_eq rfl rfl rfl rfl le_rfl rfl rfl rfl
      have hwhole : Whole [] (deliver env.ks b.bytes []) :=
        ⟨(max_eq_right hn).symm, ⟨0, rfl⟩, rfl⟩
      obtain ⟨hasked, hissues⟩ := asked_recvBody env hset (.inl ⟨hat.bodyLen, rfl⟩)
        hat.hasRecved hrecvs hdone h.requests h.whole hid hwhole
      exact ⟨_, _, _, hasked, ⟨hissues.requests, hissues.inside⟩, .inl rfl⟩
    · exact asked_recvHeader_body hb hat h hsh (not_le.mp hn)
  · have hbad : clone b.bytes = none := if_neg hmagic
    rw [recvHeader_bad hb.cmdHdr hbad]
    have hpost := untouched_post env s (.onError badHeader)
    exact ⟨css, [], [], h.untouched hpost, hpost.issues, .inr ⟨rfl, hat.flag, b, hb.cmdHdr, hbad⟩⟩

/-- The reads of a body so far, where a part of it is there. -/
theorem Asked.chunked {b c : Buf} (h : Asked s css cs) (hat : AtBody s b c) :
    Chunked c.id 0 cs (s.hasRecved + s.nextLen) := by
  cases h.frame with
  | header hflag _ =>
    have := hat.flag
    omega
  | body _ _ _ hchunks hbuffer => rwa [hbuffer c hat.cmdBody]

/-- With the last part they are those of the whole body. -/
theorem Asked.whole_last {b c : Buf} (h : Asked s css cs) (hat : AtBody s b c)
    (hlast : s.hasRecved + s.nextLen = s.bodyLen) : Whole cs (deliver env.ks b.bytes c.bytes) := by
  have hchunks := h.chunked hat
  have hsum := hchunks.sum
  have hstart := hat.start
  have hmore := hat.more
  have hlength := hat.length
  have hbody := hat.bodyLen
  refine ⟨?_, ⟨c.id, ?_⟩, ?_⟩
  · simp only [deliver]
    omega
  · simp only [deliver]
    rw [hlength, ← hlast]
    exact hchunks
  · simp only [deliver]
    omega

variable (env) in
/-- A part of a long body is there, not the last: the next one is asked for. -/
theorem asked_part {ok : Prop} {b c : Buf} (hb : Works ok s b) (hat : AtBody s b c)
    (h : Asked s css cs) (hflag : s.flag = 2) (hlast : s.hasRecved + s.nextLen ≠ s.bodyLen) :
    Continues s (s.recvPart env s.nextLen) := by
  have hstart := hat.start
  have hmore := hat.more
  have hnext : s.nextLen = min (s.bodyLen - s.hasRecved) tpMaxRecvSize := rfl
  have hsize : tpMaxRecvSize = 2048 := rfl
  let r : RecvReq := ⟨c.id, s.hasRecved + s.nextLen,
    min (s.bodyLen - (s.hasRecved + s.nextLen)) tpMaxRecvSize⟩
  have hreq := requests_push s.trace r
  obtain ⟨-, hdelivered, -⟩ := recvReq_unseen r s.trace
  have hpos : 0 < r.len := by
    show 0 < min (s.bodyLen - (s.hasRecved + s.nextLen)) tpMaxRecvSize
    omega
  have hbefore : 0 ≤ s.hasRecved + s.nextLen := by omega
  have hbehind : s.hasRecved + s.nextLen < s.bodyLen := by omega
  have hfits : s.hasRecved + s.nextLen +
      min (s.bodyLen - (s.hasRecved + s.nextLen)) tpMaxRecvSize ≤ s.bodyLen := by omega
  have hchunks := (h.chunked hat).append (r := r) rfl rfl hpos (min_le_right _ _)
  rw [recvPart_next hb.isOpen hat.cmdBody hlast]
  refine ⟨css, cs ++ [r], [r], h.push hreq hdelivered rfl ?_, .one hreq ?_, .inl rfl⟩
  · refine .body (.inr hflag) hbefore hbehind hchunks fun c' hc' => ?_
    rw [hat.cmdBody] at hc'
    rw [← Option.some.inj hc']
  · exact .inr ⟨c, hat.cmdBody, rfl, hat.length, hpos, min_le_right _ _, rfl, hbefore, hfits⟩

variable (env) in
/-- A part of a body is there, or the whole of a short one. -/
theorem asked_body {ok : Prop} {b c : Buf} (hb : Works ok s b) (hat : AtBody s b c)
    (hrecvs : s.recvs = []) (hdone : s.completions = []) (h : Asked s css cs) :
    Continues s (s.iOnRecvStrand env s.nextLen 0) := by
  have hid := h.header b hb.cmdHdr
  have hstart := hat.start
  have hmore := hat.more
  have hlength := hat.length
  have hnext : s.nextLen = min (s.bodyLen - s.hasRecved) tpMaxRecvSize := rfl
  have hcomplete : s.bodyLen ≠ 0 ∧ s.bodyLen = c.bytes.length ∧
      ∃ d, s.cmdBody = some d ∧ d.bytes = c.bytes := ⟨by omega, by omega, c, hat.cmdBody, rfl⟩
  rcases hat.flag with ⟨hflag, hzero, hshort⟩ | hflag
  · rw [iOnRecvStrand_body hb.isOpen hflag]
    obtain ⟨hasked, hissues⟩ := asked_recvBody env hb (.inr hcomplete) hzero hrecvs hdone
      h.requests h.whole hid (h.whole_last hat (by omega))
    exact ⟨_, _, _, hasked, hissues, .inl rfl⟩
  · rw [iOnRecvStrand_part hb.isOpen hflag]
    by_cases hlast : s.hasRecved + s.nextLen = s.bodyLen
    · rw [recvPart_last hlast]
      have hset : Works ok { s with hasRecved := 0, flag := 0 } b :=
        hb.of_eq rfl rfl rfl rfl le_rfl rfl rfl rfl
      obtain ⟨hasked, hissues⟩ := asked_recvBody env hset (.inr hcomplete) rfl hrecvs hdone
        h.requests h.whole hid (h.whole_last hat hlast)
      exact ⟨_, _, _, hasked, ⟨hissues.requests, hissues.inside⟩, .inl rfl⟩
    · exact asked_part env hb hat h hflag hlast

/-- A receipt, executed on a socket that is still open. -/
theorem Asked.onRecv (hp : Parsing False env.ks s) (h : Asked s css cs) {bt err : ℤ}
    {rest : List StrandCall} (hq : s.queue = .onRecv bt err :: rest) (hopen : s.isOpen = true) :
    Continues s ({ s with queue := rest }.iOnRecvStrand env bt err) := by
  have hhead : s.completions = .onRecv bt err :: rest.filter StrandCall.isOnRecv := by
    rw [Port.completions, hq, List.filter_cons_of_pos rfl]
  have hworks : ∀ {b}, Works False s b → Works False { s with queue := rest } b := fun hb =>
    ⟨hb.isOpen, hb.callback, hb.recvCb, hb.cmdHdr, hb.hdrLen, hb.hdrId, False.elim⟩
  have hpop : Asked { s with queue := rest } css cs :=
    h.untouched (.of_eq rfl rfl rfl rfl rfl rfl rfl)
  obtain ⟨un, hphase, -⟩ := hp
  cases hphase with
  | hdrAsked _ _ _ hdone => exact absurd (hhead.symm.trans hdone) (by simp)
  | bodyAsked _ _ _ hdone => exact absurd (hhead.symm.trans hdone) (by simp)
  | failed _ _ _ hdone _ => exact absurd (hhead.symm.trans hdone) (by simp)
  | stopped _ hstop =>
    rcases hstop with hclosed | ⟨-, hdone⟩
    · exact absurd (hopen.symm.trans hclosed) (by simp)
    · exact absurd (hhead.symm.trans hdone) (by simp)
  | hdrHere hb hat hrecvs hdone =>
    obtain ⟨hcall, hrest⟩ := List.cons.inj (hhead.symm.trans hdone)
    obtain ⟨rfl, rfl⟩ := StrandCall.onRecv.inj hcall
    rw [iOnRecvStrand_header (hworks hb).isOpen hat.flag]
    obtain ⟨css', cs', rs, hasked, hissues, hone⟩ := asked_recvHeader env (hworks hb)
      ⟨hat.flag, hat.hasRecved, hat.cmdBody, hat.bodyLen⟩ hrecvs hrest hpop
    exact ⟨css', cs', rs, hasked, ⟨hissues.requests, hissues.inside⟩, hone⟩
  | bodyHere hb hat hrecvs hdone =>
    obtain ⟨hcall, hrest⟩ := List.cons.inj (hhead.symm.trans hdone)
    obtain ⟨rfl, rfl⟩ := StrandCall.onRecv.inj hcall
    obtain ⟨css', cs', rs, hasked, hissues, hone⟩ := asked_body env (hworks hb)
      ⟨hat.magic, hat.cmdBody, hat.bodyLen, hat.length, hat.id, hat.flag, hat.start, hat.more⟩
      hrecvs hrest hpop
    exact ⟨css', cs', rs, hasked, ⟨hissues.requests, hissues.inside⟩, hone⟩

/-! ## Every step -/

/-- The step is the execution of a receipt on an open socket. -/
def Receives (s : Port) (a : Action) : Prop :=
  a = .work ∧ s.isOpen = true ∧ ∃ bt err rest, s.queue = .onRecv bt err :: rest

theorem Asked.keep (h : Asked s css cs) (hst : Untouched s t) {a : Action} (hnot : ¬ Receives s a) :
    ∃ css cs rs, Asked t css cs ∧ Issues s t rs ∧
      (Receives s a → rs.length = 1 ∨ rs = [] ∧ BadHeader s) :=
  ⟨css, cs, [], h.untouched hst, hst.issues, fun hr => absurd hr hnot⟩

/-- A call that is no receipt, or finds the socket closed. -/
theorem untouched_exec (env : Env) (s : Port) {call : StrandCall}
    (hcall : call.isOnRecv = true → s.isOpen = false) : Untouched s (s.exec env call) := by
  cases call with
  | sendMessage ci => exact (iSendMessageStrand_frame s ci).untouched (by simp)
  | onSend bt err => exact (iOnSendStrand_frame s bt).untouched (by simp)
  | onRecv bt err =>
    have hskip : s.iOnRecvStrand env bt err = s := if_pos (.inr (hcall rfl))
    rw [Port.exec, hskip]
    exact .of_eq rfl rfl rfl rfl rfl rfl rfl
  | onError err =>
    refine Untouched.trans ?_ (untouched_clear _)
    split
    · exact .of_eq rfl rfl rfl (requests_append s.trace _ rfl)
        (by simp [Port.delivered, Port.log, Event.delivery?]) rfl rfl
    · exact .of_eq rfl rfl rfl rfl rfl rfl rfl
  | doClear => exact untouched_clear s
  | other => exact .of_eq rfl rfl rfl rfl rfl rfl rfl

theorem asked_step (hp : Parsing False env.ks s) (h : Asked s css cs) {a : Action}
    (hs : step env s a = some t) : ∃ css cs rs, Asked t css cs ∧ Issues s t rs ∧
      (Receives s a → rs.length = 1 ∨ rs = [] ∧ BadHeader s) := by
  by_cases hsender : a.ofSender = true
  · obtain ⟨calls, hst, hcalls⟩ := sender_step_frame hsender hs
    refine h.keep (hst.untouched fun call hcall => (hcalls call hcall).1) ?_
    rintro ⟨rfl, -⟩
    cases hsender
  cases a with
  | work =>
    obtain ⟨call, rest, hq, rfl⟩ := step_work_iff.mp hs
    have hpop : Untouched s { s with queue := rest } := .of_eq rfl rfl rfl rfl rfl rfl rfl
    by_cases hreceives : Receives s .work
    · obtain ⟨-, hopen, bt, err, rest', hq'⟩ := hreceives
      obtain ⟨rfl, rfl⟩ := List.cons.inj (hq.symm.trans hq')
      obtain ⟨css', cs', rs, hasked, hissues, hone⟩ := h.onRecv hp hq hopen
      exact ⟨css', cs', rs, hasked, hissues, fun _ => hone⟩
    · refine h.keep (hpop.trans (untouched_exec env _ fun hcall => ?_)) hreceives
      cases call with
      | onRecv bt err =>
        exact Bool.eq_false_iff.mpr fun hopen => hreceives ⟨rfl, hopen, bt, err, rest, hq⟩
      | _ => cases hcall
  | recvDone i bytes =>
    obtain ⟨r, -, -, rfl⟩ := step_recvDone_iff.mp hs
    have hread := untouched_received s i r bytes
    refine h.keep ?_ fun hr => absurd hr.1 (by simp)
    split
    · exact hread.trans (untouched_post env _ _)
    · exact hread
  | recvFail i err =>
    obtain ⟨-, rfl⟩ := step_recvFail_iff.mp hs
    obtain ⟨calls, hst, hcalls⟩ := errorOccur_frame env { s with recvs := s.recvs.eraseIdx i } err
    have herase : Untouched s { s with recvs := s.recvs.eraseIdx i } :=
      .of_eq rfl rfl rfl rfl rfl rfl rfl
    refine h.keep (herase.trans (hst.untouched fun call hcall => ?_)) fun hr => absurd hr.1 (by simp)
    rcases hcalls with rfl | rfl
    · cases hcall
    · rw [List.mem_singleton.mp hcall]
      rfl
  | _ => exact absurd rfl hsender

end

/-! ## Runs -/

/-- Whatever comes and whatever happens to a connection, every read that the receive machine asks
for has a length and lies inside its buffer; a receipt asks for exactly one unless the header is
bad. The reads of a body follow one another and add up to its length. -/
theorem requests_fit (env : Env) (load : ℕ) (s : Port)
    (h : Reachable (step env) (bound load) s) :
    (s.flag ≠ 2 → s.hasRecved = 0) ∧
    (s.flag ≠ 1 → 0 ≤ s.hasRecved ∧ 0 < s.nextLen ∧ s.hasRecved + s.nextLen ≤ s.bodyLen) ∧
    (∃ css cs, Asked s css cs) ∧
    ∀ a t, step env s a = some t → ∃ rs, Issues s t rs ∧
      (Receives s a → rs.length = 1 ∨ rs = [] ∧ BadHeader s) := by
  have hinv : Parsing False env.ks s ∧ ∃ css cs, Asked s css cs := by
    refine h.invariant (P := fun s => Parsing False env.ks s ∧ ∃ css cs, Asked s css cs)
      ⟨parsing_bound False env.ks load, [], [], rfl, .nil, .header rfl rfl, fun b hb => ?_⟩ ?_
    · rw [← Option.some.inj hb]
    · rintro u a v ⟨hp, css, cs, hasked⟩ - hs
      obtain ⟨css', cs', -, hasked', -⟩ := asked_step hp hasked hs
      exact ⟨parsing_step (fun ho => ho.elim) hp (fun ho => ho.elim) hs, css', cs', hasked'⟩
  obtain ⟨hp, css, cs, hasked⟩ := hinv
  refine ⟨fun hflag => ?_, fun hflag => ?_, ⟨css, cs, hasked⟩, fun a t hs => ?_⟩
  · cases hasked.frame with
    | header _ hzero => exact hzero
    | body hphase _ _ _ _ =>
      rcases hphase with ⟨-, hzero, -⟩ | htwo
      · exact hzero
      · exact absurd htwo hflag
  · cases hasked.frame with
    | header hone _ => exact absurd hone hflag
    | body _ hstart hmore _ _ =>
      refine ⟨hstart, ?_, ?_⟩ <;>
      · simp only [Port.nextLen, tpMaxRecvSize]
        omega
  · obtain ⟨-, -, rs, -, hissues, hone⟩ := asked_step hp hasked hs
    exact ⟨rs, hissues, hone⟩

/-- A header that announces a body of 3000 bytes. -/
def longHeader : List UInt8 :=
  List.replicate 80 0 ++ [0xb8, 0x0b, 0, 0] ++ [0x78, 0x56, 0x34, 0x12]

set_option maxRecDepth 8000 in
theorem requests_fit_long :
    ∃ s, run (step (accepting fun _ => 0)) (bound 0) [.recvDone 0 longHeader, .work] = some s ∧
      s.requests = [headerReq, ⟨1, 0, 2048⟩] ∧ s.flag = 2 ∧
      0 ≤ s.hasRecved ∧ 0 < s.nextLen ∧ s.hasRecved + s.nextLen ≤ s.bodyLen := by
  have hsteps : ∀ {s}, run (step (accepting fun _ => 0)) (bound 0)
      [.recvDone 0 longHeader, .work] = some s → Reachable (step (accepting fun _ => 0)) (bound 0) s :=
    fun hrun => Reach.of_run hrun
  refine ⟨_, rfl, by decide +kernel, by decide +kernel, ?_⟩
  refine (requests_fit (accepting fun _ => 0) 0 _ (hsteps rfl)).2.1 ?_
  decide +kernel

end DevFramework.Netport
