import DevFramework.Netport.Life
import DevFramework.Netport.Receiver

/-! # Two netports that receive the same bytes

The receive machines of two netports in the same phase do the same with the same bytes. The buffers
of their bodies may be different ones, as commands are allocated from the same memory; a request is
seen with the kind of its buffer.
-/
namespace DevFramework.Netport
set_option autoImplicit false
set_option maxHeartbeats 250000

/-- An `async_recv` request, into the header buffer or into one for a body, or a call of
`recv_cb_`. -/
inductive Heard where
  | request (header : Bool) (offset len : ℤ)
  | call (d : Delivery)
  deriving DecidableEq

def Event.heard? (hdr : ℕ) : Event → Option Heard
  | .recvReq r => some (.request (r.buf == hdr) r.offset r.len)
  | .recvCb d => some (.call d)
  | _ => none

def Event.block? : Event → Option (List UInt8)
  | .received bytes => some bytes
  | _ => none

/-- The requests and calls of a connection whose header buffer is `hdr`. -/
def Port.heard (hdr : ℕ) (s : Port) : List Heard := s.trace.filterMap (Event.heard? hdr)

/-- What has been received, read by read. -/
def Port.blocks (s : Port) : List (List UInt8) := s.trace.filterMap Event.block?

/-- The body buffers hold the same, and are not the header buffer. -/
def SameBody (hdr : ℕ) : Option Buf → Option Buf → Prop
  | none, none => True
  | some b, some c => b.bytes = c.bytes ∧ b.id ≠ hdr ∧ c.id ≠ hdr
  | _, _ => False

/-- The receive machines are in the same phase. -/
structure Alike (hdr : ℕ) (s t : Port) : Prop where
  flag : s.flag = t.flag
  hasRecved : s.hasRecved = t.hasRecved
  bodyLen : s.bodyLen = t.bodyLen
  recvCb : s.recvCb = t.recvCb
  isOpen : s.isOpen = true ∧ t.isOpen = true
  callback : s.sockRecvCb = true ∧ t.sockRecvCb = true
  cmdHdr : ∃ bytes, s.cmdHdr = some ⟨hdr, bytes⟩ ∧ t.cmdHdr = some ⟨hdr, bytes⟩
  cmdBody : SameBody hdr s.cmdBody t.cmdBody
  made : hdr < s.made ∧ hdr < t.made

/-- The same read, into the buffers of the same kind. -/
structure SameRead (hdr : ℕ) (s t : Port) (r q : RecvReq) : Prop where
  offset : r.offset = q.offset
  len : r.len = q.len
  buf : r.buf = hdr ∧ q.buf = hdr ∨
    ∃ b c, s.cmdBody = some b ∧ t.cmdBody = some c ∧ r.buf = b.id ∧ q.buf = c.id

/-- Each waits for one read, the same for both. -/
def OneRead (hdr : ℕ) (s t : Port) : Prop :=
  ∃ r q, s.recvs = [r] ∧ t.recvs = [q] ∧ SameRead hdr s t r q

/-- The machines have done the same, from `s` to `s'` and from `t` to `t'`, and wait for the same
read or for none. -/
structure DidSame (hdr : ℕ) (s t s' t' : Port) : Prop where
  heard : ∃ es, s'.heard hdr = s.heard hdr ++ es ∧ t'.heard hdr = t.heard hdr ++ es
  next : (Alike hdr s' t' ∧ OneRead hdr s' t' ∧ s'.queue = s.queue ∧ t'.queue = t.queue) ∨
    s'.recvs = [] ∧ t'.recvs = []

section
variable {env : Env} {hdr : ℕ} {s t s' t' : Port}

/-! ## What is seen of an event -/

theorem Port.heard_append (evs : List Event) (htrace : t.trace = s.trace ++ evs) :
    t.heard hdr = s.heard hdr ++ evs.filterMap (Event.heard? hdr) := by
  rw [Port.heard, htrace, List.filterMap_append]
  rfl

theorem Port.blocks_append (evs : List Event) (htrace : t.trace = s.trace ++ evs) :
    t.blocks = s.blocks ++ evs.filterMap Event.block? := by
  rw [Port.blocks, htrace, List.filterMap_append]
  rfl

theorem heard_none (hdr : ℕ) {evs : List Event} (h : ∀ e ∈ evs, e.ofSender = true) :
    evs.filterMap (Event.heard? hdr) = [] ∧ evs.filterMap Event.block? = [] := by
  refine ⟨List.filterMap_eq_nil_iff.mpr ?_, List.filterMap_eq_nil_iff.mpr ?_⟩ <;>
  · intro e he
    have := h e he
    cases e <;> first | rfl | cases this

theorem clearEvents_unheard (hdr : ℕ) (s : Port) :
    (clearEvents s).filterMap (Event.heard? hdr) = [] ∧
      (clearEvents s).filterMap Event.block? = [] := by
  refine ⟨List.filterMap_eq_nil_iff.mpr ?_, List.filterMap_eq_nil_iff.mpr ?_⟩ <;>
  · intro e he
    simp only [clearEvents, List.mem_append, List.mem_map, List.mem_singleton] at he
    rcases he with ((⟨_, _, rfl⟩ | ⟨_, _, rfl⟩) | ⟨_, _, rfl⟩) | rfl <;> rfl

theorem freeEvents_unheard (hdr : ℕ) (s : Port) :
    (freeEvents s).filterMap (Event.heard? hdr) = [] := by
  unfold freeEvents
  cases s.cmdBody <;> rfl

theorem ofReceiver_blocks {evs : List Event} (h : ∀ e ∈ evs, e.ofReceiver = true) :
    evs.filterMap Event.block? = [] := by
  refine List.filterMap_eq_nil_iff.mpr fun e he => ?_
  have := h e he
  cases e <;> first | rfl | cases this

/-! ## The end of a read -/

theorem Buf.eq_mk {b : Buf} {id : ℕ} (h : b.id = id) : b = ⟨id, b.bytes⟩ := by
  subst h
  rfl

theorem fill_same {b c : Buf} (hbytes : b.bytes = c.bytes) {r q : RecvReq}
    (hoffset : r.offset = q.offset) (htarget : b.id = r.buf ↔ c.id = q.buf)
    (bytes : List UInt8) : (Port.fill r bytes b).bytes = (Port.fill q bytes c).bytes := by
  unfold Port.fill
  by_cases hb : b.id = r.buf
  · rw [if_pos hb, if_pos (htarget.mp hb), hbytes, hoffset]
  · rw [if_neg hb, if_neg (mt htarget.mpr hb), hbytes]

theorem Alike.received (h : Alike hdr s t) {r q : RecvReq} (hread : SameRead hdr s t r q) (i j : ℕ)
    (bytes : List UInt8) : Alike hdr (s.received i r bytes) (t.received j q bytes) := by
  obtain ⟨old, hs, ht⟩ := h.cmdHdr
  have hbody := h.cmdBody
  refine ⟨h.flag, h.hasRecved, h.bodyLen, h.recvCb, h.isOpen, h.callback, ?_, ?_, h.made⟩
  · have htarget : hdr = r.buf ↔ hdr = q.buf := by
      rcases hread.buf with ⟨hr, hq⟩ | ⟨b, c, hb, hc, hr, hq⟩
      · rw [hr, hq]
      · rw [hb, hc] at hbody
        obtain ⟨-, hnb, hnc⟩ := hbody
        exact iff_of_false (hr ▸ hnb.symm) (hq ▸ hnc.symm)
    refine ⟨(Port.fill r bytes ⟨hdr, old⟩).bytes, ?_, ?_⟩
    · show s.cmdHdr.map _ = _
      rw [hs, Option.map_some, Buf.eq_mk (fill_id r bytes ⟨hdr, old⟩)]
    · show t.cmdHdr.map _ = _
      rw [ht, Option.map_some, fill_same rfl hread.offset htarget,
        Buf.eq_mk (fill_id q bytes ⟨hdr, old⟩)]
  · show SameBody hdr (s.cmdBody.map _) (t.cmdBody.map _)
    cases hb : s.cmdBody with
    | none =>
      cases hc : t.cmdBody with
      | none => trivial
      | some c => simp [hb, hc, SameBody] at hbody
    | some b =>
      cases hc : t.cmdBody with
      | none => simp [hb, hc, SameBody] at hbody
      | some c =>
        rw [hb, hc] at hbody
        obtain ⟨hsame, hnb, hnc⟩ := hbody
        refine ⟨fill_same hsame hread.offset ?_ bytes, ?_, ?_⟩
        · rcases hread.buf with ⟨hr, hq⟩ | ⟨b', c', hb', hc', hr, hq⟩
          · rw [hr, hq]
            exact iff_of_false hnb hnc
          · obtain rfl := Option.some.inj (hb.symm.trans hb')
            obtain rfl := Option.some.inj (hc.symm.trans hc')
            exact iff_of_true hr.symm hq.symm
        · rw [fill_id]
          exact hnb
        · rw [fill_id]
          exact hnc

theorem received_heard (hdr : ℕ) (s : Port) (i : ℕ) (r : RecvReq) (bytes : List UInt8) :
    (s.received i r bytes).heard hdr = s.heard hdr ∧
      (s.received i r bytes).blocks = s.blocks ++ [bytes] := by
  have htrace : (s.received i r bytes).trace = s.trace ++ [.received bytes] := rfl
  exact ⟨(Port.heard_append _ htrace).trans (List.append_nil _), Port.blocks_append _ htrace⟩

/-! ## The strand call -/

theorem processEvents_same (h : Alike hdr s t) (bytes : List UInt8) :
    processEvents env s bytes = processEvents env t bytes := by
  have hbody := h.cmdBody
  unfold processEvents
  rw [h.recvCb, h.bodyLen]
  cases hb : s.cmdBody with
  | none =>
    cases hc : t.cmdBody with
    | none => rfl
    | some c => simp [hb, hc, SameBody] at hbody
  | some b =>
    cases hc : t.cmdBody with
    | none => simp [hb, hc, SameBody] at hbody
    | some c =>
      rw [hb, hc] at hbody
      simp only [hbody.1]

theorem Alike.recvBody (h : Alike hdr s t) (hs : s.recvs = []) (ht : t.recvs = []) :
    DidSame hdr s t (s.recvBody env) (t.recvBody env) := by
  obtain ⟨bytes, hsh, hth⟩ := h.cmdHdr
  rw [recvBody_eq h.isOpen.1 hsh, recvBody_eq h.isOpen.2 hth, processEvents_same h]
  refine ⟨⟨(processEvents env t bytes ++ [Event.recvReq ⟨hdr, 0, headerLen⟩]).filterMap
    (Event.heard? hdr), ?_, ?_⟩, .inl ⟨?_, ?_, rfl, rfl⟩⟩
  · refine (Port.heard_append _ rfl).trans ?_
    simp only [List.filterMap_append, freeEvents_unheard, List.append_nil]
  · refine (Port.heard_append _ rfl).trans ?_
    simp only [List.filterMap_append, freeEvents_unheard, List.append_nil]
  · exact ⟨rfl, h.hasRecved, rfl, h.recvCb, h.isOpen, h.callback, ⟨_, rfl, rfl⟩, trivial, h.made⟩
  · exact ⟨⟨hdr, 0, headerLen⟩, ⟨hdr, 0, headerLen⟩, by rw [hs]; rfl, by rw [ht]; rfl, rfl, rfl,
      .inl ⟨rfl, rfl⟩⟩

/-- What was set before the call changes nothing of what both do. -/
theorem DidSame.of_set {u v : Port} (h : DidSame hdr u v s' t') (hs : u.trace = s.trace)
    (ht : v.trace = t.trace) (hsq : u.queue = s.queue) (htq : v.queue = t.queue) :
    DidSame hdr s t s' t' := by
  obtain ⟨⟨es, hes, hes'⟩, hnext⟩ := h
  refine ⟨⟨es, ?_, ?_⟩, ?_⟩
  · rw [hes, Port.heard, hs]
    rfl
  · rw [hes', Port.heard, ht]
    rfl
  · rwa [← hsq, ← htq]

/-- Nothing is seen of a machine that posts an error, or does nothing. -/
theorem DidSame.silent (hs : s'.heard hdr = s.heard hdr) (ht : t'.heard hdr = t.heard hdr)
    (hsr : s'.recvs = []) (htr : t'.recvs = []) : DidSame hdr s t s' t' :=
  ⟨⟨[], by simp [hs], by simp [ht]⟩, .inr ⟨hsr, htr⟩⟩

theorem iOnError_heard (env : Env) (hdr : ℕ) (s : Port) (err : ℤ) :
    (s.iOnError env err).heard hdr = s.heard hdr ∧ (s.iOnError env err).recvs = s.recvs := by
  unfold Port.iOnError Port.post
  split
  · exact ⟨(Port.heard_append [.refused (.onError err)] rfl).trans (List.append_nil _), rfl⟩
  · exact ⟨rfl, rfl⟩

theorem Alike.recvHeader (h : Alike hdr s t) (hs : s.recvs = []) (ht : t.recvs = []) :
    DidSame hdr s t (s.recvHeader env) (t.recvHeader env) := by
  obtain ⟨bytes, hsh, hth⟩ := h.cmdHdr
  cases hclone : clone bytes with
  | none =>
    rw [recvHeader_bad hsh hclone, recvHeader_bad hth hclone]
    obtain ⟨hsheard, hsrecvs⟩ := iOnError_heard env hdr s badHeader
    obtain ⟨htheard, htrecvs⟩ := iOnError_heard env hdr t badHeader
    exact .silent hsheard htheard (hsrecvs.trans hs) (htrecvs.trans ht)
  | some sh =>
    by_cases hlen : getBodyLen sh ≤ 0
    · rw [recvHeader_alone hsh hclone hlen, recvHeader_alone hth hclone hlen]
      have hset : Alike hdr { s with flag := 0 } { t with flag := 0 } :=
        ⟨rfl, h.hasRecved, h.bodyLen, h.recvCb, h.isOpen, h.callback, h.cmdHdr, h.cmdBody, h.made⟩
      exact (hset.recvBody hs ht).of_set rfl rfl rfl rfl
    · rw [recvHeader_body h.isOpen.1 hsh hclone (not_le.mp hlen),
        recvHeader_body h.isOpen.2 hth hclone (not_le.mp hlen)]
      have hsid : s.made ≠ hdr := h.made.1.ne'
      have htid : t.made ≠ hdr := h.made.2.ne'
      refine ⟨⟨[.request false 0 (min (getBodyLen sh) tpMaxRecvSize)], ?_, ?_⟩,
        .inl ⟨?_, ?_, rfl, rfl⟩⟩
      · refine (Port.heard_append _ rfl).trans ?_
        simp [Event.heard?, hsid]
      · refine (Port.heard_append _ rfl).trans ?_
        simp [Event.heard?, htid]
      · exact ⟨rfl, h.hasRecved, rfl, h.recvCb, h.isOpen, h.callback, h.cmdHdr, ⟨rfl, hsid, htid⟩,
          h.made.1.trans (Nat.lt_succ_self _), h.made.2.trans (Nat.lt_succ_self _)⟩
      · exact ⟨⟨s.made, 0, min (getBodyLen sh) tpMaxRecvSize⟩,
          ⟨t.made, 0, min (getBodyLen sh) tpMaxRecvSize⟩, by rw [hs]; rfl, by rw [ht]; rfl, rfl,
          rfl, .inr ⟨_, _, rfl, rfl, rfl, rfl⟩⟩

theorem Alike.recvPart (h : Alike hdr s t) (hs : s.recvs = []) (ht : t.recvs = []) (bt : ℤ) :
    DidSame hdr s t (s.recvPart env bt) (t.recvPart env bt) := by
  have hbody := h.cmdBody
  by_cases hlast : s.hasRecved + bt = s.bodyLen
  · have hlast' : t.hasRecved + bt = t.bodyLen := by rw [← h.hasRecved, ← h.bodyLen, hlast]
    rw [recvPart_last hlast, recvPart_last hlast']
    have hset : Alike hdr { s with hasRecved := 0, flag := 0 }
        { t with hasRecved := 0, flag := 0 } :=
      ⟨rfl, rfl, h.bodyLen, h.recvCb, h.isOpen, h.callback, h.cmdHdr, h.cmdBody, h.made⟩
    exact (hset.recvBody hs ht).of_set rfl rfl rfl rfl
  · have hlast' : t.hasRecved + bt ≠ t.bodyLen := by rwa [← h.hasRecved, ← h.bodyLen]
    cases hb : s.cmdBody with
    | none =>
      cases hc : t.cmdBody with
      | some c => simp [hb, hc, SameBody] at hbody
      | none =>
        unfold Port.recvPart
        rw [if_neg hlast, if_neg hlast', hb, hc]
        exact .silent rfl rfl hs ht
    | some b =>
      cases hc : t.cmdBody with
      | none => simp [hb, hc, SameBody] at hbody
      | some c =>
        rw [recvPart_next h.isOpen.1 hb hlast, recvPart_next h.isOpen.2 hc hlast']
        rw [hb, hc] at hbody
        obtain ⟨-, hnb, hnc⟩ := id hbody
        refine ⟨⟨[.request false (s.hasRecved + bt)
          (min (s.bodyLen - (s.hasRecved + bt)) tpMaxRecvSize)], ?_, ?_⟩, .inl ⟨?_, ?_, rfl, rfl⟩⟩
        · refine (Port.heard_append _ rfl).trans ?_
          simp [Event.heard?, hnb]
        · refine (Port.heard_append _ rfl).trans ?_
          simp [Event.heard?, hnc, h.hasRecved, h.bodyLen]
        · exact ⟨h.flag, congrArg (· + bt) h.hasRecved, h.bodyLen, h.recvCb, h.isOpen, h.callback,
            h.cmdHdr, h.cmdBody, h.made⟩
        · refine ⟨⟨b.id, s.hasRecved + bt, min (s.bodyLen - (s.hasRecved + bt)) tpMaxRecvSize⟩,
            ⟨c.id, t.hasRecved + bt, min (t.bodyLen - (t.hasRecved + bt)) tpMaxRecvSize⟩,
            by rw [hs]; rfl, by rw [ht]; rfl, congrArg (· + bt) h.hasRecved, ?_,
            .inr ⟨b, c, hb, hc, rfl, rfl⟩⟩
          show min (s.bodyLen - (s.hasRecved + bt)) _ = min (t.bodyLen - (t.hasRecved + bt)) _
          rw [h.hasRecved, h.bodyLen]

/-- The strand call for a completed read. -/
theorem Alike.onRecv (env : Env) (h : Alike hdr s t) (hs : s.recvs = []) (ht : t.recvs = []) (bt : ℤ) :
    DidSame hdr s t (s.iOnRecvStrand env bt 0) (t.iOnRecvStrand env bt 0) := by
  rw [iOnRecvStrand_open h.isOpen.1, iOnRecvStrand_open h.isOpen.2, h.flag]
  split
  · exact h.recvBody hs ht
  split
  · exact h.recvHeader hs ht
  split
  · exact h.recvPart hs ht bt
  · exact .silent rfl rfl hs ht

end

end DevFramework.Netport
