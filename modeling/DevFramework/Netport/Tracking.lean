import DevFramework.Netport.Alike
import Mathlib.Data.List.Perm.Basic

/-! # A connection beside one that only receives

`receives` is what happens on a netport that gets its bytes read by read, each completion run before
the next one comes. However a connection goes on, it has done what such a netport does with the same
reads, or the last of its reads has not been worked on (`Tracks`).
-/
namespace DevFramework.Netport
open Transition
set_option autoImplicit false
set_option maxHeartbeats 250000

namespace Life
variable {env : Env}

/-! ## Reads one after another -/

/-- The bytes of the outstanding read come and reach the strand. -/
def arrive (bytes : List UInt8) : List Action :=
  [.port (.recvDone 0 bytes), .put 0, .port .work]

def receives (blocks : List (List UInt8)) : List Action := blocks.flatMap arrive

theorem step_work (env : Env) (hand : List StrandCall) (s : Port) {call : StrandCall}
    {rest : List StrandCall} (hqueue : s.queue = call :: rest) :
    step env ⟨s, hand, none⟩ (.port .work) =
      some ⟨{ s with queue := rest }.exec env call, hand, none⟩ := by
  have hport : s.work env = some ({ s with queue := rest }.exec env call) := by
    simp only [Port.work, hqueue]
  simp only [step, work, hport]

/-- A posted call runs at once on an idle worker. -/
theorem run_put (hfree : env.busy 0 = false) (s : Port) (hqueue : s.queue = []) (call : StrandCall)
    (hand : List StrandCall) :
    run (step env) ⟨s, call :: hand, none⟩ [.put 0, .port .work] =
      some ⟨s.exec env call, hand, none⟩ := by
  have hpost : s.post env call = { s with queue := [call] } := by
    rw [post_free (by rw [hqueue]; exact hfree), hqueue]
    rfl
  have hput : step env ⟨s, call :: hand, none⟩ (.put 0) =
      some ⟨{ s with queue := [call] }, hand, none⟩ := by
    simp only [step, List.getElem?_cons_zero, hpost]
    rfl
  have heta : ({ s with queue := [] } : Port) = s := hqueue ▸ rfl
  have hwork := step_work env hand { s with queue := [call] } rfl
  rw [run, hput, Option.bind_some, run, hwork, heta]
  rfl

theorem run_arrive (hfree : env.busy 0 = false) (s : Port) (hqueue : s.queue = []) {r : RecvReq}
    (hrecvs : s.recvs = [r]) (hcb : s.sockRecvCb = true) {bytes : List UInt8}
    (hlen : (bytes.length : ℤ) = r.len) :
    run (step env) ⟨s, [], none⟩ (arrive bytes) =
      some ⟨(s.received 0 r bytes).iOnRecvStrand env r.len 0, [], none⟩ := by
  have htake : step env ⟨s, [], none⟩ (.port (.recvDone 0 bytes)) =
      some ⟨s.received 0 r bytes, [.onRecv r.len 0], none⟩ := by
    rw [step_port env _ (by simp)]
    simp [Action.completes, Port.take, hrecvs, hlen, hcb]
  rw [arrive, run, htake, Option.bind_some, run_put hfree (s.received 0 r bytes) hqueue]
  rfl

/-! ## The calls on their way -/

/-- What waits on the strand, and what handlers are about to post. -/
def calls (s : Life) : List StrandCall := s.port.queue ++ s.hand

/-- The completions of reads. -/
def pending (s : Life) : List StrandCall := s.calls.filter StrandCall.isOnRecv

/-- The calls that end the connection. -/
def ending (s : Life) : List StrandCall := s.calls.filter StrandCall.ends

/-- The worker has refused the completion of a read. -/
def Lost (s : Life) : Prop := ∃ bt err, .refused (.onRecv bt err) ∈ s.port.trace

/-- `t` is `s` for the receive machine. -/
structure Still (hdr : ℕ) (s t : Life) : Prop where
  flag : t.port.flag = s.port.flag
  hasRecved : t.port.hasRecved = s.port.hasRecved
  cmdHdr : t.port.cmdHdr = s.port.cmdHdr
  cmdBody : t.port.cmdBody = s.port.cmdBody
  bodyLen : t.port.bodyLen = s.port.bodyLen
  recvCb : t.port.recvCb = s.port.recvCb
  isOpen : t.port.isOpen = s.port.isOpen
  callback : t.port.sockRecvCb = s.port.sockRecvCb
  recvs : t.port.recvs = s.port.recvs
  made : s.port.made ≤ t.port.made
  heard : t.port.heard hdr = s.port.heard hdr
  blocks : t.port.blocks = s.port.blocks
  trace : s.port.trace <+: t.port.trace
  pending : t.pending.Perm s.pending

section
variable {hdr : ℕ} {s t : Life} {p q : Port} {sent : List StrandCall}

theorem prefix_of_eq {α : Type*} {l m : List α} (h : l = m) : l <+: m := h ▸ List.prefix_rfl

theorem Lost.mono (h : s.Lost) (htrace : s.port.trace <+: t.port.trace) : t.Lost := by
  obtain ⟨bt, err, hlost⟩ := h
  exact ⟨bt, err, htrace.subset hlost⟩

theorem filter_sent {f : StrandCall → Bool} (h : ∀ call ∈ sent, f call = false)
    (queue hand : List StrandCall) :
    (queue ++ sent ++ hand).filter f = (queue ++ hand).filter f := by
  have hnone : sent.filter f = [] := List.filter_eq_nil_iff.mpr fun call hcall => by
    simp [h call hcall]
  rw [List.filter_append, List.filter_append, hnone, List.append_nil, List.filter_append]

theorem still_sendOnly (h : SendOnly p q sent) (hsent : ∀ call ∈ sent, call.isOnRecv = false)
    (hand : List StrandCall) : Still hdr ⟨p, hand, none⟩ ⟨q, hand, none⟩ := by
  obtain ⟨_, _, _, _, _, _, evs, rfl, hm, hall⟩ := h
  obtain ⟨hheard, hblocks⟩ := heard_none hdr hall
  refine ⟨rfl, rfl, rfl, rfl, rfl, rfl, rfl, rfl, rfl, hm, ?_, ?_, List.prefix_append _ _, ?_⟩
  · refine (Port.heard_append _ rfl).trans ?_
    rw [hheard, List.append_nil]
  · refine (Port.blocks_append _ rfl).trans ?_
    rw [hblocks, List.append_nil]
  · exact List.Perm.of_eq (filter_sent hsent p.queue hand)

theorem ending_sendOnly (h : SendOnly p q sent) (hsent : ∀ call ∈ sent, call.ends = false)
    (hand : List StrandCall) : ending ⟨q, hand, none⟩ = ending ⟨p, hand, none⟩ := by
  rw [ending, ending, calls, calls, h.queue]
  exact filter_sent hsent p.queue hand

/-- A call that a handler posts is on its way before and afterwards. -/
theorem calls_put {i : ℕ} {call : StrandCall} (hi : s.hand[i]? = some call) :
    (s.port.queue ++ [call] ++ s.hand.eraseIdx i).Perm s.calls := by
  obtain ⟨hlt, rfl⟩ := List.getElem?_eq_some_iff.mp hi
  rw [List.append_assoc]
  exact (List.getElem_cons_eraseIdx_perm hlt).append_left s.port.queue

theorem calls_erase {i : ℕ} {call : StrandCall} (hi : s.hand[i]? = some call) :
    (call :: (s.port.queue ++ s.hand.eraseIdx i)).Perm s.calls := by
  refine List.Perm.trans ?_ (calls_put hi)
  rw [List.append_assoc]
  exact List.perm_middle.symm

end

/-! ## The relation -/

/-- `t` is a connection whose strand call of the bind led to the buffer `hdr`, and `u` a new one
right after its bind. With `ok` nothing from outside ends the connection. -/
inductive Tracks (env : Env) (ok : Prop) (hdr : ℕ) (u t : Life) : Prop where
  | waits {c : Port} (hfed : run (step env) u (receives t.port.blocks) = some ⟨c, [], none⟩)
      (hidle : c.queue = []) (halike : Alike hdr t.port c) (hread : OneRead hdr t.port c)
      (hpending : t.pending = []) (hheard : t.port.heard hdr = c.heard hdr)
      (hcalm : ok → t.ending = []) : Tracks env ok hdr u t
  | holds {c : Port} {bt : ℤ}
      (hfed : run (step env) u (receives t.port.blocks) =
        some ⟨c.iOnRecvStrand env bt 0, [], none⟩)
      (hidle : c.queue = []) (halike : Alike hdr t.port c)
      (hrecvs : t.port.recvs = [] ∧ c.recvs = []) (hpending : t.pending = [.onRecv bt 0])
      (hheard : t.port.heard hdr = c.heard hdr) (hcalm : ok → t.ending = []) : Tracks env ok hdr u t
  | stops {c : Port} (hfed : run (step env) u (receives t.port.blocks) = some ⟨c, [], none⟩)
      (hheard : t.port.heard hdr <+: c.heard hdr)
      (hlast : t.port.recvs = [] ∨ t.port.isOpen = false ∧ c.queue = [] ∧ c.sockRecvCb = true ∧
        ∃ r q, t.port.recvs = [r] ∧ c.recvs = [q] ∧ r.len = q.len)
      (hstop : t.port.isOpen = false ∨ t.pending = [])
      (hwhy : ok → t.port.recvs = [] ∧ t.port.heard hdr = c.heard hdr ∨ t.Lost) :
      Tracks env ok hdr u t

section
variable {ok : Prop} {hdr : ℕ} {u s t : Life} {p q : Port}

theorem Alike.still (h : Alike hdr s.port q) (hst : Still hdr s t) : Alike hdr t.port q where
  flag := hst.flag.trans h.flag
  hasRecved := hst.hasRecved.trans h.hasRecved
  bodyLen := hst.bodyLen.trans h.bodyLen
  recvCb := hst.recvCb.trans h.recvCb
  isOpen := ⟨hst.isOpen.trans h.isOpen.1, h.isOpen.2⟩
  callback := ⟨hst.callback.trans h.callback.1, h.callback.2⟩
  cmdHdr := by
    rw [hst.cmdHdr]
    exact h.cmdHdr
  cmdBody := by
    rw [hst.cmdBody]
    exact h.cmdBody
  made := ⟨h.made.1.trans_le hst.made, h.made.2⟩

/-- What leaves the receive machine alone keeps the relation. -/
theorem Tracks.still (h : Tracks env ok hdr u s) (hst : Still hdr s t)
    (hcalm : ok → s.ending = [] → t.ending = []) : Tracks env ok hdr u t := by
  cases h with
  | waits hfed hidle halike hread hpending hheard hend =>
    obtain ⟨r, q, hr, hq, hsame⟩ := hread
    refine .waits (by rw [hst.blocks]; exact hfed) hidle (Alike.still halike hst)
      ⟨r, q, hst.recvs.trans hr, hq, hsame.offset, hsame.len, ?_⟩ (hpending ▸ hst.pending).eq_nil
      (hst.heard.trans hheard) fun ho => hcalm ho (hend ho)
    rw [hst.cmdBody]
    exact hsame.buf
  | holds hfed hidle halike hrecvs hpending hheard hend =>
    exact .holds (by rw [hst.blocks]; exact hfed) hidle (Alike.still halike hst)
      ⟨hst.recvs.trans hrecvs.1, hrecvs.2⟩ (hpending ▸ hst.pending).eq_singleton
      (hst.heard.trans hheard)
      fun ho => hcalm ho (hend ho)
  | stops hfed hheard hlast hstop hwhy =>
    refine .stops (by rw [hst.blocks]; exact hfed) (by rw [hst.heard]; exact hheard) ?_ ?_ ?_
    · rw [hst.recvs, hst.isOpen]
      exact hlast
    · rw [hst.isOpen]
      exact hstop.imp_right fun hnone => (hnone ▸ hst.pending).eq_nil
    · rw [hst.recvs, hst.heard]
      exact fun ho => (hwhy ho).imp_right fun hlost => hlost.mono hst.trace

theorem iOnRecvStrand_heard (env : Env) (hdr : ℕ) (s : Port) (bt err : ℤ) :
    s.heard hdr <+: (s.iOnRecvStrand env bt err).heard hdr ∧
      (s.iOnRecvStrand env bt err).blocks = s.blocks := by
  obtain ⟨_, ⟨_, _, _, _, _, _, _, evs, heq, -, hall⟩, -⟩ := iOnRecvStrand_frame env s bt err
  have htrace : (s.iOnRecvStrand env bt err).trace = s.trace ++ evs := by rw [heq]
  refine ⟨?_, ?_⟩
  · rw [Port.heard_append _ htrace]
    exact List.prefix_append _ _
  · rw [Port.blocks_append _ htrace, ofReceiver_blocks hall, List.append_nil]

/-! ## A read comes -/

theorem run_receives_snoc (blocks : List (List UInt8)) (bytes : List UInt8) :
    run (step env) u (receives (blocks ++ [bytes])) =
      (run (step env) u (receives blocks)).bind fun v => run (step env) v (arrive bytes) := by
  rw [receives, List.flatMap_append, run_append]
  simp [receives]

theorem fed_snoc (hfree : env.busy 0 = false) {blocks : List (List UInt8)} {c : Port}
    (hfed : run (step env) u (receives blocks) = some ⟨c, [], none⟩) (hidle : c.queue = [])
    {r : RecvReq} (hrecvs : c.recvs = [r]) (hcb : c.sockRecvCb = true) {bytes : List UInt8}
    (hlen : (bytes.length : ℤ) = r.len) :
    run (step env) u (receives (blocks ++ [bytes])) =
      some ⟨(c.received 0 r bytes).iOnRecvStrand env r.len 0, [], none⟩ := by
  rw [run_receives_snoc, hfed, Option.bind_some, run_arrive hfree c hidle hrecvs hcb hlen]

theorem pending_take (s : Life) (p : Port) (hqueue : p.queue = s.port.queue)
    (sent : List StrandCall) :
    pending ⟨p, s.hand ++ sent, none⟩ = s.pending ++ sent.filter StrandCall.isOnRecv ∧
      ending ⟨p, s.hand ++ sent, none⟩ = s.ending ++ sent.filter StrandCall.ends := by
  simp only [pending, ending, calls, hqueue, ← List.append_assoc]
  exact ⟨List.filter_append _ _, List.filter_append _ _⟩

theorem Tracks.recvDone (hfree : env.busy 0 = false) (h : Tracks env ok hdr u s) {i : ℕ}
    {r : RecvReq} {bytes : List UInt8} (hr : s.port.recvs[i]? = some r)
    (hlen : (bytes.length : ℤ) = r.len) :
    Tracks env ok hdr u ⟨s.port.received i r bytes,
      s.hand ++ (if s.port.sockRecvCb then [.onRecv r.len 0] else []), none⟩ := by
  have hnil : s.port.recvs ≠ [] := fun hnil => by simp [hnil] at hr
  have honly : ∀ {q}, s.port.recvs = [q] → r = q ∧ s.port.recvs.eraseIdx i = [] := by
    intro q hq
    rw [hq] at hr ⊢
    cases i with
    | zero => exact ⟨(Option.some.inj hr).symm, rfl⟩
    | succ i => simp at hr
  obtain ⟨hkeep, hblock⟩ := received_heard hdr s.port i r bytes
  obtain ⟨hpend, hend⟩ := pending_take s (s.port.received i r bytes) rfl
    (if s.port.sockRecvCb then [.onRecv r.len 0] else [])
  cases h with
  | holds _ _ _ hrecvs => exact absurd hrecvs.1 hnil
  | waits hfed hidle halike hread hpending hheard hcalm =>
    obtain ⟨r', q, hr', hq, hsame⟩ := hread
    obtain ⟨rfl, herase⟩ := honly hr'
    rw [halike.callback.1, if_pos rfl] at hpend hend ⊢
    have hfed' := fed_snoc hfree hfed hidle hq halike.callback.2 (hlen.trans hsame.len)
    rw [← hblock, ← hsame.len] at hfed'
    refine .holds hfed' hidle (halike.received hsame i 0 bytes) ⟨herase, ?_⟩ ?_ ?_ fun ho => ?_
    · show List.eraseIdx _ _ = _
      rw [hq]
      rfl
    · rw [hpend, hpending]
      rfl
    · exact hkeep.trans (hheard.trans (received_heard hdr _ 0 q bytes).1.symm)
    · rw [hend, hcalm ho]
      rfl
  | stops hfed hheard hlast hstop hwhy =>
    rcases hlast with hnone | ⟨hclosed, hidle, hcb, r', q, hr', hq, hsame⟩
    · exact absurd hnone hnil
    obtain ⟨rfl, herase⟩ := honly hr'
    have hfed' := fed_snoc hfree hfed hidle hq hcb (hlen.trans hsame)
    rw [← hblock] at hfed'
    refine .stops hfed' ?_ (.inl herase) (.inl hclosed) fun ho => .inr ?_
    · rw [hkeep]
      refine hheard.trans ?_
      rw [← (received_heard hdr _ 0 q bytes).1]
      exact (iOnRecvStrand_heard env hdr _ _ _).1
    · rcases hwhy ho with ⟨hnone, -⟩ | hlost
      · exact absurd hnone hnil
      · exact hlost.mono (List.prefix_append _ _)

theorem Tracks.recvFail (hok : ¬ ok) (h : Tracks env ok hdr u s) {i : ℕ} {r : RecvReq}
    (hr : s.port.recvs[i]? = some r) {sent : List StrandCall}
    (hsent : ∀ call ∈ sent, call.isOnRecv = false) :
    Tracks env ok hdr u ⟨{ s.port with recvs := s.port.recvs.eraseIdx i, sockErrCb := false },
      s.hand ++ sent, none⟩ := by
  have hnil : s.port.recvs ≠ [] := fun hnil => by simp [hnil] at hr
  have honly : ∀ {q}, s.port.recvs = [q] → s.port.recvs.eraseIdx i = [] := by
    intro q hq
    rw [hq] at hr ⊢
    cases i with
    | zero => rfl
    | succ i => simp at hr
  obtain ⟨hpend, -⟩ := pending_take s
    { s.port with recvs := s.port.recvs.eraseIdx i, sockErrCb := false } rfl sent
  have hnone : sent.filter StrandCall.isOnRecv = [] := List.filter_eq_nil_iff.mpr fun call hcall =>
    by simp [hsent call hcall]
  rw [hnone, List.append_nil] at hpend
  cases h with
  | holds _ _ _ hrecvs => exact absurd hrecvs.1 hnil
  | waits hfed hidle halike hread hpending hheard hcalm =>
    obtain ⟨_, _, hr', -, -⟩ := hread
    exact .stops hfed (prefix_of_eq hheard) (.inl (honly hr')) (.inr (hpend.trans hpending))
      fun ho => absurd ho hok
  | stops hfed hheard hlast hstop hwhy =>
    have herase : s.port.recvs.eraseIdx i = [] := by
      rcases hlast with hnone | ⟨-, -, -, _, _, hr', -⟩
      · exact absurd hnone hnil
      · exact honly hr'
    exact .stops hfed hheard (.inl herase) (hstop.imp_right hpend.trans) fun ho => absurd ho hok

/-! ## A strand call -/

/-- A call that closes the socket. -/
theorem Tracks.close (h : Tracks env ok hdr u s) (hend : ok → s.ending = [] → False)
    (hclosed : t.port.isOpen = false) (hrecvs : t.port.recvs = s.port.recvs)
    (hheard : t.port.heard hdr = s.port.heard hdr) (hblocks : t.port.blocks = s.port.blocks)
    (htrace : s.port.trace <+: t.port.trace) : Tracks env ok hdr u t := by
  cases h with
  | waits hfed hidle halike hread _ hsame hcalm =>
    obtain ⟨r, q, hr, hq, hread⟩ := hread
    exact .stops (by rw [hblocks]; exact hfed) (prefix_of_eq (hheard.trans hsame))
      (.inr ⟨hclosed, hidle, halike.callback.2, r, q, hrecvs.trans hr, hq, hread.len⟩)
      (.inl hclosed) fun ho => (hend ho (hcalm ho)).elim
  | holds hfed hidle halike hnone _ hsame hcalm =>
    refine .stops (by rw [hblocks]; exact hfed) ?_ (.inl (hrecvs.trans hnone.1)) (.inl hclosed)
      fun ho => (hend ho (hcalm ho)).elim
    rw [hheard, hsame]
    exact (iOnRecvStrand_heard env hdr _ _ _).1
  | stops hfed hprefix hlast _ hwhy =>
    refine .stops (by rw [hblocks]; exact hfed) (by rw [hheard]; exact hprefix) ?_ (.inl hclosed) ?_
    · rw [hrecvs]
      exact hlast.imp_right fun hlast => ⟨hclosed, hlast.2⟩
    · rw [hrecvs, hheard]
      exact fun ho => (hwhy ho).imp_right fun hlost => hlost.mono htrace

theorem Tracks.onRecv (h : Tracks env ok hdr u ⟨p, s.hand, none⟩) {bt err : ℤ}
    {rest : List StrandCall} (hqueue : p.queue = .onRecv bt err :: rest) :
    Tracks env ok hdr u ⟨{ p with queue := rest }.iOnRecvStrand env bt err, s.hand, none⟩ := by
  have hhead : pending ⟨p, s.hand, none⟩ =
      .onRecv bt err :: pending ⟨{ p with queue := rest }, s.hand, none⟩ := by
    simp only [pending, calls, hqueue]
    rfl
  have htail : ending ⟨p, s.hand, none⟩ = ending ⟨{ p with queue := rest }, s.hand, none⟩ := by
    simp only [ending, calls, hqueue]
    rfl
  obtain ⟨-, hblocks⟩ := iOnRecvStrand_heard env hdr { p with queue := rest } bt err
  cases h with
  | waits _ _ _ _ hpending => cases hhead.symm.trans hpending
  | holds hfed hidle halike hrecvs hpending hheard hcalm =>
    obtain ⟨hcall, hnone⟩ := List.cons.inj (hhead.symm.trans hpending)
    cases hcall
    have hpop : Alike hdr { p with queue := rest } _ :=
      ⟨halike.flag, halike.hasRecved, halike.bodyLen, halike.recvCb, halike.isOpen,
        halike.callback, halike.cmdHdr, halike.cmdBody, halike.made⟩
    obtain ⟨⟨es, hes, hes'⟩, hnext⟩ := hpop.onRecv env hrecvs.1 hrecvs.2 bt
    have hsame : ({ p with queue := rest } : Port).heard hdr = _ := hheard
    have hnow := hes.trans ((congrArg (· ++ es) hsame).trans hes'.symm)
    rcases hnext with ⟨halike', hread, hq, hq'⟩ | ⟨hnone', hnone''⟩
    · refine .waits ?_ (hq'.trans hidle) halike' hread ?_ hnow fun ho => ?_
      · rw [hblocks]
        exact hfed
      · simp only [pending, calls, hq]
        exact hnone
      · simp only [ending, calls, hq]
        exact htail.symm.trans (hcalm ho)
    · obtain ⟨sent, hframe, hsent⟩ := iOnRecvStrand_frame env { p with queue := rest } bt 0
      refine .stops ?_ (prefix_of_eq hnow) (.inl hnone') (.inr ?_) fun _ => .inl ⟨hnone', hnow⟩
      · rw [hblocks]
        exact hfed
      · rw [pending, calls, hframe.queue, filter_sent]
        · exact hnone
        · rcases hsent with rfl | rfl
          · exact List.forall_mem_nil _
          · exact List.forall_mem_singleton.mpr rfl
  | stops hfed hheard hlast hstop hwhy =>
    have hclosed : p.isOpen = false := by
      refine hstop.resolve_right fun hnone => ?_
      cases hhead.symm.trans hnone
    have hsame : ({ p with queue := rest } : Port).iOnRecvStrand env bt err =
        { p with queue := rest } := if_pos (.inr hclosed)
    rw [hsame]
    exact .stops hfed hheard hlast (.inl hclosed) hwhy

theorem iDoClear_heard (hdr : ℕ) (p : Port) :
    p.iDoClear.heard hdr = p.heard hdr ∧ p.iDoClear.blocks = p.blocks ∧
      p.iDoClear.isOpen = false ∧ p.iDoClear.recvs = p.recvs := by
  obtain ⟨hheard, hblocks⟩ := clearEvents_unheard hdr p
  have htrace : p.iDoClear.trace = p.trace ++ clearEvents p := by rw [iDoClear_eq]
  refine ⟨?_, ?_, by rw [iDoClear_eq], by rw [iDoClear_eq]⟩
  · rw [Port.heard_append _ htrace, hheard, List.append_nil]
  · rw [Port.blocks_append _ htrace, hblocks, List.append_nil]

theorem Tracks.work (h : Tracks env ok hdr u s) {call : StrandCall} {rest : List StrandCall}
    (hqueue : s.port.queue = call :: rest) :
    Tracks env ok hdr u ⟨{ s.port with queue := rest }.exec env call, s.hand, none⟩ := by
  have hset : Tracks env ok hdr u ⟨s.port, s.hand, none⟩ := h.still
    ⟨rfl, rfl, rfl, rfl, rfl, rfl, rfl, rfl, rfl, le_rfl, rfl, rfl, List.prefix_rfl, .rfl⟩
    fun _ hend => hend
  -- a call of the send side leaves the receive machine alone
  have hquiet : ∀ q, call.isOnRecv = false → call.ends = false →
      SendOnly { s.port with queue := rest } q [] → Tracks env ok hdr u ⟨q, s.hand, none⟩ := by
    intro q hcall hend hst
    have hpending : pending ⟨{ s.port with queue := rest }, s.hand, none⟩ =
        pending ⟨s.port, s.hand, none⟩ := by
      simp only [pending, calls, hqueue, List.cons_append]
      rw [List.filter_cons_of_neg (by simp [hcall])]
    have hending : ending ⟨{ s.port with queue := rest }, s.hand, none⟩ =
        ending ⟨s.port, s.hand, none⟩ := by
      simp only [ending, calls, hqueue, List.cons_append]
      rw [List.filter_cons_of_neg (by simp [hend])]
    have hpop : Tracks env ok hdr u ⟨{ s.port with queue := rest }, s.hand, none⟩ := hset.still
      ⟨rfl, rfl, rfl, rfl, rfl, rfl, rfl, rfl, rfl, le_rfl, rfl, rfl, List.prefix_rfl,
        .of_eq hpending⟩
      fun _ hnone => hending.trans hnone
    refine hpop.still (still_sendOnly hst (List.forall_mem_nil _) s.hand) fun _ hnone => ?_
    rw [ending_sendOnly hst (List.forall_mem_nil _)]
    exact hnone
  -- one that ends the connection closes the socket
  have hclose : ∀ q : Port, call.ends = true → q.heard hdr = s.port.heard hdr →
      q.blocks = s.port.blocks → q.recvs = s.port.recvs → s.port.trace <+: q.trace →
      Tracks env ok hdr u ⟨q.iDoClear, s.hand, none⟩ := by
    intro q hend hheard hblocks hrecvs htrace
    obtain ⟨hheard', hblocks', hclosed, hrecvs'⟩ := iDoClear_heard hdr q
    refine h.close (fun _ hnone => ?_) hclosed (hrecvs'.trans hrecvs) (hheard'.trans hheard)
      (hblocks'.trans hblocks) (htrace.trans (iDoClear_trace q))
    rw [ending, calls, hqueue, List.cons_append, List.filter_cons_of_pos hend] at hnone
    cases hnone
  cases call with
  | sendMessage ci => exact hquiet _ rfl rfl (iSendMessageStrand_frame _ ci)
  | onRecv bt err => exact hset.onRecv (s := s) hqueue
  | onSend bt err => exact hquiet _ rfl rfl (iOnSendStrand_frame _ bt)
  | onError err =>
    simp only [Port.exec, Port.iOnErrorStrand]
    split
    · refine hclose _ rfl ?_ ?_ rfl (List.prefix_append _ _)
      · exact (Port.heard_append [.errCb err] rfl).trans (List.append_nil _)
      · exact (Port.blocks_append [.errCb err] rfl).trans (List.append_nil _)
    · exact hclose _ rfl rfl rfl rfl List.prefix_rfl
  | doClear => exact hclose _ rfl rfl rfl rfl List.prefix_rfl
  | other => exact hquiet _ rfl rfl (.refl _)

/-! ## A handler posts -/

theorem put_events (env : Env) (hdr : ℕ) (p : Port) (call : StrandCall) :
    (p.post env call).heard hdr = p.heard hdr ∧ (p.post env call).blocks = p.blocks := by
  unfold Port.post
  split
  · exact ⟨(Port.heard_append [.refused call] rfl).trans (List.append_nil _),
      (Port.blocks_append [.refused call] rfl).trans (List.append_nil _)⟩
  · exact ⟨rfl, rfl⟩

/-- A call that is posted stays on its way; one that is refused is of the send side. -/
theorem still_put {i : ℕ} {call : StrandCall} (hi : s.hand[i]? = some call)
    (hcall : env.busy s.port.queue.length = false ∨ call.isOnRecv = false) :
    Still hdr s ⟨s.port.post env call, s.hand.eraseIdx i, none⟩ := by
  obtain ⟨hheard, hblocks⟩ := put_events env hdr s.port call
  by_cases hbusy : env.busy s.port.queue.length = true
  · have hrecv := hcall.resolve_left (by simp [hbusy])
    have hpending := (calls_erase hi).filter StrandCall.isOnRecv
    rw [List.filter_cons_of_neg (by simp [hrecv])] at hpending
    rw [post_busy hbusy] at hheard hblocks ⊢
    exact ⟨rfl, rfl, rfl, rfl, rfl, rfl, rfl, rfl, rfl, le_rfl, hheard, hblocks,
      List.prefix_append _ _, hpending⟩
  · rw [post_free (Bool.eq_false_iff.mpr hbusy)]
    exact ⟨rfl, rfl, rfl, rfl, rfl, rfl, rfl, rfl, rfl, le_rfl, rfl, rfl, List.prefix_rfl,
      (calls_put hi).filter StrandCall.isOnRecv⟩

theorem ending_put {i : ℕ} {call : StrandCall} (hi : s.hand[i]? = some call)
    (hnone : s.ending = []) :
    ending ⟨s.port.post env call, s.hand.eraseIdx i, none⟩ = [] := by
  have hall : ∀ c ∈ s.calls, ¬ c.ends = true := List.filter_eq_nil_iff.mp hnone
  refine List.filter_eq_nil_iff.mpr fun c hc => hall c ?_
  obtain ⟨sent, hqueue, rfl | rfl⟩ := post_queue env s.port call
  · rw [calls, hqueue, List.append_nil] at hc
    exact (calls_erase hi).subset (List.mem_cons_of_mem _ hc)
  · rw [calls, hqueue] at hc
    exact (calls_put hi).subset hc

theorem Tracks.put (h : Tracks env ok hdr u s) {i : ℕ} {call : StrandCall}
    (hi : s.hand[i]? = some call) :
    Tracks env ok hdr u ⟨s.port.post env call, s.hand.eraseIdx i, none⟩ := by
  by_cases hcall : env.busy s.port.queue.length = false ∨ call.isOnRecv = false
  · exact h.still (still_put hi hcall) fun _ hnone => ending_put hi hnone
  · -- the completion of a read is refused
    rw [not_or, Bool.not_eq_false, Bool.not_eq_false] at hcall
    obtain ⟨hbusy, hrecv⟩ := hcall
    obtain ⟨hheard, hblocks⟩ := put_events env hdr s.port call
    have hpending := (calls_erase hi).filter StrandCall.isOnRecv
    rw [List.filter_cons_of_pos hrecv] at hpending
    rw [post_busy hbusy] at hheard hblocks ⊢
    have hlost : Lost ⟨s.port.log (.refused call), s.hand.eraseIdx i, none⟩ := by
      cases call with
      | onRecv bt err => exact ⟨bt, err, List.mem_append_right _ List.mem_cons_self⟩
      | _ => cases hrecv
    have hsome : s.pending ≠ [] := by
      intro hnone
      rw [show s.calls.filter StrandCall.isOnRecv = [] from hnone] at hpending
      cases hpending.eq_nil
    cases h with
    | waits _ _ _ _ hnone => exact absurd hnone hsome
    | holds hfed _ _ hrecvs hone hsame _ =>
      rw [show s.calls.filter StrandCall.isOnRecv = _ from hone] at hpending
      refine .stops (by rw [hblocks]; exact hfed) ?_ (.inl hrecvs.1) (.inr ?_) fun _ => .inr hlost
      · rw [hheard, hsame]
        exact (iOnRecvStrand_heard env hdr _ _ _).1
      · exact (List.cons.inj hpending.eq_singleton).2
    | stops hfed hsame hlast hstop _ =>
      exact .stops (by rw [hblocks]; exact hfed) (by rw [hheard]; exact hsame) hlast
        (.inl (hstop.resolve_right hsome)) fun _ => .inr hlost

/-! ## Every step -/

/-- The upper layer leaves `recv_cb_` as it is, and binds no other socket. -/
def Action.stays : Action → Bool
  | .setRecvCallback _ | .bindSocket => false
  | _ => true

/-- Moreover it does not clear the netport, and no operation of the socket fails. -/
def Action.calm : Action → Bool
  | .port a => !a.disturbs
  | a => a.stays

theorem stays_of_calm {a : Action} (h : a.calm = true) : a.stays = true := by
  cases a <;> first | rfl | exact h

/-- A handler of a write leaves the receive machine alone. -/
theorem Tracks.takeSend (h : Tracks env ok hdr u s) (i : ℕ) (cb : Bool) {sent : List StrandCall}
    (hsent : ∀ call ∈ sent, call.isOnRecv = false)
    (hend : ok → ∀ call ∈ sent, call.ends = false) :
    Tracks env ok hdr u ⟨{ s.port with sends := s.port.sends.eraseIdx i, sockErrCb := cb },
      s.hand ++ sent, none⟩ := by
  obtain ⟨hpending, hending⟩ := pending_take s
    { s.port with sends := s.port.sends.eraseIdx i, sockErrCb := cb } rfl sent
  have hfilter : ∀ {f : StrandCall → Bool}, (∀ call ∈ sent, f call = false) →
      sent.filter f = [] := fun hf => List.filter_eq_nil_iff.mpr fun call hcall => by
    simp [hf call hcall]
  rw [hfilter hsent, List.append_nil] at hpending
  refine h.still ⟨rfl, rfl, rfl, rfl, rfl, rfl, rfl, rfl, rfl, le_rfl, rfl, rfl, List.prefix_rfl,
    .of_eq hpending⟩ fun ho hnone => ?_
  rw [hending, hnone, hfilter (hend ho)]
  rfl

theorem Tracks.take (hfree : env.busy 0 = false) (h : Tracks env ok hdr u s) {a : Netport.Action}
    (ha : ok → a.disturbs = false) {sent : List StrandCall} (hp : s.port.take a = some (p, sent)) :
    Tracks env ok hdr u ⟨p, s.hand ++ sent, none⟩ := by
  have herror : ∀ (b : Bool) (err : ℤ), ∀ call ∈ (if b then [StrandCall.onError err] else []),
      call.isOnRecv = false := by
    intro b err call hcall
    cases b with
    | false => cases hcall
    | true =>
      rw [List.mem_singleton.mp hcall]
      rfl
  cases a with
  | recvDone i bytes =>
    simp only [Port.take] at hp
    split at hp
    · cases hp
    · rename_i r hr
      split at hp
      · cases hp
      · rename_i hlen
        cases hp
        exact h.recvDone hfree hr (not_not.mp hlen)
  | sendDone i =>
    simp only [Port.take] at hp
    split at hp
    · cases hp
    · split at hp <;> cases hp
      refine h.takeSend i s.port.sockErrCb ?_ fun _ => ?_ <;>
      · intro call hcall
        split at hcall
        · rw [List.mem_singleton.mp hcall]
          rfl
        · cases hcall
  | recvFail i err =>
    have hok : ¬ ok := fun ho => by cases ha ho
    simp only [Port.take, takeError_eq] at hp
    split at hp <;> cases hp
    rename_i r hr
    exact h.recvFail hok hr (herror _ err)
  | sendFail i err =>
    have hok : ¬ ok := fun ho => by cases ha ho
    simp only [Port.take, takeError_eq] at hp
    split at hp <;> cases hp
    exact h.takeSend i false (herror _ err) fun ho => absurd ho hok
  | _ => cases hp

/-- One step. -/
theorem Tracks.step (hfree : env.busy 0 = false) (h : Tracks env ok hdr u s)
    (hnone : s.binding = none) {a : Action} (hstays : a.stays = true) (ha : ok → a.calm = true)
    (hs : Life.step env s a = some t) : t.binding = none ∧ Tracks env ok hdr u t := by
  have hset : ∀ sendCb errCb,
      t = { s with port := { s.port with sendCb := sendCb, errCb := errCb } } →
      t.binding = none ∧ Tracks env ok hdr u t := by
    rintro sendCb errCb rfl
    exact ⟨hnone, h.still ⟨rfl, rfl, rfl, rfl, rfl, rfl, rfl, rfl, rfl, le_rfl, rfl, rfl,
      List.prefix_rfl, .rfl⟩ fun _ hend => hend⟩
  have hport : ∀ b, a = .port b → ok → b.disturbs = false := by
    rintro b rfl ho
    simpa [Action.calm] using ha ho
  have hbind : a ≠ .bindSocket := by
    rintro rfl
    cases hstays
  cases step_inv hbind hnone hs with
  | take b p sent _ hp ht =>
    subst ht
    exact ⟨rfl, h.take hfree (hport b rfl) hp⟩
  | port b p hb hp ht =>
    subst ht
    refine ⟨rfl, ?_⟩
    by_cases hsender : b.ofSender = true
    · obtain ⟨sent, hst, hsent⟩ := sender_step_frame hsender hp
      have hset : Tracks env ok hdr u ⟨s.port, s.hand, none⟩ := h.still
        ⟨rfl, rfl, rfl, rfl, rfl, rfl, rfl, rfl, rfl, le_rfl, rfl, rfl, List.prefix_rfl, .rfl⟩
        fun _ hend => hend
      refine hset.still (still_sendOnly hst (fun call hcall => (hsent call hcall).1) s.hand)
        fun ho hend => ?_
      rw [ending_sendOnly hst]
      · exact hend
      · exact fun call hcall => Bool.eq_false_iff.mpr fun hends =>
          absurd ((hport b rfl ho).symm.trans ((hsent call hcall).2 hends)) (by simp)
    · cases b with
      | work =>
        obtain ⟨call, rest, hqueue, rfl⟩ := step_work_iff.mp hp
        exact h.work hqueue
      | recvDone | recvFail | sendDone | sendFail => cases hb
      | _ => exact absurd rfl hsender
  | put i call hi ht =>
    subst ht
    exact ⟨rfl, h.put hi⟩
  | set recvCb sendCb errCb a ha' ht =>
    rcases ha' with ⟨cb, rfl⟩ | ⟨cb, rfl⟩ | ⟨cb, rfl⟩
    · cases hstays
    · exact hset cb s.port.errCb (Option.some.inj hs).symm
    · exact hset s.port.sendCb cb (Option.some.inj hs).symm

/-- A whole run. -/
theorem Tracks.run (hfree : env.busy 0 = false) (h : Tracks env ok hdr u s)
    (hnone : s.binding = none) {acts : List Action} (hstays : ∀ a ∈ acts, a.stays = true)
    (hcalm : ok → ∀ a ∈ acts, a.calm = true) (hs : Transition.run (Life.step env) s acts = some t) :
    Tracks env ok hdr u t := by
  induction acts generalizing s with
  | nil =>
    obtain rfl : s = t := Option.some.inj hs
    exact h
  | cons a acts ih =>
    obtain ⟨v, hv, hrun⟩ := Option.bind_eq_some_iff.mp hs
    obtain ⟨hnone', hv'⟩ := h.step hfree hnone (hstays a List.mem_cons_self)
      (fun ho => hcalm ho a List.mem_cons_self) hv
    exact ih hv' hnone' (fun b hb => hstays b (List.mem_cons_of_mem _ hb))
      (fun ho b hb => hcalm ho b (List.mem_cons_of_mem _ hb)) hrun

/-- Nothing is on its way, and the worker has refused no completion of a read. -/
def Settled (s : Life) : Prop := s.port.queue = [] ∧ s.hand = [] ∧ ¬ s.Lost

/-- The requests and calls are the first ones of a netport that receives the same, and all of them
once nothing is on its way. -/
theorem Tracks.heard (h : Tracks env ok hdr u s) :
    ∃ c, Transition.run (Life.step env) u (receives s.port.blocks) = some ⟨c, [], none⟩ ∧
      s.port.heard hdr <+: c.heard hdr ∧
      (ok → s.Settled → s.port.heard hdr = c.heard hdr) := by
  cases h with
  | waits hfed _ _ _ _ hheard _ => exact ⟨_, hfed, prefix_of_eq hheard, fun _ _ => hheard⟩
  | holds hfed _ _ _ hpending hheard _ =>
    refine ⟨_, hfed, ?_, fun _ hsettled => ?_⟩
    · rw [hheard]
      exact (iOnRecvStrand_heard env hdr _ _ _).1
    · rw [pending, calls, hsettled.1, hsettled.2.1] at hpending
      cases hpending
  | stops hfed hheard _ _ hwhy =>
    refine ⟨_, hfed, hheard, fun ho hsettled => ?_⟩
    exact ((hwhy ho).resolve_right hsettled.2.2).2

end

end Life

end DevFramework.Netport
