import DevFramework.Netport.Receiving
import DevFramework.Netport.Sending
import DevFramework.Netport.Tracking

/-! # What is left from another connection

A strand call of another socket on the strand of this one: a completed read is taken for the
completion of the header that is outstanding, an error closes the socket. A netport with such a call
on its way, or in the middle of a body, makes other requests or calls than a new one.
-/
namespace DevFramework.Netport
open Transition
set_option autoImplicit false
set_option maxHeartbeats 250000

/-- A completed read, or a call that ends the connection. -/
def StrandCall.noisy (call : StrandCall) : Bool := call.isOnRecv || call.ends

def Heard.isRequest : Heard → Bool
  | .request _ _ _ => true
  | .call _ => false

/-- The number of requests. -/
def Port.asked (hdr : ℕ) (s : Port) : ℕ := (s.heard hdr).countP Heard.isRequest

/-- No completion of a read has been refused. -/
def Port.Unlost (s : Port) : Prop := ∀ bt err, .refused (.onRecv bt err) ∉ s.trace

/-- The header buffer of a machine at a header. -/
def zeros : List UInt8 := List.replicate headerLen 0

/-- It waits for a header. -/
structure AwaitsHeader (hdr : ℕ) (s : Port) : Prop where
  isOpen : s.isOpen = true
  callback : s.sockRecvCb = true
  flag : s.flag = 1
  cmdHdr : s.cmdHdr = some ⟨hdr, zeros⟩
  cmdBody : s.cmdBody = none
  recvs : s.recvs = [⟨hdr, 0, headerLen⟩]
  made : hdr < s.made

namespace Life
variable {env : Env}

/-! ## Until nothing is on its way -/

/-- What every strand call keeps holds once the worker has run all that waits. -/
theorem exists_drained {P : Port → Prop}
    (hexec : ∀ p call rest, p.queue = call :: rest → P p →
      P ({ p with queue := rest }.exec env call))
    (hand : List StrandCall) {p : Port} (h : P p) :
    ∃ acts q, run (step env) ⟨p, hand, none⟩ acts = some ⟨q, hand, none⟩ ∧
      (∀ a ∈ acts, a = .port .work) ∧ q.queue = [] ∧ P q := by
  obtain ⟨k, hk⟩ : ∃ k, (p.queue.map StrandCall.weight).sum ≤ k := ⟨_, le_rfl⟩
  induction k generalizing p with
  | zero =>
    cases hqueue : p.queue with
    | nil => exact ⟨[], p, rfl, List.forall_mem_nil _, hqueue, h⟩
    | cons call rest =>
      rw [hqueue, List.map_cons, List.sum_cons] at hk
      cases call <;> simp [StrandCall.weight] at hk
  | succ k ih =>
    cases hqueue : p.queue with
    | nil => exact ⟨[], p, rfl, List.forall_mem_nil _, hqueue, h⟩
    | cons call rest =>
      obtain ⟨sent, hsent, hweight⟩ := exec_queue env { p with queue := rest } call
      have hless : (({ p with queue := rest }.exec env call).queue.map StrandCall.weight).sum ≤
          k := by
        rw [hqueue, List.map_cons, List.sum_cons] at hk
        rw [hsent, List.map_append, List.sum_append]
        show (rest.map _).sum + _ ≤ k
        omega
      obtain ⟨acts, q, hrun, hacts, hempty, hq⟩ := ih (hexec p call rest hqueue h) hless
      refine ⟨.port .work :: acts, q, ?_, ?_, hempty, hq⟩
      · rw [run, step_work env hand p hqueue, Option.bind_some, hrun]
      · exact List.forall_mem_cons.mpr ⟨rfl, hacts⟩

/-- The same for calls that handlers are about to post, one after another on an idle worker. -/
theorem exists_settled (hfree : env.busy 0 = false) {P : Port → List StrandCall → Prop}
    (hexec : ∀ p call rest hand, p.queue = call :: rest → P p hand →
      P ({ p with queue := rest }.exec env call) hand)
    (hput : ∀ p call hand, p.queue = [] → P p (call :: hand) → P { p with queue := [call] } hand)
    (hand after : List StrandCall) {p : Port} (h : P p hand) :
    ∃ acts q, run (step env) ⟨p, hand ++ after, none⟩ acts = some ⟨q, after, none⟩ ∧
      (∀ a ∈ acts, a.calm = true) ∧ q.queue = [] ∧ P q [] := by
  have hdrain : ∀ {p hand'}, P p hand' → ∃ acts q,
      run (step env) ⟨p, hand' ++ after, none⟩ acts = some ⟨q, hand' ++ after, none⟩ ∧
        (∀ a ∈ acts, a.calm = true) ∧ q.queue = [] ∧ P q hand' := by
    intro p hand' hp
    obtain ⟨acts, q, hrun, hacts, hempty, hq⟩ := exists_drained (P := fun p => P p hand')
      (fun p call rest => hexec p call rest hand') (hand' ++ after) hp
    exact ⟨acts, q, hrun, fun a ha => hacts a ha ▸ rfl, hempty, hq⟩
  induction hand generalizing p with
  | nil => exact hdrain h
  | cons call hand ih =>
    obtain ⟨acts, q, hrun, hacts, hempty, hq⟩ := hdrain h
    have hpost : q.post env call = { q with queue := [call] } := by
      rw [post_free (by rw [hempty]; exact hfree), hempty]
      rfl
    have hstep : step env ⟨q, call :: (hand ++ after), none⟩ (.put 0) =
        some ⟨{ q with queue := [call] }, hand ++ after, none⟩ := by
      simp only [step, List.getElem?_cons_zero, hpost]
      rfl
    obtain ⟨acts', q', hrun', hacts', hempty', hq'⟩ := ih (hput q call hand hempty hq)
    refine ⟨acts ++ .put 0 :: acts', q', ?_, ?_, hempty', hq'⟩
    · rw [run_append, hrun, Option.bind_some, run, List.cons_append, hstep, Option.bind_some,
        hrun']
    · refine List.forall_mem_append.mpr ⟨hacts, List.forall_mem_cons.mpr ⟨rfl, hacts'⟩⟩

end Life

section
variable {env : Env} {hdr : ℕ} {s t : Port} {sent : List StrandCall}

/-! ## What a strand call leaves as it is -/

theorem Port.Unlost.append (h : s.Unlost) {evs : List Event} (htrace : t.trace = s.trace ++ evs)
    (hevs : ∀ e ∈ evs, e.ofSender = true ∨ e.ofReceiver = true) : t.Unlost := by
  intro bt err hmem
  rw [htrace] at hmem
  rcases List.mem_append.mp hmem with hold | hnew
  · exact h bt err hold
  · rcases hevs _ hnew with hs | hr
    · cases hs
    · cases hr

/-- `t` is `s` after work of the send side. -/
structure Beside (hdr : ℕ) (s t : Port) : Prop where
  flag : t.flag = s.flag
  hasRecved : t.hasRecved = s.hasRecved
  cmdHdr : t.cmdHdr = s.cmdHdr
  cmdBody : t.cmdBody = s.cmdBody
  bodyLen : t.bodyLen = s.bodyLen
  recvCb : t.recvCb = s.recvCb
  isOpen : t.isOpen = s.isOpen
  callback : t.sockRecvCb = s.sockRecvCb
  recvs : t.recvs = s.recvs
  made : s.made ≤ t.made
  heard : t.heard hdr = s.heard hdr
  blocks : t.blocks = s.blocks
  unlost : s.Unlost → t.Unlost

theorem SendOnly.beside (h : SendOnly s t sent) : Beside hdr s t := by
  obtain ⟨_, _, _, _, _, _, evs, rfl, hm, hall⟩ := h
  obtain ⟨hheard, hblocks⟩ := heard_none hdr hall
  refine ⟨rfl, rfl, rfl, rfl, rfl, rfl, rfl, rfl, rfl, hm, ?_, ?_, fun hs => ?_⟩
  · rw [Port.heard_append evs rfl, hheard, List.append_nil]
  · rw [Port.blocks_append evs rfl, hblocks, List.append_nil]
  · exact hs.append (t := { s with trace := s.trace ++ evs }) rfl fun e he => .inl (hall e he)

theorem Beside.trans {u : Port} (h : Beside hdr s t) (h' : Beside hdr t u) : Beside hdr s u where
  flag := h'.flag.trans h.flag
  hasRecved := h'.hasRecved.trans h.hasRecved
  cmdHdr := h'.cmdHdr.trans h.cmdHdr
  cmdBody := h'.cmdBody.trans h.cmdBody
  bodyLen := h'.bodyLen.trans h.bodyLen
  recvCb := h'.recvCb.trans h.recvCb
  isOpen := h'.isOpen.trans h.isOpen
  callback := h'.callback.trans h.callback
  recvs := h'.recvs.trans h.recvs
  made := h.made.trans h'.made
  heard := h'.heard.trans h.heard
  blocks := h'.blocks.trans h.blocks
  unlost := h'.unlost ∘ h.unlost

theorem beside_queue (s : Port) (queue : List StrandCall) :
    Beside hdr s { s with queue := queue } :=
  ⟨rfl, rfl, rfl, rfl, rfl, rfl, rfl, rfl, rfl, le_rfl, rfl, rfl, id⟩

theorem beside_errCb (hdr : ℕ) (s : Port) (err : ℤ) : Beside hdr s (s.log (.errCb err)) where
  flag := rfl
  hasRecved := rfl
  cmdHdr := rfl
  cmdBody := rfl
  bodyLen := rfl
  recvCb := rfl
  isOpen := rfl
  callback := rfl
  recvs := rfl
  made := le_rfl
  heard := (Port.heard_append [.errCb err] rfl).trans (List.append_nil _)
  blocks := (Port.blocks_append [.errCb err] rfl).trans (List.append_nil _)
  unlost := by
    intro hs bt err' hmem
    rcases List.mem_append.mp hmem with hold | hnew
    · exact hs bt err' hold
    · cases List.mem_singleton.mp hnew

/-- A call that is not noisy is one of the send side. -/
theorem exec_quiet (env : Env) (s : Port) {call : StrandCall} (hcall : call.noisy = false) :
    SendOnly s (s.exec env call) [] := by
  cases call with
  | sendMessage ci => exact iSendMessageStrand_frame s ci
  | onSend bt err => exact iOnSendStrand_frame s bt
  | other => exact .refl s
  | onRecv | onError | doClear => cases hcall

theorem AwaitsHeader.beside (h : AwaitsHeader hdr s) (hst : Beside hdr s t) :
    AwaitsHeader hdr t where
  isOpen := hst.isOpen.trans h.isOpen
  callback := hst.callback.trans h.callback
  flag := hst.flag.trans h.flag
  cmdHdr := hst.cmdHdr.trans h.cmdHdr
  cmdBody := hst.cmdBody.trans h.cmdBody
  recvs := hst.recvs.trans h.recvs
  made := h.made.trans_le hst.made

/-! ## A message without body -/

/-- A header with the four bytes `len` as its `body_len`. -/
def header (len : List UInt8) : List UInt8 :=
  List.replicate 80 0 ++ len ++ [0x78, 0x56, 0x34, 0x12]

/-- The header of a message without body. -/
def alone : List UInt8 := header [0, 0, 0, 0]

theorem clone_alone : clone alone = some alone := by decide

theorem getBodyLen_alone : getBodyLen alone ≤ 0 := by decide

theorem length_alone : alone.length = headerLen := by decide

theorem clone_zeros : clone zeros = none := by decide

/-- What is called for a message without body. -/
def aloneCalls (s : Port) : List Heard :=
  if s.recvCb = true ∧ s.bodyLen = 0 then [.call ⟨alone, none, 0⟩] else []

theorem aloneCalls_asked (s : Port) : (aloneCalls s).countP Heard.isRequest = 0 := by
  unfold aloneCalls
  split <;> rfl

/-- The header of a message without body has been received: `i_on_recv_strand`. -/
theorem recvHeader_alone_heard (env : Env) (hopen : s.isOpen = true) (hhdr : s.cmdHdr = some ⟨hdr, alone⟩)
    (hbody : s.cmdBody = none) :
    ∃ evs, s.recvHeader env = { s with
        cmdBody := none
        bodyLen := 0
        flag := 1
        cmdHdr := some ⟨hdr, zeros⟩
        recvs := s.recvs ++ [⟨hdr, 0, headerLen⟩]
        trace := s.trace ++ evs } ∧
      evs.filterMap (Event.heard? hdr) = aloneCalls s ++ [.request true 0 headerLen] ∧
      evs.filterMap Event.block? = [] ∧ ∀ e ∈ evs, e.ofReceiver = true := by
  refine ⟨processEvents env s alone ++ [.recvReq ⟨hdr, 0, headerLen⟩], ?_, ?_, ?_, ?_⟩
  · have hnone : freeEvents { s with flag := 0 } = [] := by simp [freeEvents, hbody]
    rw [recvHeader_alone hhdr clone_alone getBodyLen_alone,
      recvBody_eq (s := { s with flag := 0 }) hopen hhdr, hnone, List.append_nil]
    rfl
  · rw [List.filterMap_append]
    congr 1
    · by_cases hcb : s.recvCb = true <;> by_cases hlen : s.bodyLen = 0 <;>
        simp [processEvents, aloneCalls, hcb, hlen, hbody, Event.heard?]
    · simp [Event.heard?]
  · rw [List.filterMap_append]
    by_cases hcb : s.recvCb = true <;> by_cases hlen : s.bodyLen = 0 <;>
      simp [processEvents, hcb, hlen, hbody, Event.block?]
  · intro e he
    rcases List.mem_append.mp he with he | he
    · revert he
      by_cases hcb : s.recvCb = true <;> by_cases hlen : s.bodyLen = 0 <;>
        simp [processEvents, hcb, hlen, hbody, Event.ofReceiver]
      all_goals
        rintro rfl
        rfl
    · rw [List.mem_singleton.mp he]
      rfl

/-! ## Noise -/

/-- The state of the machine while the calls on its way run, the header of a message without body
having come: it waits to be worked on (`first`), it has been (`next`), or the socket is closed. -/
inductive Stage (hdr : ℕ) (s : Port) : Bool → Prop where
  | first (hopen : s.isOpen = true) (hflag : s.flag = 1) (hhdr : s.cmdHdr = some ⟨hdr, alone⟩)
      (hbody : s.cmdBody = none) (hrecvs : s.recvs = []) (hasked : s.asked hdr = 1) :
      Stage hdr s false
  | next (hopen : s.isOpen = true) (hflag : s.flag = 1) (hhdr : s.cmdHdr = some ⟨hdr, zeros⟩)
      (hrecvs : s.recvs = [⟨hdr, 0, headerLen⟩]) (hasked : s.asked hdr = 2) : Stage hdr s true
  | closed (hclosed : s.isOpen = false) (hcb : s.sockRecvCb = false)
      (hrecvs : s.recvs = [] ∧ s.asked hdr = 1 ∨
        s.recvs = [⟨hdr, 0, headerLen⟩] ∧ s.asked hdr = 2) : Stage hdr s true

theorem Port.asked_eq (h : t.heard hdr = s.heard hdr) : t.asked hdr = s.asked hdr := by
  rw [Port.asked, h]
  rfl

theorem Stage.beside {late : Bool} (h : Stage hdr s late) (hst : Beside hdr s t) :
    Stage hdr t late := by
  have hasked := Port.asked_eq hst.heard
  cases h with
  | first hopen hflag hhdr hbody hrecvs hone =>
    exact .first (hst.isOpen.trans hopen) (hst.flag.trans hflag) (hst.cmdHdr.trans hhdr)
      (hst.cmdBody.trans hbody) (hst.recvs.trans hrecvs) (hasked.trans hone)
  | next hopen hflag hhdr hrecvs htwo =>
    exact .next (hst.isOpen.trans hopen) (hst.flag.trans hflag) (hst.cmdHdr.trans hhdr)
      (hst.recvs.trans hrecvs) (hasked.trans htwo)
  | closed hclosed hcb hrecvs =>
    refine .closed (hst.isOpen.trans hclosed) (hst.callback.trans hcb) ?_
    rw [hst.recvs, hasked]
    exact hrecvs

theorem Stage.iDoClear {late : Bool} (h : Stage hdr s late) : Stage hdr s.iDoClear true := by
  have hasked : s.iDoClear.asked hdr = s.asked hdr :=
    Port.asked_eq (Life.iDoClear_heard hdr s).1
  have hcb : s.isOpen = true ∨ s.sockRecvCb = false → s.iDoClear.sockRecvCb = false := by
    rw [iDoClear_eq]
    rintro (h | h) <;> simp [h]
  have hrecvs : s.iDoClear.recvs = s.recvs := (Life.iDoClear_heard hdr s).2.2.2
  refine .closed (by rw [iDoClear_eq]) (hcb ?_) ?_
  · cases h with
    | first hopen => exact .inl hopen
    | next hopen => exact .inl hopen
    | closed _ hcb _ => exact .inr hcb
  · rw [hrecvs, hasked]
    cases h with
    | first _ _ _ _ hrecvs hone => exact .inl ⟨hrecvs, hone⟩
    | next _ _ _ hrecvs htwo => exact .inr ⟨hrecvs, htwo⟩
    | closed _ _ hrecvs => exact hrecvs

/-- A completed read is worked on as if it were that of the header. -/
theorem Stage.onRecv {late : Bool} (h : Stage hdr s late) (env : Env) (bt : ℤ) :
    Stage hdr (s.iOnRecvStrand env bt 0) true := by
  cases h with
  | first hopen hflag hhdr hbody hrecvs hone =>
    obtain ⟨evs, heq, hheard, -, -⟩ := recvHeader_alone_heard env hopen hhdr hbody
    rw [iOnRecvStrand_header hopen hflag, heq]
    refine .next hopen rfl rfl (by rw [hrecvs]; rfl) ?_
    rw [Port.asked, Port.heard_append evs rfl, hheard, List.countP_append, List.countP_append,
      aloneCalls_asked]
    exact congrArg (· + 1) hone
  | next hopen hflag hhdr hrecvs htwo =>
    obtain ⟨calls, hst, -⟩ := post_frame env s
      (show (StrandCall.onError badHeader).isOnRecv = false from rfl)
    rw [iOnRecvStrand_header hopen hflag, recvHeader_bad hhdr clone_zeros]
    exact Stage.beside (.next hopen hflag hhdr hrecvs htwo) hst.beside
  | closed hclosed hcb hrecvs =>
    have hsame : s.iOnRecvStrand env bt 0 = s := if_pos (.inr hclosed)
    rw [hsame]
    exact .closed hclosed hcb hrecvs

/-- A handler passes no error with a completed read. -/
def StrandCall.fine : StrandCall → Bool
  | .onRecv _ err => err == 0
  | _ => true

theorem exec_unlost (env : Env) (s : Port) (call : StrandCall) :
    (s.exec env call).blocks = s.blocks ∧ (s.Unlost → (s.exec env call).Unlost) := by
  have hclear : ∀ q : Port, Beside 0 s q →
      q.iDoClear.blocks = s.blocks ∧ (s.Unlost → q.iDoClear.Unlost) := by
    intro q hq
    refine ⟨(Life.iDoClear_heard 0 q).2.1.trans hq.blocks, fun hs bt err hmem => ?_⟩
    rw [iDoClear_eq] at hmem
    rcases List.mem_append.mp hmem with hold | hnew
    · exact hq.unlost hs bt err hold
    · simp only [clearEvents, List.mem_append, List.mem_map, List.mem_singleton] at hnew
      rcases hnew with ((⟨_, _, h⟩ | ⟨_, _, h⟩) | ⟨_, _, h⟩) | h <;> cases h
  by_cases hnoisy : call.noisy = false
  · have hst : Beside 0 s (s.exec env call) := (exec_quiet env s hnoisy).beside
    exact ⟨hst.blocks, hst.unlost⟩
  cases call with
  | onRecv bt err =>
    obtain ⟨_, ⟨_, _, _, _, _, _, _, evs, heq, -, hall⟩, -⟩ := iOnRecvStrand_frame env s bt err
    have htrace : (s.iOnRecvStrand env bt err).trace = s.trace ++ evs := by rw [heq]
    refine ⟨?_, fun hs => hs.append htrace fun e he => .inr (hall e he)⟩
    exact (Life.iOnRecvStrand_heard env 0 s bt err).2
  | onError err =>
    simp only [Port.exec, Port.iOnErrorStrand]
    split
    · exact hclear _ (beside_errCb 0 s err)
    · exact hclear s (SendOnly.refl s).beside
  | doClear => exact hclear s (SendOnly.refl s).beside
  | sendMessage | onSend | other => exact absurd rfl hnoisy

/-- A strand call moves the machine on when it is noisy, and leaves it alone otherwise. -/
theorem Stage.exec {late : Bool} (h : Stage hdr s late) (env : Env) {call : StrandCall}
    (hfine : call.fine = true) : Stage hdr (s.exec env call) (late || call.noisy) := by
  by_cases hnoisy : call.noisy = false
  · rw [hnoisy, Bool.or_false]
    exact h.beside (exec_quiet env s hnoisy).beside
  rw [Bool.not_eq_false] at hnoisy
  rw [hnoisy, Bool.or_true]
  cases call with
  | onRecv bt err =>
    obtain rfl : err = 0 := by simpa [StrandCall.fine] using hfine
    exact h.onRecv env bt
  | onError err =>
    simp only [Port.exec, Port.iOnErrorStrand]
    split
    · exact (h.beside (beside_errCb hdr s err)).iDoClear
    · exact h.iDoClear
  | doClear => exact h.iDoClear
  | sendMessage | onSend | other => cases hnoisy

/-! ## A connection that goes deaf -/

/-- What holds while the calls on their way run. -/
structure Noise (hdr : ℕ) (blocks : List (List UInt8)) (s : Port) (hand : List StrandCall)
    (late : Bool) : Prop where
  stage : Stage hdr s late
  fine : ∀ call ∈ s.queue ++ hand, call.fine = true
  noisy : late = true ∨ ∃ call ∈ s.queue ++ hand, call.noisy = true
  blocks : s.blocks = blocks
  unlost : s.Unlost

theorem Noise.exec {blocks : List (List UInt8)} {hand : List StrandCall} {late : Bool}
    (h : Noise hdr blocks s hand late) (env : Env) {call : StrandCall} {rest : List StrandCall}
    (hqueue : s.queue = call :: rest) :
    Noise hdr blocks ({ s with queue := rest }.exec env call) hand (late || call.noisy) := by
  obtain ⟨hstage, hfine, hnoisy, hblocks, hunlost⟩ := h
  rw [hqueue, List.cons_append] at hfine hnoisy
  obtain ⟨hhead, htail⟩ := List.forall_mem_cons.mp hfine
  have hpop : Stage hdr { s with queue := rest } late := by
    cases hstage with
    | first hopen hflag hhdr hbody hrecvs hone => exact .first hopen hflag hhdr hbody hrecvs hone
    | next hopen hflag hhdr hrecvs htwo => exact .next hopen hflag hhdr hrecvs htwo
    | closed hclosed hcb hrecvs => exact .closed hclosed hcb hrecvs
  obtain ⟨hkeep, hkept⟩ := exec_unlost env { s with queue := rest } call
  obtain ⟨sent, hsent, hcalls⟩ := exec_posts env { s with queue := rest } call
  have hsentFine : ∀ c ∈ sent, c.fine = true := by
    rcases hcalls with rfl | ⟨-, rfl⟩
    · exact List.forall_mem_nil _
    · exact List.forall_mem_singleton.mpr rfl
  refine ⟨hpop.exec env hhead, ?_, ?_, hkeep.trans hblocks, hkept hunlost⟩
  · rw [hsent]
    intro c hc
    rcases List.mem_append.mp hc with hc | hc
    · rcases List.mem_append.mp hc with hc | hc
      · exact htail c (List.mem_append_left _ hc)
      · exact hsentFine c hc
    · exact htail c (List.mem_append_right _ hc)
  · rcases hnoisy with rfl | ⟨c, hc, hcn⟩
    · exact .inl (Bool.true_or _)
    · rcases List.mem_cons.mp hc with rfl | hc
      · exact .inl (by rw [hcn, Bool.or_true])
      · refine .inr ⟨c, ?_, hcn⟩
        rw [hsent]
        rcases List.mem_append.mp hc with hc | hc
        · exact List.mem_append_left _ (List.mem_append_left _ hc)
        · exact List.mem_append_right _ hc

theorem exec_ends (env : Env) (s : Port) {call : StrandCall} (hends : call.ends = true) :
    (s.exec env call).isOpen = false := by
  cases call with
  | onError err => exact (iDoClear_closed _).1
  | doClear => exact (iDoClear_closed _).1
  | _ => cases hends

/-- The calls that wait close the socket, if one of them ends the connection. -/
theorem Noise.exists_closed {blocks : List (List UInt8)} (env : Env)
    (h : Noise hdr blocks s [] true)
    (hclose : s.isOpen = false ∨ ∃ call ∈ s.queue, call.ends = true) :
    ∃ acts q, run (Life.step env) ⟨s, [], none⟩ acts = some ⟨q, [], none⟩ ∧
      (∀ a ∈ acts, a.calm = true) ∧ q.queue = [] ∧ q.isOpen = false ∧
      Noise hdr blocks q [] true := by
  have hstep : ∀ (p : Port) (call : StrandCall) (rest : List StrandCall), p.queue = call :: rest →
      Noise hdr blocks p [] true ∧ (p.isOpen = false ∨ ∃ call ∈ p.queue, call.ends = true) →
      Noise hdr blocks ({ p with queue := rest }.exec env call) [] true ∧
        (({ p with queue := rest }.exec env call).isOpen = false ∨
          ∃ c ∈ ({ p with queue := rest }.exec env call).queue, c.ends = true) := by
    rintro p call rest hqueue ⟨hnoise, hshut⟩
    have hnext := hnoise.exec env hqueue
    rw [Bool.true_or] at hnext
    refine ⟨hnext, ?_⟩
    rcases hshut with hclosed | ⟨c, hc, hends⟩
    · exact .inl (exec_closed (s := { p with queue := rest }) hclosed call).1
    · rw [hqueue] at hc
      rcases List.mem_cons.mp hc with rfl | hc
      · exact .inl (exec_ends env _ hends)
      · obtain ⟨sent, hsent, -⟩ := exec_posts env { p with queue := rest } call
        exact .inr ⟨c, hsent ▸ List.mem_append_left _ hc, hends⟩
  obtain ⟨acts, q, hrun, hacts, hempty, hnoise, hshut⟩ :=
    Life.exists_drained hstep [] ⟨h, hclose⟩
  refine ⟨acts, q, hrun, fun a ha => hacts a ha ▸ rfl, hempty, ?_, hnoise⟩
  refine hshut.resolve_right fun hsome => ?_
  rw [hempty] at hsome
  obtain ⟨call, hcall, -⟩ := hsome
  cases hcall

namespace Life

/-- The completion of the header, if the machine has taken another one for it. -/
theorem exists_late (hfree : env.busy 0 = false) {blocks : List (List UInt8)}
    (h : Noise hdr blocks s [] true) (hqueue : s.queue = []) (bt : ℤ) :
    ∃ acts q, run (step env) ⟨s, [.onRecv bt 0], none⟩ acts = some ⟨q, [], none⟩ ∧
      (∀ a ∈ acts, a.calm = true) ∧ q.queue = [] ∧ q.isOpen = false ∧
      Noise hdr blocks q [] true := by
  have hput := run_put hfree s hqueue (.onRecv bt 0) []
  have hset : Noise hdr blocks { s with queue := [.onRecv bt 0] } [] true := by
    refine ⟨?_, List.forall_mem_singleton.mpr rfl, .inl rfl, h.blocks, h.unlost⟩
    cases h.stage with
    | next hopen hflag hhdr hrecvs htwo => exact .next hopen hflag hhdr hrecvs htwo
    | closed hclosed hcb hrecvs => exact .closed hclosed hcb hrecvs
  have heta : ({ s with queue := [] } : Port) = s := hqueue ▸ rfl
  have hnext : Noise hdr blocks (s.exec env (.onRecv bt 0)) [] true := by
    have hexec := hset.exec env rfl
    rw [heta] at hexec
    exact hexec
  have hclose : (s.exec env (.onRecv bt 0)).isOpen = false ∨
      ∃ call ∈ (s.exec env (.onRecv bt 0)).queue, call.ends = true := by
    cases h.stage with
    | next hopen hflag hhdr _ _ =>
      refine .inr ⟨.onError badHeader, ?_, rfl⟩
      simp only [Port.exec]
      rw [iOnRecvStrand_header hopen hflag, recvHeader_bad hhdr clone_zeros, Port.iOnError,
        post_free (by rw [hqueue]; exact hfree)]
      exact List.mem_append_right _ List.mem_cons_self
    | closed hclosed _ _ => exact .inl (exec_closed hclosed _).1
  obtain ⟨acts, q, hrun, hacts, hrest⟩ := hnext.exists_closed env hclose
  refine ⟨[.put 0, .port .work] ++ acts, q, ?_, ?_, hrest⟩
  · rw [run_append, hput, Option.bind_some, hrun]
  · refine List.forall_mem_append.mpr ⟨?_, hacts⟩
    intro a ha
    rcases List.mem_cons.mp ha with rfl | ha
    · rfl
    · rw [List.mem_singleton.mp ha]
      rfl

/-- A message without body comes while it waits for a header. -/
theorem take_alone (h : AwaitsHeader hdr s) (hand : List StrandCall) :
    step env ⟨s, hand, none⟩ (.port (.recvDone 0 alone)) =
      some ⟨s.received 0 ⟨hdr, 0, headerLen⟩ alone, hand ++ [.onRecv headerLen 0], none⟩ := by
  rw [step_port env _ (by simp)]
  simp [Action.completes, Port.take, h.recvs, h.callback, length_alone]

theorem received_header (h : AwaitsHeader hdr s) {bytes : List UInt8}
    (hlen : bytes.length = headerLen) :
    s.received 0 ⟨hdr, 0, headerLen⟩ bytes = { s with
      cmdHdr := some ⟨hdr, bytes⟩
      recvs := []
      trace := s.trace ++ [.received bytes] } := by
  have hfill : Port.fill ⟨hdr, 0, headerLen⟩ bytes ⟨hdr, zeros⟩ = ⟨hdr, bytes⟩ := by
    simp [Port.fill, zeros, hlen]
  simp only [Port.received, Port.log, h.cmdHdr, h.cmdBody, h.recvs, Option.map_some, hfill]
  rfl

theorem settled_of_unlost {p : Port} (hqueue : p.queue = []) (h : p.Unlost) :
    Settled ⟨p, [], none⟩ := by
  refine ⟨hqueue, rfl, ?_⟩
  rintro ⟨bt, err, hmem⟩
  exact h bt err hmem

/-- With a noisy call on its way, fewer reads are asked for than messages without body come. -/
theorem exists_deaf (hfree : env.busy 0 = false) (h : AwaitsHeader hdr s)
    (hasked : s.asked hdr = 1) (hblocks : s.blocks = []) (hunlost : s.Unlost)
    {hand : List StrandCall} (hfine : ∀ call ∈ s.queue ++ hand, call.fine = true)
    (hnoisy : ∃ call ∈ s.queue ++ hand, call.noisy = true) :
    ∃ acts t n, run (step env) ⟨s, hand, none⟩ acts = some t ∧ (∀ a ∈ acts, a.calm = true) ∧
      t.Settled ∧ t.port.blocks = List.replicate n alone ∧ t.port.asked hdr ≤ n := by
  obtain ⟨hkeep, hblock⟩ := received_heard hdr s 0 ⟨hdr, 0, headerLen⟩ alone
  have hread := received_header h length_alone
  have hnoise : Noise hdr [alone] (s.received 0 ⟨hdr, 0, headerLen⟩ alone) hand false := by
    refine ⟨?_, hfine, .inr hnoisy, by rw [hblock, hblocks]; rfl, ?_⟩
    · have hone := (Port.asked_eq hkeep).trans hasked
      rw [hread] at hone ⊢
      exact .first h.isOpen h.flag rfl h.cmdBody rfl hone
    · intro bt err hmem
      rcases List.mem_append.mp hmem with hold | hnew
      · exact hunlost bt err hold
      · cases List.mem_singleton.mp hnew
  have hput : ∀ (p : Port) (call : StrandCall) (hand : List StrandCall), p.queue = [] →
      (∃ late, Noise hdr [alone] p (call :: hand) late) →
      ∃ late, Noise hdr [alone] { p with queue := [call] } hand late := by
    rintro p call hand hempty ⟨late, hstage, hfine, hnoisy, hblocks, hunlost⟩
    rw [hempty] at hfine hnoisy
    refine ⟨late, ?_, hfine, hnoisy, hblocks, hunlost⟩
    cases hstage with
    | first hopen hflag hhdr hbody hrecvs hone => exact .first hopen hflag hhdr hbody hrecvs hone
    | next hopen hflag hhdr hrecvs htwo => exact .next hopen hflag hhdr hrecvs htwo
    | closed hclosed hcb hrecvs => exact .closed hclosed hcb hrecvs
  have hexec : ∀ (p : Port) (call : StrandCall) (rest hand : List StrandCall),
      p.queue = call :: rest → (∃ late, Noise hdr [alone] p hand late) →
      ∃ late, Noise hdr [alone] ({ p with queue := rest }.exec env call) hand late := by
    rintro p call rest hand hqueue ⟨late, hp⟩
    exact ⟨_, hp.exec env hqueue⟩
  obtain ⟨acts, q, hrun, hacts, hempty, late, hq⟩ := exists_settled hfree hexec hput hand
    [.onRecv headerLen 0] ⟨false, hnoise⟩
  obtain rfl : late = true := by
    refine hq.noisy.resolve_right fun hsome => ?_
    rw [hempty] at hsome
    obtain ⟨call, hcall, -⟩ := hsome
    cases hcall
  obtain ⟨acts', q', hrun', hacts', hempty', hclosed, hq'⟩ := exists_late hfree hq hempty headerLen
  obtain ⟨all, hall, hcalm⟩ : ∃ all, run (step env) ⟨s, hand, none⟩ all = some ⟨q', [], none⟩ ∧
      ∀ a ∈ all, a.calm = true := by
    refine ⟨.port (.recvDone 0 alone) :: (acts ++ acts'), ?_, List.forall_mem_cons.mpr
      ⟨rfl, List.forall_mem_append.mpr ⟨hacts, hacts'⟩⟩⟩
    rw [run, take_alone h, Option.bind_some, run_append, hrun, Option.bind_some, hrun']
  have hlast : q'.sockRecvCb = false ∧ (q'.recvs = [] ∧ q'.asked hdr = 1 ∨
      q'.recvs = [⟨hdr, 0, headerLen⟩] ∧ q'.asked hdr = 2) := by
    cases hq'.stage with
    | next hopen => simp [hclosed] at hopen
    | closed _ hcb hrecvs => exact ⟨hcb, hrecvs⟩
  obtain ⟨hcb, ⟨-, hone⟩ | ⟨hrecvs, htwo⟩⟩ := hlast
  · exact ⟨all, _, 1, hall, hcalm, settled_of_unlost hempty' hq'.unlost, hq'.blocks, hone.le⟩
  · -- the read that the closed socket still has completes, and nobody hears of it
    obtain ⟨hkeep', hblock'⟩ := received_heard hdr q' 0 ⟨hdr, 0, headerLen⟩ alone
    have htake : step env ⟨q', [], none⟩ (.port (.recvDone 0 alone)) =
        some ⟨q'.received 0 ⟨hdr, 0, headerLen⟩ alone, [], none⟩ := by
      rw [step_port env _ (by simp)]
      simp [Action.completes, Port.take, hrecvs, hcb, length_alone]
    refine ⟨all ++ [.port (.recvDone 0 alone)], ⟨_, [], none⟩, 2, ?_, ?_,
      settled_of_unlost (p := q'.received 0 ⟨hdr, 0, headerLen⟩ alone) hempty' ?_, ?_, ?_⟩
    · rw [run_append, hall, Option.bind_some, run, htake]
      rfl
    · exact List.forall_mem_append.mpr ⟨hcalm, List.forall_mem_singleton.mpr rfl⟩
    · intro bt err hmem
      rcases List.mem_append.mp hmem with hold | hnew
      · exact hq'.unlost bt err hold
      · cases List.mem_singleton.mp hnew
    · rw [hblock', hq'.blocks]
      rfl
    · exact ((Port.asked_eq hkeep').trans htwo).le

/-! ## A connection without noise -/

theorem received_unlost (h : s.Unlost) (i : ℕ) (r : RecvReq) (bytes : List UInt8) :
    (s.received i r bytes).Unlost := by
  intro bt err hmem
  rcases List.mem_append.mp hmem with hold | hnew
  · exact h bt err hold
  · cases List.mem_singleton.mp hnew

/-- What a read that comes and is worked on leaves in the trace. -/
theorem arrived (env : Env) (s : Port) (r : RecvReq) (bytes : List UInt8) (bt : ℤ) :
    ((s.received 0 r bytes).iOnRecvStrand env bt 0).blocks = s.blocks ++ [bytes] ∧
      (s.Unlost → ((s.received 0 r bytes).iOnRecvStrand env bt 0).Unlost) := by
  obtain ⟨hblocks, hunlost⟩ := exec_unlost env (s.received 0 r bytes) (.onRecv bt 0)
  exact ⟨hblocks.trans (received_heard 0 s 0 r bytes).2, fun h =>
    hunlost (received_unlost h 0 r bytes)⟩

theorem run_alone (hfree : env.busy 0 = false) (h : AwaitsHeader hdr s) (hqueue : s.queue = []) :
    ∃ q, run (step env) ⟨s, [], none⟩ (arrive alone) = some ⟨q, [], none⟩ ∧
      AwaitsHeader hdr q ∧ q.queue = [] ∧
      (q.recvCb = s.recvCb ∧ q.hasRecved = s.hasRecved ∧ q.bodyLen = 0) ∧
      q.heard hdr = s.heard hdr ++ (aloneCalls s ++ [.request true 0 headerLen]) ∧
      q.blocks = s.blocks ++ [alone] ∧ (s.Unlost → q.Unlost) := by
  obtain ⟨hkeep, -⟩ := received_heard hdr s 0 ⟨hdr, 0, headerLen⟩ alone
  have hrun := run_arrive hfree s hqueue h.recvs h.callback
    (show (alone.length : ℤ) = headerLen by rw [length_alone])
  obtain ⟨hblocks, hunlost⟩ := arrived env s ⟨hdr, 0, headerLen⟩ alone headerLen
  obtain ⟨p, hp⟩ : ∃ p, p = s.received 0 ⟨hdr, 0, headerLen⟩ alone := ⟨_, rfl⟩
  rw [← hp] at hrun hblocks hunlost hkeep
  rw [received_header h length_alone] at hp
  have hopen : p.isOpen = true := hp ▸ h.isOpen
  have hhdr : p.cmdHdr = some ⟨hdr, alone⟩ := hp ▸ rfl
  obtain ⟨evs, heq, hheard, -, -⟩ := recvHeader_alone_heard env hopen hhdr (hp ▸ h.cmdBody)
  rw [iOnRecvStrand_header hopen (hp ▸ h.flag), heq] at hrun hblocks hunlost
  refine ⟨_, hrun, ⟨hopen, hp ▸ h.callback, rfl, rfl, rfl, hp ▸ rfl, hp ▸ h.made⟩, hp ▸ hqueue,
    ⟨hp ▸ rfl, hp ▸ rfl, rfl⟩, ?_, hblocks, hunlost⟩
  rw [Port.heard_append evs rfl, hheard, hkeep, hp]
  rfl

theorem run_receives_alone (hfree : env.busy 0 = false) (h : AwaitsHeader hdr s)
    (hqueue : s.queue = []) (n : ℕ) :
    ∃ q, run (step env) ⟨s, [], none⟩ (receives (List.replicate n alone)) = some ⟨q, [], none⟩ ∧
      q.asked hdr = s.asked hdr + n := by
  induction n generalizing s with
  | zero => exact ⟨s, rfl, rfl⟩
  | succ n ih =>
    obtain ⟨q, hrun, hq, hempty, -, hheard, -, -⟩ := run_alone hfree h hqueue
    obtain ⟨q', hrun', hasked⟩ := ih hq hempty
    refine ⟨q', ?_, ?_⟩
    · rw [List.replicate_succ, receives, List.flatMap_cons, run_append, hrun, Option.bind_some]
      exact hrun'
    · rw [hasked, Port.asked, hheard, List.countP_append, List.countP_append, aloneCalls_asked]
      show s.asked hdr + (0 + 1) + n = _
      omega

/-- The calls on their way run, and none is noisy. -/
theorem exists_quiet (hdr : ℕ) (hfree : env.busy 0 = false) (s : Port) (hand : List StrandCall)
    (hquiet : ∀ call ∈ s.queue ++ hand, call.noisy = false) :
    ∃ acts q, run (step env) ⟨s, hand, none⟩ acts = some ⟨q, [], none⟩ ∧
      (∀ a ∈ acts, a.calm = true) ∧ q.queue = [] ∧ Beside hdr s q := by
  have hexec : ∀ (p : Port) (call : StrandCall) (rest hand : List StrandCall),
      p.queue = call :: rest → Beside hdr s p ∧ (∀ c ∈ p.queue ++ hand, c.noisy = false) →
      Beside hdr s ({ p with queue := rest }.exec env call) ∧
        ∀ c ∈ ({ p with queue := rest }.exec env call).queue ++ hand, c.noisy = false := by
    rintro p call rest hand hqueue ⟨hp, hall⟩
    rw [hqueue, List.cons_append] at hall
    obtain ⟨hcall, hrest⟩ := List.forall_mem_cons.mp hall
    have hst := exec_quiet env { p with queue := rest } hcall
    refine ⟨(hp.trans (beside_queue p rest)).trans hst.beside, ?_⟩
    rw [hst.queue, List.append_nil]
    exact hrest
  have hput : ∀ (p : Port) (call : StrandCall) (hand : List StrandCall), p.queue = [] →
      Beside hdr s p ∧ (∀ c ∈ p.queue ++ call :: hand, c.noisy = false) →
      Beside hdr s { p with queue := [call] } ∧
        ∀ c ∈ [call] ++ hand, c.noisy = false := by
    rintro p call hand hempty ⟨hp, hall⟩
    rw [hempty] at hall
    exact ⟨hp.trans (beside_queue p [call]), hall⟩
  obtain ⟨acts, q, hrun, hacts, hempty, hq, -⟩ := exists_settled hfree hexec hput hand []
    ⟨(SendOnly.refl s).beside, hquiet⟩
  rw [List.append_nil] at hrun
  exact ⟨acts, q, hrun, hacts, hempty, hq⟩

/-! ## A long message -/

/-- It waits for the first part of a body. -/
structure AwaitsPart (hdr : ℕ) (s : Port) : Prop where
  isOpen : s.isOpen = true
  callback : s.sockRecvCb = true
  recvCb : s.recvCb = true
  queue : s.queue = []
  flag : s.flag = 2
  bodyLen : 0 < s.bodyLen
  cmdHdr : ∃ bytes, s.cmdHdr = some ⟨hdr, bytes⟩
  cmdBody : ∃ b, s.cmdBody = some b ∧ b.id ≠ hdr ∧ s.recvs = [⟨b.id, 0, tpMaxRecvSize⟩]

section Long
variable {long part : List UInt8}

theorem run_longHeader (hlen : long.length = headerLen) (hclone : clone long = some long)
    (hlong : tpMaxRecvSize < getBodyLen long) (hfree : env.busy 0 = false) (h : AwaitsHeader hdr s)
    (hqueue : s.queue = []) (hcb : s.recvCb = true) :
    ∃ q, run (step env) ⟨s, [], none⟩ (arrive long) = some ⟨q, [], none⟩ ∧ AwaitsPart hdr q ∧
      (q.hasRecved = s.hasRecved ∧ q.bodyLen = getBodyLen long) ∧
      q.heard hdr = s.heard hdr ++ [.request false 0 tpMaxRecvSize] ∧
      q.blocks = s.blocks ++ [long] ∧ (s.Unlost → q.Unlost) := by
  have hpos : 0 < getBodyLen long := lt_trans (by decide) hlong
  obtain ⟨hkeep, -⟩ := received_heard hdr s 0 ⟨hdr, 0, headerLen⟩ long
  have hrun := run_arrive hfree s hqueue h.recvs h.callback
    (show (long.length : ℤ) = headerLen by rw [hlen])
  obtain ⟨hblocks, hunlost⟩ := arrived env s ⟨hdr, 0, headerLen⟩ long headerLen
  obtain ⟨p, hp⟩ : ∃ p, p = s.received 0 ⟨hdr, 0, headerLen⟩ long := ⟨_, rfl⟩
  rw [← hp] at hrun hblocks hunlost hkeep
  rw [received_header h hlen] at hp
  have hopen : p.isOpen = true := hp ▸ h.isOpen
  have hhdr : p.cmdHdr = some ⟨hdr, long⟩ := hp ▸ rfl
  have hmade : p.made ≠ hdr := hp ▸ h.made.ne'
  have hrecvs : p.recvs = [] := hp ▸ rfl
  rw [iOnRecvStrand_header hopen (hp ▸ h.flag), recvHeader_body hopen hhdr hclone hpos, if_pos hlong,
    min_eq_right hlong.le, hrecvs] at hrun hblocks hunlost
  refine ⟨_, hrun, ⟨hopen, hp ▸ h.callback, hp ▸ hcb, hp ▸ hqueue, rfl, hpos, ⟨long, hhdr⟩,
    _, rfl, hmade, rfl⟩, ⟨hp ▸ rfl, rfl⟩, ?_, hblocks, hunlost⟩
  rw [Port.heard_append _ rfl, hkeep]
  simp [Event.heard?, hmade]

/-- What follows the first part is placed by `has_recved_`. -/
theorem run_firstPart (hpart : (part.length : ℤ) = tpMaxRecvSize) (hfree : env.busy 0 = false)
    (h : AwaitsPart hdr s) :
    ∃ q e later, run (step env) ⟨s, [], none⟩ (arrive part) = some ⟨q, [], none⟩ ∧ q.queue = [] ∧
      q.heard hdr = s.heard hdr ++ e :: later ∧
      ((∃ len, e = .request false (s.hasRecved + tpMaxRecvSize) len) ∨
        s.hasRecved + tpMaxRecvSize = s.bodyLen ∧ ∃ d, e = .call d) ∧
      q.blocks = s.blocks ++ [part] ∧ (s.Unlost → q.Unlost) := by
  obtain ⟨bytes, hbytes⟩ := h.cmdHdr
  obtain ⟨b, hb, hid, hrecvs⟩ := h.cmdBody
  have hrun := run_arrive hfree s h.queue hrecvs h.callback hpart
  obtain ⟨hblocks, hunlost⟩ := arrived env s ⟨b.id, 0, tpMaxRecvSize⟩ part tpMaxRecvSize
  obtain ⟨hkeep, -⟩ := received_heard hdr s 0 ⟨b.id, 0, tpMaxRecvSize⟩ part
  obtain ⟨p, hp⟩ : ∃ p, p = s.received 0 ⟨b.id, 0, tpMaxRecvSize⟩ part := ⟨_, rfl⟩
  rw [← hp] at hrun hblocks hunlost hkeep
  have hopen : p.isOpen = true := hp ▸ h.isOpen
  obtain ⟨body, hbody, hid'⟩ : ∃ body, p.cmdBody = some body ∧ body.id ≠ hdr := by
    rw [hp]
    exact ⟨_, congrArg (Option.map _) hb, (fill_id _ part b).symm ▸ hid⟩
  obtain ⟨text, hhdr⟩ : ∃ text, p.cmdHdr = some ⟨hdr, text⟩ := by
    rw [hp]
    exact ⟨_, (congrArg (Option.map _) hbytes).trans
      (congrArg some (Buf.eq_mk (fill_id _ part ⟨hdr, bytes⟩)))⟩
  have hqueue : p.queue = [] := hp ▸ h.queue
  have hcb : p.recvCb = true := hp ▸ h.recvCb
  have hrecved : p.hasRecved = s.hasRecved := hp ▸ rfl
  have hlen : p.bodyLen = s.bodyLen := hp ▸ rfl
  rw [iOnRecvStrand_part hopen (hp ▸ h.flag)] at hrun hblocks hunlost
  by_cases hlast : p.hasRecved + tpMaxRecvSize = p.bodyLen
  · rw [recvPart_last hlast, recvBody_eq (s := { p with hasRecved := 0, flag := 0 }) hopen hhdr,
      processEvents_body (s := { p with hasRecved := 0, flag := 0 }) hcb (hlen ▸ h.bodyLen.ne')
        hbody] at hrun hblocks hunlost
    refine ⟨_, .call ⟨text, jfMsgCodec env.ks (body.bytes.take p.bodyLen.toNat), p.bodyLen⟩,
      [.request true 0 headerLen], hrun, hqueue, ?_,
      .inr ⟨by rw [← hrecved, hlast, hlen], _, rfl⟩, hblocks, hunlost⟩
    have hcleared : Port.heard hdr { p with hasRecved := 0, flag := 0 } = s.heard hdr := hkeep
    rw [Port.heard_append _ rfl, hcleared, List.filterMap_append, List.filterMap_append,
      freeEvents_unheard]
    simp [Event.heard?]
  · rw [recvPart_next hopen hbody hlast] at hrun hblocks hunlost
    refine ⟨_, .request false (s.hasRecved + tpMaxRecvSize)
      (min (p.bodyLen - (p.hasRecved + tpMaxRecvSize)) tpMaxRecvSize), [], hrun, hqueue, ?_,
      .inl ⟨_, rfl⟩, hblocks, hunlost⟩
    rw [Port.heard_append _ rfl, hkeep]
    simp [Event.heard?, hid', hrecved]

/-- The header of a long message and the first part of its body. -/
theorem run_long (hlen : long.length = headerLen) (hclone : clone long = some long)
    (hlong : tpMaxRecvSize < getBodyLen long) (hpart : (part.length : ℤ) = tpMaxRecvSize)
    (hfree : env.busy 0 = false) (h : AwaitsHeader hdr s) (hqueue : s.queue = [])
    (hcb : s.recvCb = true) :
    ∃ q e later, run (step env) ⟨s, [], none⟩ (arrive long ++ arrive part) = some ⟨q, [], none⟩ ∧
      q.queue = [] ∧ q.heard hdr = s.heard hdr ++ .request false 0 tpMaxRecvSize :: e :: later ∧
      ((∃ len, e = .request false (s.hasRecved + tpMaxRecvSize) len) ∨
        s.hasRecved + tpMaxRecvSize = getBodyLen long ∧ ∃ d, e = .call d) ∧
      q.blocks = s.blocks ++ [long, part] ∧ (s.Unlost → q.Unlost) := by
  obtain ⟨p, hrun, hp, ⟨hrecved, hbody⟩, hheard, hblocks, hunlost⟩ :=
    run_longHeader hlen hclone hlong hfree h hqueue hcb
  obtain ⟨q, e, later, hrun', hempty, hheard', hcase, hblocks', hunlost'⟩ :=
    run_firstPart hpart hfree hp
  rw [hrecved, hbody] at hcase
  refine ⟨q, e, later, ?_, hempty, ?_, hcase, ?_, fun hs => hunlost' (hunlost hs)⟩
  · rw [run_append, hrun, Option.bind_some, hrun']
  · rw [hheard', hheard, List.append_assoc]
    rfl
  · rw [hblocks', hblocks, List.append_assoc]
    rfl

end Long

end Life

end

end DevFramework.Netport
