import Mathlib.Logic.Function.Basic
import DevFramework.Netport.Flow

/-! # Two netports and the wires between them

The sockets are the ends of a reliable byte stream in each direction: what one kernel has taken and
the other netport has not read yet is on the wire. Either side sends messages whose headers are
right; strand calls, writes, reads and their completions come in any order.
-/
namespace DevFramework.Netport
open Transition Framing
set_option autoImplicit false
set_option maxHeartbeats 250000

inductive Side where
  | left
  | right
  deriving DecidableEq

def Side.other : Side → Side
  | .left => .right
  | .right => .left

@[simp] theorem Side.other_other (x : Side) : x.other.other = x := by cases x <;> rfl

theorem Side.eq_or_eq_other (x y : Side) : y = x ∨ y = x.other := by cases x <;> cases y <;> decide

theorem Side.other_ne (x : Side) : x.other ≠ x := by cases x <;> decide

/-- A message with its header: the magic number, and the length of the body that follows. -/
def Message (buf : List UInt8) : Prop :=
  headerLen ≤ buf.length ∧ magic (buf.take headerLen) = magicNum ∧
    getBodyLen (buf.take headerLen) = (buf.drop headerLen).length

instance (buf : List UInt8) : Decidable (Message buf) :=
  inferInstanceAs (Decidable (_ ∧ _ ∧ _))

/-- The call of `recv_cb_` that a message stands for. -/
def expected (buf : List UInt8) : Delivery where
  hdr := buf.take headerLen
  body := if (buf.drop headerLen).isEmpty then none else some (buf.drop headerLen)
  len := (buf.drop headerLen).length

/-- The netports, what is on the wire from either of them, and the messages passed to it. -/
structure Link where
  port : Side → Port
  wire : Side → List UInt8
  sent : Side → List (List UInt8)

def Link.start (load : Side → ℕ) : Link where
  port x := bound (load x)
  wire _ := []
  sent _ := []

def Link.set (L : Link) (x : Side) (t : Port) : Link := { L with port := Function.update L.port x t }

/-- A step of the netport on one side. -/
def linkStep (ks : ℕ → UInt8) (L : Link) : Side × Action → Option Link
  | (x, .send buf) =>
    if Message buf then
      (step (accepting ks) (L.port x) (.send buf)).map fun t =>
        { L.set x t with sent := Function.update L.sent x (L.sent x ++ [buf]) }
    else none
  | (x, .transmit i n) =>
    (step (accepting ks) (L.port x) (.transmit i n)).map fun t =>
      { L.set x t with
        wire := Function.update L.wire x (L.wire x ++ t.wrote.drop (L.port x).wrote.length) }
  | (x, .recvDone i bytes) =>
    if bytes <+: L.wire x.other then
      (step (accepting ks) (L.port x) (.recvDone i bytes)).map fun t =>
        { L.set x t with
          wire := Function.update L.wire x.other ((L.wire x.other).drop bytes.length) }
    else none
  | (x, .work) => (step (accepting ks) (L.port x) .work).map (L.set x)
  | (x, .other) => (step (accepting ks) (L.port x) .other).map (L.set x)
  | (x, .sendDone i) => (step (accepting ks) (L.port x) (.sendDone i)).map (L.set x)
  | (_, .clear) | (_, .recvFail _ _) | (_, .sendFail _ _) => none

/-- A step that no caller takes. -/
def linkAdvance (ks : ℕ → UInt8) (L : Link) : Side × Action → Option Link
  | (_, .send _) | (_, .other) => none
  | p => linkStep ks L p

/-- The bytes that the messages of a side are on the wire. -/
def Link.spelled (ks : ℕ → UInt8) (L : Link) (x : Side) : List UInt8 :=
  (L.sent x).flatMap (Port.command ks)

structure Carries (ks : ℕ → UInt8) (L : Link) : Prop where
  flow : ∀ x, Flow (L.port x)
  parsing : ∀ x, Parsing True ks (L.port x)
  messages : ∀ x, ∀ buf ∈ L.sent x, Message buf
  posted : ∀ x, (L.port x).posted.map CmdInfo.cmdBody = (L.sent x).map (Port.command ks)
  stream : ∀ x, (L.port x).wrote = (L.port x.other).taken ++ L.wire x

section
variable {ks : ℕ → UInt8} {L L' : Link} {s t : Port}

/-! ## The parse of what is sent -/

theorem jfMsgCodec_length (data : List UInt8) :
    ((jfMsgCodec ks data).getD []).length = data.length := by
  cases data with
  | nil => rfl
  | cons b data => simp [jfMsgCodec]

/-- A message on the wire is a frame that is delivered as the message. -/
theorem command_front {buf : List UInt8} (h : Message buf) (rest : List UInt8) :
    (frames ks).front (Port.command ks buf ++ rest) =
      .frame (expected buf) (Port.command ks buf).length := by
  obtain ⟨hlong, hmagic, hbody⟩ := h
  have hlen : (buf.take headerLen).length = headerLen := List.length_take_of_le hlong
  have hbody' : ((jfMsgCodec ks (buf.drop headerLen)).getD []).length =
      (getBodyLen (buf.take headerLen)).toNat := by
    rw [jfMsgCodec_length, hbody]
    rfl
  have hdeliver : deliver ks (buf.take headerLen) ((jfMsgCodec ks (buf.drop headerLen)).getD []) =
      expected buf := by
    rw [deliver, jfMsgCodec_twice, jfMsgCodec_length]
    rfl
  rw [Port.command, frames_whole hlen hmagic hbody' rest, hdeliver]

theorem parse_spelled (h : Carries ks L) (x : Side) :
    (frames ks).parse (L.spelled ks x) =
      { frames := (L.sent x).map expected, error := none, rest := [] } := by
  have hempty : (frames ks).parse ([] : List UInt8) = { frames := [], error := none, rest := [] } :=
    Format.parse_short (frames_short (by decide))
  have hparse := Format.parse_encoded (F := frames ks) (Port.command ks) expected (L.sent x)
    (fun buf hbuf rest => command_front (h.messages x buf hbuf) rest) []
  rw [List.append_nil, hempty] at hparse
  rw [Link.spelled, hparse]
  simp [Parsed.after]

theorem Carries.wrote (h : Carries ks L) (x : Side) : (L.port x).wrote <+: L.spelled ks x := by
  have hbytes := (h.flow x).bytes
  obtain ⟨rest, hrest⟩ := (h.flow x).sending.sentPrefix
  have hspelled : L.spelled ks x = (L.port x).posted.flatMap CmdInfo.cmdBody := by
    rw [Link.spelled, List.flatMap_def, ← h.posted x, ← List.flatMap_def]
  rw [hspelled, ← hrest, List.flatMap_append, ← hbytes, List.append_assoc]
  exact List.prefix_append _ _

theorem Carries.taken (h : Carries ks L) (x : Side) :
    (L.port x.other).taken <+: L.spelled ks x := by
  refine List.IsPrefix.trans ?_ (h.wrote x)
  rw [h.stream x]
  exact List.prefix_append _ _

/-- Neither netport ever sees a bad header: both stay open, and nothing ends them. -/
theorem Carries.live (h : Carries ks L) (x : Side) :
    (L.port x).isOpen = true ∧ (L.port x).endings = [] := by
  have htaken := h.taken x.other
  rw [Side.other_other] at htaken
  obtain ⟨z, hz⟩ := htaken
  obtain ⟨un, hphase, hparse⟩ := h.parsing x
  cases hphase with
  | hdrAsked hb _ _ _ => exact ⟨hb.isOpen, (hb.calm trivial).endings⟩
  | hdrHere hb _ _ _ => exact ⟨hb.isOpen, (hb.calm trivial).endings⟩
  | bodyAsked hb _ _ _ => exact ⟨hb.isOpen, (hb.calm trivial).endings⟩
  | bodyHere hb _ _ _ => exact ⟨hb.isOpen, (hb.calm trivial).endings⟩
  | failed hlen hbad _ _ _ =>
    have herror := hparse z
    rw [hz, parse_spelled h, Format.parse_bad (frames_bad hlen hbad z)] at herror
    cases congrArg Parsed.error herror
  | stopped hok _ => exact absurd trivial hok

/-! ## Every step -/

theorem Carries.step (h : Carries ks L) {x : Side} {a : Action} (ha : a.disturbs = false)
    (hs : step (accepting ks) (L.port x) a = some (L'.port x))
    (hport : L'.port x.other = L.port x.other) (hmessages : ∀ y, ∀ buf ∈ L'.sent y, Message buf)
    (hsent : L'.sent x.other = L.sent x.other)
    (hposted : (L'.port x).posted.map CmdInfo.cmdBody = (L'.sent x).map (Port.command ks))
    (hout : (L'.port x).wrote = (L.port x.other).taken ++ L'.wire x)
    (hin : (L.port x.other).wrote = (L'.port x).taken ++ L'.wire x.other) : Carries ks L' := by
  obtain ⟨hopen, hcalm⟩ := h.live x
  have hboth : ∀ {P : Side → Prop}, P x → P x.other → ∀ y, P y := by
    intro P hx hy y
    rcases Side.eq_or_eq_other x y with rfl | rfl
    · exact hx
    · exact hy
  refine ⟨hboth ?_ ?_, hboth ?_ ?_, hmessages, hboth hposted ?_, hboth ?_ ?_⟩
  · exact flow_step (h.flow x) hopen hcalm ha hs
  · rw [hport]
    exact h.flow x.other
  · exact parsing_step (fun _ => accepting_busy ks) (h.parsing x) (fun _ => ha) hs
  · rw [hport]
    exact h.parsing x.other
  · rw [hport, hsent]
    exact h.posted x.other
  · rw [hport]
    exact hout
  · rw [hport, Side.other_other]
    exact hin

/-- The steps that write nothing, read nothing and send nothing. -/
theorem silent_step (h : Flow s) (hopen : s.isOpen = true) (hcalm : s.endings = []) {a : Action}
    (ha : a = .work ∨ a = .other ∨ ∃ i, a = .sendDone i)
    (hs : Netport.step (accepting ks) s a = some t) :
    t.posted = s.posted ∧ t.wrote = s.wrote ∧ t.taken = s.taken := by
  rcases ha with rfl | rfl | ⟨i, rfl⟩
  · obtain ⟨call, rest, hq, rfl⟩ := step_work_iff.mp hs
    obtain ⟨-, hkept⟩ := h.exec (accepting ks) hopen hq (endings_head hcalm hq)
    exact ⟨hkept.posted, hkept.wrote, exec_taken _ call⟩
  · obtain rfl := Option.some.inj hs
    exact ⟨rfl, rfl, rfl⟩
  · obtain ⟨r, -, -, rfl⟩ := step_sendDone_iff.mp hs
    split
    · rw [post_free rfl]
      exact ⟨rfl, rfl, rfl⟩
    · exact ⟨rfl, rfl, rfl⟩

theorem Link.set_port (L : Link) (x : Side) (t : Port) :
    (L.set x t).port x = t ∧ (L.set x t).port x.other = L.port x.other :=
  ⟨by simp [Link.set], by simp [Link.set, x.other_ne]⟩

theorem Carries.silent (h : Carries ks L) {x : Side} {a : Action}
    (ha : a = .work ∨ a = .other ∨ ∃ i, a = .sendDone i)
    (hs : (Netport.step (accepting ks) (L.port x) a).map (L.set x) = some L') : Carries ks L' := by
  obtain ⟨t, ht, rfl⟩ := Option.map_eq_some_iff.mp hs
  obtain ⟨hopen, hcalm⟩ := h.live x
  obtain ⟨hposted, hwrote, htaken⟩ := silent_step (h.flow x) hopen hcalm ha ht
  obtain ⟨hx, hy⟩ := L.set_port x t
  have hdisturbs : a.disturbs = false := by rcases ha with rfl | rfl | ⟨i, rfl⟩ <;> rfl
  have hin := h.stream x.other
  rw [Side.other_other] at hin
  refine h.step hdisturbs (ht.trans (congrArg some hx.symm)) hy h.messages rfl ?_ ?_ ?_
  · rw [hx, hposted]
    exact h.posted x
  · rw [hx, hwrote]
    exact h.stream x
  · rw [hx, htaken]
    exact hin

theorem send_seen {buf : List UInt8} (hbuf : Message buf)
    (hs : Netport.step (accepting ks) s (.send buf) = some t) :
    t.posted = s.posted ++ [⟨s.made, Port.command ks buf⟩] ∧ t.wrote = s.wrote ∧
      t.taken = s.taken := by
  obtain ⟨rfl, -⟩ | ⟨-, rfl⟩ := step_send_iff.mp hs
  · exact absurd hbuf.1 (by decide)
  · exact ⟨rfl, rfl, rfl⟩

theorem transmit_seen {i n : ℕ} (hs : Netport.step (accepting ks) s (.transmit i n) = some t) :
    ∃ bytes, bytes.length = n ∧ n ≠ 0 ∧ t.wrote = s.wrote ++ bytes ∧ t.posted = s.posted ∧
      t.taken = s.taken := by
  obtain ⟨r, -, hn, hle, -, rfl⟩ := step_transmit_iff.mp hs
  refine ⟨r.left.take n, List.length_take_of_le hle, hn, ?_, rfl, ?_⟩
  · simp [Port.wrote, Port.log, Event.written]
  · simp [Port.taken, Port.log, Event.bytes]

theorem recvDone_seen {i : ℕ} {bytes : List UInt8}
    (hs : Netport.step (accepting ks) s (.recvDone i bytes) = some t) :
    t.wrote = s.wrote ∧ t.posted = s.posted := by
  obtain ⟨r, -, -, rfl⟩ := step_recvDone_iff.mp hs
  obtain ⟨hwrote, -⟩ := received_unsent s i r bytes
  split
  · rw [post_free rfl]
    exact ⟨hwrote, rfl⟩
  · exact ⟨hwrote, rfl⟩

theorem Carries.send (h : Carries ks L) {x : Side} {buf : List UInt8} (hbuf : Message buf)
    (ht : Netport.step (accepting ks) (L.port x) (.send buf) = some t) :
    Carries ks { L.set x t with sent := Function.update L.sent x (L.sent x ++ [buf]) } := by
  have hin := h.stream x.other
  rw [Side.other_other] at hin
  obtain ⟨hx, hy⟩ := L.set_port x t
  obtain ⟨hposted, hwrote, htaken⟩ := send_seen hbuf ht
  have hsent : Function.update L.sent x (L.sent x ++ [buf]) x = L.sent x ++ [buf] := by simp
  have hother : Function.update L.sent x (L.sent x ++ [buf]) x.other = L.sent x.other := by
    simp [x.other_ne]
  refine h.step rfl (ht.trans (congrArg some hx.symm)) hy ?_ hother ?_ ?_ ?_
  · intro y m hm
    rcases Side.eq_or_eq_other x y with rfl | rfl
    · have hmem : m ∈ L.sent y ++ [buf] := by rwa [← hsent]
      rcases List.mem_append.mp hmem with hmem | hmem
      · exact h.messages y m hmem
      · rwa [List.mem_singleton.mp hmem]
    · exact h.messages x.other m (by rwa [← hother])
  · show ((L.set x t).port x).posted.map _ =
      (Function.update L.sent x (L.sent x ++ [buf]) x).map _
    rw [hx, hsent, hposted, List.map_append, h.posted x, List.map_append]
    rfl
  · show ((L.set x t).port x).wrote = _
    rw [hx, hwrote]
    exact h.stream x
  · show _ = ((L.set x t).port x).taken ++ _
    rw [hx, htaken]
    exact hin

theorem Carries.transmit (h : Carries ks L) {x : Side} {i n : ℕ}
    (ht : Netport.step (accepting ks) (L.port x) (.transmit i n) = some t) :
    Carries ks { L.set x t with
      wire := Function.update L.wire x (L.wire x ++ t.wrote.drop (L.port x).wrote.length) } := by
  have hin := h.stream x.other
  rw [Side.other_other] at hin
  obtain ⟨hx, hy⟩ := L.set_port x t
  obtain ⟨bytes, -, -, hwrote, hposted, htaken⟩ := transmit_seen ht
  have hdrop : t.wrote.drop (L.port x).wrote.length = bytes := by rw [hwrote, List.drop_left]
  refine h.step rfl (ht.trans (congrArg some hx.symm)) hy h.messages rfl ?_ ?_ ?_
  · show ((L.set x t).port x).posted.map _ = _
    rw [hx, hposted]
    exact h.posted x
  · show ((L.set x t).port x).wrote = _ ++ Function.update L.wire x _ x
    rw [hx, hdrop, Function.update_self, hwrote, h.stream x, List.append_assoc]
  · show _ = ((L.set x t).port x).taken ++ Function.update L.wire x _ x.other
    rw [hx, htaken, Function.update_of_ne x.other_ne]
    exact hin

theorem Carries.recvDone (h : Carries ks L) {x : Side} {i : ℕ} {bytes : List UInt8}
    (hwire : bytes <+: L.wire x.other)
    (ht : Netport.step (accepting ks) (L.port x) (.recvDone i bytes) = some t) :
    Carries ks { L.set x t with
      wire := Function.update L.wire x.other ((L.wire x.other).drop bytes.length) } := by
  have hin := h.stream x.other
  rw [Side.other_other] at hin
  obtain ⟨hx, hy⟩ := L.set_port x t
  obtain ⟨hwrote, hposted⟩ := recvDone_seen ht
  refine h.step rfl (ht.trans (congrArg some hx.symm)) hy h.messages rfl ?_ ?_ ?_
  · show ((L.set x t).port x).posted.map _ = _
    rw [hx, hposted]
    exact h.posted x
  · show ((L.set x t).port x).wrote = _ ++ Function.update L.wire x.other _ x
    rw [hx, hwrote, Function.update_of_ne x.other_ne.symm]
    exact h.stream x
  · show _ = ((L.set x t).port x).taken ++ Function.update L.wire x.other _ x.other
    obtain ⟨rest, hrest⟩ := hwire
    rw [hx, recvDone_taken ht, Function.update_self, ← hrest, List.drop_left, hin, ← hrest,
      List.append_assoc]

theorem carries_step (h : Carries ks L) {p : Side × Action} (hs : linkStep ks L p = some L') :
    Carries ks L' := by
  obtain ⟨x, a⟩ := p
  cases a with
  | send buf =>
    simp only [linkStep] at hs
    split at hs
    next hbuf =>
      obtain ⟨t, ht, rfl⟩ := Option.map_eq_some_iff.mp hs
      exact h.send hbuf ht
    next => cases hs
  | transmit i n =>
    obtain ⟨t, ht, rfl⟩ := Option.map_eq_some_iff.mp hs
    exact h.transmit ht
  | recvDone i bytes =>
    simp only [linkStep] at hs
    split at hs
    next hwire =>
      obtain ⟨t, ht, rfl⟩ := Option.map_eq_some_iff.mp hs
      exact h.recvDone hwire ht
    next => cases hs
  | work => exact h.silent (.inl rfl) hs
  | other => exact h.silent (.inr (.inl rfl)) hs
  | sendDone i => exact h.silent (.inr (.inr ⟨i, rfl⟩)) hs
  | clear => cases hs
  | recvFail i err => cases hs
  | sendFail i err => cases hs

/-! ## Progress -/

/-- What a netport can still do with the commands posted to it and the calls that wait. -/
def portRank (s : Port) : ℕ :=
  3 * (s.posted.length - s.sent.length) + 2 * s.sends.length +
    (s.queue.map StrandCall.weight).sum

def sideRank (ks : ℕ → UInt8) (L : Link) (x : Side) : ℕ :=
  portRank (L.port x) + ((L.spelled ks x).length - (L.port x).wrote.length) +
    3 * ((L.spelled ks x.other).length - (L.port x).taken.length)

def linkRank (ks : ℕ → UInt8) (L : Link) : ℕ := sideRank ks L .left + sideRank ks L .right

theorem linkRank_eq (ks : ℕ → UInt8) (L : Link) (x : Side) :
    linkRank ks L = sideRank ks L x + sideRank ks L x.other := by
  cases x
  · rfl
  · exact Nat.add_comm _ _

theorem portRank_push (s : Port) (call : StrandCall) :
    portRank { s with queue := s.queue ++ [call] } = portRank s + call.weight := by
  unfold portRank
  simp only [List.map_append, List.sum_append, List.map_cons, List.sum_cons, List.map_nil,
    List.sum_nil, Nat.add_zero]
  exact (Nat.add_assoc _ _ _).symm

theorem work_rank (h : Flow s) (hopen : s.isOpen = true) (hcalm : s.endings = []) (ht : Flow t)
    (hs : Netport.step (accepting ks) s .work = some t) : portRank t < portRank s := by
  obtain ⟨call, rest, hq, rfl⟩ := step_work_iff.mp hs
  obtain ⟨hst, hkept⟩ := h.exec (accepting ks) hopen hq (endings_head hcalm hq)
  obtain ⟨calls, hqueue, hweight⟩ := exec_queue (accepting ks) { s with queue := rest } call
  have hle := ht.sending.sentPrefix.length_le
  rw [hkept.posted] at hle
  unfold portRank
  rw [hqueue, hq, hkept.posted]
  simp only [List.map_append, List.sum_append, List.map_cons, List.sum_cons]
  cases hst with
  | quiet _ hsends _ hsent =>
    rw [hsends, hsent]
    omega
  | started ci _ hidle hsends _ hsent =>
    rw [hsent, List.length_append, List.length_singleton] at hle
    rw [hsends, hsent, hidle]
    simp only [List.length_append, List.length_singleton, List.length_nil]
    omega
  | finished _ hidle hsends _ hsent =>
    rw [hsends, hsent, hidle]
    omega

theorem transmit_rank {i n : ℕ} (hs : Netport.step (accepting ks) s (.transmit i n) = some t) :
    portRank t = portRank s := by
  obtain ⟨r, -, -, -, -, rfl⟩ := step_transmit_iff.mp hs
  unfold portRank
  rw [log_sent _ rfl]
  simp [Port.log, Port.sent]

theorem sendDone_rank (hcb : s.sockSendCb = true) {i : ℕ}
    (hs : Netport.step (accepting ks) s (.sendDone i) = some t) : portRank t < portRank s := by
  obtain ⟨r, hr, -, rfl⟩ := step_sendDone_iff.mp hs
  obtain ⟨hi, -⟩ := List.getElem?_eq_some_iff.mp hr
  have hlen : (s.sends.eraseIdx i).length + 1 = s.sends.length := by
    rw [List.length_eraseIdx_of_lt hi]
    omega
  have hlower : portRank { s with sends := s.sends.eraseIdx i } + 2 = portRank s := by
    unfold portRank
    show 3 * (s.posted.length - s.sent.length) + 2 * (s.sends.eraseIdx i).length +
      (s.queue.map StrandCall.weight).sum + 2 = _
    omega
  rw [if_pos hcb, post_free rfl]
  refine (portRank_push { s with sends := s.sends.eraseIdx i } _).trans_lt ?_
  simp only [StrandCall.weight]
  omega

theorem recvDone_rank {i : ℕ} {bytes : List UInt8}
    (hs : Netport.step (accepting ks) s (.recvDone i bytes) = some t) :
    portRank t ≤ portRank s + 2 := by
  obtain ⟨r, -, -, rfl⟩ := step_recvDone_iff.mp hs
  obtain ⟨-, hsent⟩ := received_unsent s i r bytes
  have hreceived : portRank (s.received i r bytes) = portRank s := by
    unfold portRank
    rw [hsent]
    rfl
  split
  · rw [post_free rfl, ← hreceived]
    exact (portRank_push (s.received i r bytes) _).le
  · omega

theorem linkAdvance_step {p : Side × Action} (hs : linkAdvance ks L p = some L') :
    linkStep ks L p = some L' := by
  obtain ⟨x, a⟩ := p
  cases a <;> first | exact hs | cases hs

/-- A step of the link is a step of one netport, with bytes put on a wire or taken off it. -/
theorem linkAdvance_cases {x : Side} {a : Action} (hs : linkAdvance ks L (x, a) = some L') :
    ∃ t wire, Netport.step (accepting ks) (L.port x) a = some t ∧
      L' = { L.set x t with wire := wire } := by
  cases a with
  | recvDone i bytes =>
    simp only [linkAdvance, linkStep] at hs
    split at hs
    · obtain ⟨t, ht, rfl⟩ := Option.map_eq_some_iff.mp hs
      exact ⟨t, _, ht, rfl⟩
    · cases hs
  | transmit i n =>
    obtain ⟨t, ht, rfl⟩ := Option.map_eq_some_iff.mp hs
    exact ⟨t, _, ht, rfl⟩
  | work =>
    obtain ⟨t, ht, rfl⟩ := Option.map_eq_some_iff.mp hs
    exact ⟨t, _, ht, rfl⟩
  | sendDone i =>
    obtain ⟨t, ht, rfl⟩ := Option.map_eq_some_iff.mp hs
    exact ⟨t, _, ht, rfl⟩
  | _ => cases hs

theorem linkAdvance_sent {p : Side × Action} (hs : linkAdvance ks L p = some L') :
    L'.sent = L.sent := by
  obtain ⟨t, wire, -, rfl⟩ := linkAdvance_cases hs
  rfl

theorem linkAdvance_port {x : Side} {a : Action} (hs : linkAdvance ks L (x, a) = some L') :
    Netport.step (accepting ks) (L.port x) a = some (L'.port x) ∧
      L'.port x.other = L.port x.other := by
  obtain ⟨t, wire, ht, rfl⟩ := linkAdvance_cases hs
  obtain ⟨hx, hy⟩ := L.set_port x t
  exact ⟨ht.trans (congrArg some hx.symm), hy⟩

theorem linkAdvance_rank (h : Carries ks L) {p : Side × Action}
    (hs : linkAdvance ks L p = some L') : linkRank ks L' < linkRank ks L := by
  obtain ⟨x, a⟩ := p
  have h' := carries_step h (linkAdvance_step hs)
  have hsent := linkAdvance_sent hs
  obtain ⟨hstep, hport⟩ := linkAdvance_port hs
  obtain ⟨hopen, hcalm⟩ := h.live x
  have hspelled : ∀ y, L'.spelled ks y = L.spelled ks y := fun y => by
    rw [Link.spelled, hsent]
    rfl
  have hwrote := (h'.wrote x).length_le
  have htaken := (h'.taken x.other).length_le
  rw [hspelled, Side.other_other] at htaken
  rw [hspelled] at hwrote
  have hside : sideRank ks L' x < sideRank ks L x := by
    unfold sideRank
    rw [hspelled, hspelled]
    cases a with
    | work =>
      have hrank := work_rank (h.flow x) hopen hcalm (h'.flow x) hstep
      obtain ⟨-, hw, ht⟩ := silent_step (h.flow x) hopen hcalm (.inl rfl) hstep
      rw [hw, ht]
      omega
    | sendDone i =>
      have hrank := sendDone_rank (h.flow x).callback hstep
      obtain ⟨-, hw, ht⟩ := silent_step (h.flow x) hopen hcalm (.inr (.inr ⟨i, rfl⟩)) hstep
      rw [hw, ht]
      omega
    | transmit i n =>
      have hrank := transmit_rank hstep
      obtain ⟨bytes, hlen, hn, hw, -, ht⟩ := transmit_seen hstep
      rw [hw, List.length_append] at hwrote ⊢
      rw [ht, hrank]
      omega
    | recvDone i bytes =>
      have hrank := recvDone_rank hstep
      obtain ⟨hw, -⟩ := recvDone_seen hstep
      have hpos : 0 < bytes.length := by
        obtain ⟨r, hr, hlen, -⟩ := step_recvDone_iff.mp hstep
        have := (h.parsing x).asks r (List.mem_of_getElem? hr)
        omega
      rw [recvDone_taken hstep, List.length_append] at htaken ⊢
      rw [hw]
      omega
    | _ => cases hs
  have hother : sideRank ks L' x.other = sideRank ks L x.other := by
    unfold sideRank
    rw [hspelled, hspelled, hport]
  rw [linkRank_eq ks L x, linkRank_eq ks L' x, hother]
  exact Nat.add_lt_add_right hside _

/-! ## Where nothing is left to do -/

section
variable (hstuck : ∀ p, linkAdvance ks L p = none)
include hstuck

theorem stuck_queue (x : Side) : (L.port x).queue = [] := by
  cases hq : (L.port x).queue with
  | nil => rfl
  | cons call rest =>
    have hwork : step (accepting ks) (L.port x) .work = some _ :=
      step_work_iff.mpr ⟨call, rest, hq, rfl⟩
    have hsome : linkAdvance ks L (x, .work) = some (L.set x _) :=
      Option.map_eq_some_iff.mpr ⟨_, hwork, rfl⟩
    rw [hstuck] at hsome
    cases hsome

theorem stuck_sends (h : Carries ks L) (x : Side) : (L.port x).sends = [] := by
  cases hsends : (L.port x).sends with
  | nil => rfl
  | cons r rest =>
    have hr : (L.port x).sends[0]? = some r := by rw [hsends]; rfl
    by_cases hleft : r.left = []
    · have hdone : step (accepting ks) (L.port x) (.sendDone 0) = some _ :=
        step_sendDone_iff.mpr ⟨r, hr, hleft, rfl⟩
      have hsome : linkAdvance ks L (x, .sendDone 0) = some (L.set x _) :=
        Option.map_eq_some_iff.mpr ⟨_, hdone, rfl⟩
      rw [hstuck] at hsome
      cases hsome
    · have hone : 1 ≤ r.left.length := List.length_pos_iff.mpr hleft
      have hwrite : step (accepting ks) (L.port x) (.transmit 0 1) = some _ :=
        step_transmit_iff.mpr ⟨r, hr, Nat.one_ne_zero, hone, (h.live x).1, rfl⟩
      have hsome : linkAdvance ks L (x, .transmit 0 1) = some _ :=
        Option.map_eq_some_iff.mpr ⟨_, hwrite, rfl⟩
      rw [hstuck] at hsome
      cases hsome

/-- A netport that reads waits for more than there is on the wire. -/
theorem stuck_recvs (h : Carries ks L) (x : Side) :
    ∀ r ∈ (L.port x).recvs, ((L.wire x.other).length : ℤ) < r.len := by
  intro r hr
  by_contra hle
  have hpos := (h.parsing x).asks r hr
  obtain ⟨i, hi⟩ := List.mem_iff_getElem?.mp hr
  have hlen : (((L.wire x.other).take r.len.toNat).length : ℤ) = r.len := by
    rw [List.length_take]
    omega
  have hdone : step (accepting ks) (L.port x)
      (.recvDone i ((L.wire x.other).take r.len.toNat)) = some _ :=
    step_recvDone_iff.mpr ⟨r, hi, hlen, rfl⟩
  have hnone := hstuck (x, .recvDone i ((L.wire x.other).take r.len.toNat))
  simp only [linkAdvance, linkStep] at hnone
  rw [if_pos (List.take_prefix _ _), hdone] at hnone
  cases hnone

theorem stuck_wrote (h : Carries ks L) (x : Side) : (L.port x).wrote = L.spelled ks x := by
  have hqueue := stuck_queue hstuck x
  have hsends := stuck_sends hstuck h x
  have hflow := h.flow x
  have hactive := hflow.active
  rw [hsends, Port.onSends, hqueue] at hactive
  have hcur : (L.port x).curSend = none := by
    cases hcur : (L.port x).curSend with
    | none => rfl
    | some ci =>
      rw [hcur] at hactive
      cases hactive
  have horder := hflow.sending.order (h.live x).1
  rw [hflow.sending.idle hcur, Port.waiting, hqueue] at horder
  have hbytes := hflow.bytes
  rw [hsends, List.flatMap_nil, List.append_nil] at hbytes
  rw [Link.spelled, List.flatMap_def, ← h.posted x, ← List.flatMap_def, hbytes, horder]
  simp

theorem stuck_delivered (h : Carries ks L) (x : Side) :
    (L.port x.other).delivered = (L.sent x).map expected := by
  have hquiet : Quiet (L.spelled ks x) (L.port x.other) := by
    refine ⟨stuck_queue hstuck x.other, fun r hr => ?_⟩
    have hread := stuck_recvs hstuck h x.other r hr
    rw [Side.other_other] at hread
    rw [← stuck_wrote hstuck h x, h.stream x, List.length_append]
    push_cast
    omega
  have hparse := ((h.parsing x.other).quiet (h.taken x) hquiet).1
  rw [hparse, parse_spelled h]

end

end

/-! ## Runs -/

theorem carries_start (ks : ℕ → UInt8) (load : Side → ℕ) : Carries ks (Link.start load) where
  flow x := flow_bound (load x)
  parsing x := parsing_bound True ks (load x)
  messages _ _ hbuf := absurd hbuf List.not_mem_nil
  posted _ := rfl
  stream _ := rfl

/-- Of the messages that one side sends the other side is at all times given the first ones, in
order and unchanged; the netports run out of steps, and then it has been given all of them. -/
theorem messages_delivered (ks : ℕ → UInt8) (load : Side → ℕ) (L : Link)
    (h : Reachable (linkStep ks) (Link.start load) L) (x : Side) :
    (L.port x.other).delivered <+: (L.sent x).map expected ∧
    ∀ as L', run (linkAdvance ks) L as = some L' → as.length ≤ linkRank ks L ∧
      ((∀ p, linkAdvance ks L' p = none) →
        (L'.port x.other).delivered = (L.sent x).map expected) := by
  have hinv : Carries ks L :=
    h.invariant (carries_start ks load) fun _ _ _ hi _ hs => carries_step hi hs
  refine ⟨?_, fun as L' hrun => ⟨?_, fun hstuck => ?_⟩⟩
  · have := (hinv.parsing x.other).firstFrames (hinv.taken x)
    rwa [parse_spelled hinv] at this
  · have hlen := run_length_le (P := Carries ks)
      (fun _ _ _ hi hs => ⟨carries_step hi (linkAdvance_step hs), linkAdvance_rank hi hs⟩) hinv hrun
    exact (Nat.le_add_right _ _).trans hlen
  · obtain ⟨hcarries, hsent⟩ := (Reach.of_run hrun).invariant
      (P := fun M => Carries ks M ∧ M.sent = L.sent) ⟨hinv, rfl⟩ fun M p M' hM _ hs =>
        ⟨carries_step hM.1 (linkAdvance_step hs), (linkAdvance_sent hs).trans hM.2⟩
    rw [stuck_delivered hstuck hcarries x, hsent]

/-- A header that announces one byte. -/
def shortHeader : List UInt8 := List.replicate 80 0 ++ [1, 0, 0, 0, 0x78, 0x56, 0x34, 0x12]

/-- A message of one byte is written in two parts and read in two. -/
def shortMessageSent : List (Side × Action) :=
  [(.left, .send (shortHeader ++ [7])), (.left, .work), (.left, .transmit 0 50),
    (.left, .transmit 0 39), (.right, .recvDone 0 shortHeader), (.right, .work),
    (.left, .sendDone 0), (.right, .recvDone 0 [2]), (.right, .work)]

theorem messages_delivered_short :
    ∃ L, run (linkStep fun _ => 5) (Link.start fun _ => 0) shortMessageSent = some L ∧
      (L.port .right).delivered = [⟨shortHeader, some [7], 1⟩] ∧
      (L.port .right).delivered <+: (L.sent .left).map expected := by
  have hshown : (run (linkStep fun _ => 5) (Link.start fun _ => 0) shortMessageSent).map
      (fun L => (L.port .right).delivered) = some [⟨shortHeader, some [7], 1⟩] := by decide +kernel
  obtain ⟨L, hrun, hdelivered⟩ := Option.map_eq_some_iff.mp hshown
  exact ⟨L, hrun, hdelivered, (messages_delivered _ _ L (Reach.of_run hrun) .left).1⟩

end DevFramework.Netport
