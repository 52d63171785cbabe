import DevFramework.Foundations.Buffers
import DevFramework.Foundations.CString
import DevFramework.Foundations.Transition

/-! # The route of a message (`jf_msg_router_t`, protocol/protocol.hpp)

The structures are packed: a `jf_msg_header_t` is 88 bytes, of which the first 64 are `src` and
`dst`. `strcpy` writes as many bytes as its string has, over the next field where the string is
longer than its own; a write past the header has no result.
-/
namespace DevFramework.Protocol
open Buffers CString Transition
set_option autoImplicit false
set_option maxHeartbeats 250000

/-- `sizeof(src)` and `sizeof(dst)`. -/
def fieldSize : ℕ := 32

/-- `sizeof(jf_msg_header_t)`: the route and six `unsigned int`. -/
def headerSize : ℕ := 2 * fieldSize + 6 * 4

structure Header where
  bytes : List UInt8
  size : bytes.length = headerSize
  deriving DecidableEq, Repr

namespace Header

def put (h : Header) (off : ℕ) (vs : List UInt8) : Option Header :=
  match hw : write h.bytes off vs with
  | some bytes => some ⟨bytes, (write_length hw).trans h.size⟩
  | none => none

def src (h : Header) : List UInt8 := read h.bytes 0 fieldSize

def dst (h : Header) : List UInt8 := read h.bytes fieldSize fieldSize

/-- `cmdid` and the fields behind it. -/
def fields (h : Header) : List UInt8 := read h.bytes (2 * fieldSize) (6 * 4)

/-- `strcpy(this->src, src)`. -/
def setSrc (h : Header) (s : Str) : Option Header := h.put 0 (s.chars ++ [0])

/-- `strcpy(this->dst, dst)`. -/
def setDst (h : Header) (s : Str) : Option Header := h.put fieldSize (s.chars ++ [0])

def exchange (h : Header) : Option Header :=
  let tmp_src := padTo fieldSize (cstr h.src)
  (h.put 0 (List.replicate fieldSize 0)).bind fun h =>
  (h.put 0 (padTo fieldSize (cstr h.dst))).bind fun h =>
  (h.put fieldSize (List.replicate fieldSize 0)).bind fun h =>
  h.put fieldSize (padTo fieldSize (cstr tmp_src))

end Header

inductive Call where
  | setSrc (s : Str)
  | setDst (s : Str)
  | exchange
  deriving DecidableEq, Repr

def Header.call (h : Header) : Call → Option Header
  | .setSrc s => h.setSrc s
  | .setDst s => h.setDst s
  | .exchange => h.exchange

/-! ## A pair of strings -/

abbrev Pair := List UInt8 × List UInt8

/-- What a field of 32 bytes may hold after an assignment: the string, and if that is too long what
it held before or as much of the string as there is room for. -/
def Assigned (s old new : List UInt8) : Prop :=
  if s.length < fieldSize then new = s
  else new = old ∨ new = s.take (fieldSize - 1) ∨ new = s.take fieldSize

def PairStep (p q : Pair) : Call → Prop
  | .setSrc s => Assigned s.chars p.1 q.1 ∧ q.2 = p.2
  | .setDst s => q.1 = p.1 ∧ Assigned s.chars p.2 q.2
  | .exchange => q = p.swap

def PairRun (p q : Pair) : List Call → Prop
  | [] => q = p
  | c :: cs => ∃ r, PairStep p r c ∧ PairRun r q cs

namespace Header

/-- The two fields read as strings of at most 32 bytes. -/
def pair (h : Header) : Pair := (cstr h.src, cstr h.dst)

/-- The calls do to the route what they do to a pair of strings, and nothing to the fields behind
it. -/
def RoutesAs (h : Header) (cs : List Call) : Prop :=
  ∃ h', run call h cs = some h' ∧ PairRun h.pair h'.pair cs ∧ h'.fields = h.fields

end Header

/-- The string has room in its field. -/
def Call.Fits : Call → Prop
  | .setSrc s => s.chars.length < fieldSize
  | .setDst s => s.chars.length < fieldSize
  | .exchange => True

instance (c : Call) : Decidable c.Fits := by cases c <;> unfold Call.Fits <;> infer_instance

/-! ## One write -/

namespace Header
variable {h h' : Header} {off : ℕ} {vs : List UInt8}

theorem put_eq (hp : h.put off vs = some h') : write h.bytes off vs = some h'.bytes := by
  unfold put at hp
  split at hp
  · rename_i hw
    rw [hw, ← Option.some.inj hp]
  · cases hp

theorem exists_put (h : Header) (off : ℕ) (vs : List UInt8) (hfits : off + vs.length ≤ headerSize) :
    ∃ h', h.put off vs = some h' := by
  have hw : write h.bytes off vs = some _ := if_pos (by rw [h.size]; exact hfits)
  unfold put
  split
  · exact ⟨_, rfl⟩
  · rename_i hnone
    rw [hw] at hnone
    cases hnone

/-- A write into `src` leaves everything else. -/
theorem put_src (hp : h.put 0 vs = some h') (hlen : vs.length ≤ fieldSize) :
    h'.dst = h.dst ∧ h'.fields = h.fields := by
  have hw := put_eq hp
  constructor
  · exact read_after hw (by omega)
  · exact read_after hw (by omega)

/-- A write into `dst` leaves everything else. -/
theorem put_dst (hp : h.put fieldSize vs = some h') (hlen : vs.length ≤ fieldSize) :
    h'.src = h.src ∧ h'.fields = h.fields := by
  have hw := put_eq hp
  constructor
  · exact read_before hw (by omega)
  · exact read_after hw (by omega)

theorem src_length (h : Header) : h.src.length = fieldSize :=
  read_length (by rw [h.size]; decide)

theorem dst_length (h : Header) : h.dst.length = fieldSize :=
  read_length (by rw [h.size]; decide)

/-- A string that has room reads back as it is, whatever bytes are left behind it. -/
theorem cstr_put {s : Str} (hp : h.put off (s.chars ++ [0]) = some h')
    (hlen : s.chars.length < fieldSize) : cstr (read h'.bytes off fieldSize) = s.chars := by
  have hread := read_written (put_eq hp) (Nat.zero_le _) fieldSize
  have hroom : (s.chars ++ [0]).length ≤ fieldSize := by
    rw [List.length_append, List.length_singleton]
    omega
  rw [Nat.add_zero, List.drop_zero, List.take_append, List.take_of_length_le hroom,
    List.append_assoc, List.singleton_append] at hread
  rw [hread]
  exact cstr_terminated s.noNul _

theorem setSrc_pair {s : Str} (hs : h.setSrc s = some h') (hlen : s.chars.length < fieldSize) :
    h'.pair = (s.chars, h.pair.2) ∧ h'.fields = h.fields := by
  obtain ⟨hdst, hfields⟩ := put_src hs (by
    rw [List.length_append, List.length_singleton]
    omega)
  refine ⟨?_, hfields⟩
  rw [pair, pair, hdst]
  exact congrArg (·, cstr h.dst) (cstr_put hs hlen)

theorem setDst_pair {s : Str} (hs : h.setDst s = some h') (hlen : s.chars.length < fieldSize) :
    h'.pair = (h.pair.1, s.chars) ∧ h'.fields = h.fields := by
  obtain ⟨hsrc, hfields⟩ := put_dst hs (by
    rw [List.length_append, List.length_singleton]
    omega)
  refine ⟨?_, hfields⟩
  rw [pair, pair, hsrc]
  exact congrArg (cstr h.src, ·) (cstr_put hs hlen)

/-- All of `src` is written. -/
theorem fill_src (h : Header) (vs : List UInt8) (hlen : vs.length = fieldSize) :
    ∃ h', h.put 0 vs = some h' ∧ h'.src = vs ∧ h'.dst = h.dst ∧ h'.fields = h.fields := by
  obtain ⟨h', hp⟩ := h.exists_put 0 vs (by rw [hlen]; decide)
  have hread := read_same (put_eq hp)
  rw [hlen] at hread
  exact ⟨h', hp, hread, put_src hp (by omega)⟩

/-- All of `dst` is written. -/
theorem fill_dst (h : Header) (vs : List UInt8) (hlen : vs.length = fieldSize) :
    ∃ h', h.put fieldSize vs = some h' ∧ h'.dst = vs ∧ h'.src = h.src ∧ h'.fields = h.fields := by
  obtain ⟨h', hp⟩ := h.exists_put fieldSize vs (by rw [hlen]; decide)
  have hread := read_same (put_eq hp)
  rw [hlen] at hread
  exact ⟨h', hp, hread, put_dst hp (by omega)⟩

/-- `exchange` swaps the strings, terminated in their fields or not. -/
theorem exchange_pair (h : Header) :
    ∃ h', h.exchange = some h' ∧ h'.pair = h.pair.swap ∧ h'.fields = h.fields := by
  obtain ⟨h₁, hp₁, -, hdst₁, hfields₁⟩ :=
    h.fill_src (List.replicate fieldSize 0) List.length_replicate
  obtain ⟨h₂, hp₂, hsrc₂, -, hfields₂⟩ := h₁.fill_src _ (padTo_length fieldSize (cstr h₁.dst))
  obtain ⟨h₃, hp₃, -, hsrc₃, hfields₃⟩ :=
    h₂.fill_dst (List.replicate fieldSize 0) List.length_replicate
  obtain ⟨h₄, hp₄, hdst₄, hsrc₄, hfields₄⟩ :=
    h₃.fill_dst _ (padTo_length fieldSize (cstr (padTo fieldSize (cstr h.src))))
  refine ⟨h₄, ?_, ?_, ?_⟩
  · simp only [exchange, hp₁, hp₂, hp₃, hp₄, Option.bind_some]
  · have hsrc : cstr h₄.src = cstr h.dst := by
      rw [hsrc₄, hsrc₃, hsrc₂, hdst₁, cstr_padTo_cstr (Nat.le_of_eq h.dst_length)]
    have hdst : cstr h₄.dst = cstr h.src := by
      have htmp := cstr_padTo_cstr (Nat.le_of_eq h.src_length)
      rw [hdst₄, htmp, htmp]
    rw [pair, hsrc, hdst]
    rfl
  · rw [hfields₄, hfields₃, hfields₂, hfields₁]

/-! ## Runs -/

theorem assigned_short {s old : List UInt8} (hlen : s.length < fieldSize) : Assigned s old s := by
  rw [Assigned, if_pos hlen]

/-- A call whose string fits goes as on a pair of strings. -/
theorem call_fits {c : Call} (h : Header) (hfit : c.Fits) :
    ∃ h', h.call c = some h' ∧ PairStep h.pair h'.pair c ∧ h'.fields = h.fields := by
  cases c with
  | setSrc s =>
    have hlen : s.chars.length < fieldSize := hfit
    obtain ⟨h', hs⟩ := h.exists_put 0 (s.chars ++ [0]) (by
      rw [List.length_append, List.length_singleton, headerSize]
      omega)
    obtain ⟨hpair, hfields⟩ := setSrc_pair hs hlen
    refine ⟨h', hs, ?_, hfields⟩
    rw [hpair]
    exact ⟨assigned_short hlen, rfl⟩
  | setDst s =>
    have hlen : s.chars.length < fieldSize := hfit
    obtain ⟨h', hs⟩ := h.exists_put fieldSize (s.chars ++ [0]) (by
      rw [List.length_append, List.length_singleton, headerSize]
      omega)
    obtain ⟨hpair, hfields⟩ := setDst_pair hs hlen
    refine ⟨h', hs, ?_, hfields⟩
    rw [hpair]
    exact ⟨rfl, assigned_short hlen⟩
  | exchange => exact h.exchange_pair

theorem run_fits (h : Header) {cs : List Call} (hfit : ∀ c ∈ cs, c.Fits) : h.RoutesAs cs := by
  induction cs generalizing h with
  | nil => exact ⟨h, rfl, rfl, rfl⟩
  | cons c cs ih =>
    obtain ⟨h₁, hcall, hstep, hfields₁⟩ := h.call_fits (hfit c List.mem_cons_self)
    obtain ⟨h', hrun, hpairs, hfields⟩ := ih h₁ fun d hd => hfit d (List.mem_cons_of_mem c hd)
    refine ⟨h', ?_, ⟨h₁.pair, hstep, hpairs⟩, hfields.trans hfields₁⟩
    rw [run, hcall, Option.bind_some, hrun]

/-! ## Strings that are too long -/

/-- A header all of whose bytes are the same. -/
def filled (b : UInt8) : Header := ⟨List.replicate headerSize b, List.length_replicate⟩

theorem read_filled (b : UInt8) {off n : ℕ} (hfits : off + n ≤ headerSize) :
    read (filled b).bytes off n = List.replicate n b := by
  rw [Buffers.read, filled, List.drop_replicate, List.take_replicate]
  congr 1
  omega

/-- What a string of 32 bytes or more puts into the first byte behind its field. -/
theorem exists_spilt {s : Str} (hlen : fieldSize ≤ s.chars.length) :
    ∃ b rest, (s.chars ++ [0]).drop fieldSize = b :: rest ∧
      (b = 0 ↔ s.chars.length = fieldSize) := by
  by_cases heq : s.chars.length = fieldSize
  · exact ⟨0, [], by rw [← heq, List.drop_left], by simp [heq]⟩
  · have hlt : fieldSize < s.chars.length := by omega
    refine ⟨s.chars[fieldSize], s.chars.drop (fieldSize + 1) ++ [0], ?_, ?_⟩
    · rw [List.drop_append_of_le_length (by omega), List.drop_eq_getElem_cons hlt,
        List.cons_append]
    · refine iff_of_false (fun hzero => ?_) heq
      exact s.noNul (hzero ▸ List.getElem_mem hlt)

/-- Such a string is seen behind its field. -/
theorem read_spilt {h h' : Header} {s : Str} {off : ℕ} (n : ℕ)
    (hlen : fieldSize ≤ s.chars.length) (hp : h.put off (s.chars ++ [0]) = some h') :
    ∃ c rest, read h'.bytes (off + fieldSize) (n + 1) = c :: rest ∧
      (c = 0 ↔ s.chars.length = fieldSize) := by
  obtain ⟨c, tail, hdrop, hzero⟩ := exists_spilt hlen
  have hin : fieldSize ≤ (s.chars ++ [0]).length := by
    rw [List.length_append]
    omega
  have hread := read_written (put_eq hp) hin (n + 1)
  rw [hdrop, List.cons_append, List.take_succ_cons] at hread
  exact ⟨c, _, hread, hzero⟩

/-- What the bytes of a header may all be to show what `s` spills into it. -/
def contrast (s : Str) : UInt8 := if s.chars.length = fieldSize then 1 else 0

theorem contrast_spec {s : Str} {c : UInt8} (hc : c = 0 ↔ s.chars.length = fieldSize) :
    c = 0 ↔ contrast s ≠ 0 := by
  rw [hc, contrast]
  split <;> simp_all

theorem not_routes_long {c : Call} (hfit : ¬ c.Fits) : ∃ h : Header, ¬ h.RoutesAs [c] := by
  cases c with
  | setSrc s =>
    have hlen : fieldSize ≤ s.chars.length := Nat.le_of_not_lt hfit
    refine ⟨filled (contrast s), ?_⟩
    rintro ⟨h', hrun, ⟨q, ⟨-, hsame⟩, rfl⟩, -⟩
    obtain ⟨h'', hp, heq⟩ := Option.bind_eq_some_iff.mp hrun
    obtain rfl : h'' = h' := Option.some.inj heq
    obtain ⟨c, rest, hread, hc⟩ := read_spilt 31 hlen hp
    have hnew : h''.dst = c :: rest := hread
    have hold : (filled (contrast s)).dst = contrast s :: List.replicate 31 (contrast s) :=
      read_filled _ (by decide)
    simp only [pair] at hsame
    rw [hnew, hold] at hsame
    exact cstr_ne (contrast_spec hc) _ _ hsame
  | setDst s =>
    have hlen : fieldSize ≤ s.chars.length := Nat.le_of_not_lt hfit
    refine ⟨filled (contrast s), ?_⟩
    rintro ⟨h', hrun, -, hfields⟩
    obtain ⟨h'', hp, heq⟩ := Option.bind_eq_some_iff.mp hrun
    obtain rfl : h'' = h' := Option.some.inj heq
    obtain ⟨c, rest, hread, hc⟩ := read_spilt 23 hlen hp
    have hnew : h''.fields = c :: rest := hread
    have hold : (filled (contrast s)).fields = contrast s :: List.replicate 23 (contrast s) :=
      read_filled _ (by decide)
    have hspec := contrast_spec hc
    rw [hnew, hold] at hfields
    obtain ⟨rfl, -⟩ := List.cons.inj hfields
    by_cases hzero : contrast s = 0
    · exact hspec.mp hzero hzero
    · exact hzero (hspec.mpr hzero)
  | exchange => exact absurd trivial hfit

end Header

/-- The calls that a program makes, any number of them in any order on any header: the route goes as
a pair of strings and the fields behind it stay, exactly if every string is shorter than 32 bytes.
A longer one goes wrong on some header already when it is the only one. -/
theorem route_pair_iff (made : Call → Prop) :
    (∀ (h : Header) (cs : List Call), (∀ c ∈ cs, made c) → h.RoutesAs cs) ↔
      ∀ c, made c → c.Fits := by
  constructor
  · intro hroutes c hmade
    by_contra hfit
    obtain ⟨h, hwrong⟩ := Header.not_routes_long hfit
    refine hwrong (hroutes h [c] fun d hd => ?_)
    rwa [List.mem_singleton.mp hd]
  · intro hfit h cs hmade
    exact h.run_fits fun c hc => hfit c (hmade c hc)

/-- Short strings on a header full of other bytes. -/
theorem route_pair_short : (Header.filled 1).RoutesAs
    [.setSrc ⟨[97, 98], by decide⟩, .exchange, .setDst ⟨[], by decide⟩] :=
  (route_pair_iff Call.Fits).mpr (fun _ hfit => hfit) _ _ (by decide)

/-- A destination of one letter, and then a source of 40: the destination reads as the last eight
of them. -/
theorem route_spills :
    (run Header.call (Header.filled 0) [.setDst ⟨[98], by decide⟩,
        .setSrc ⟨List.replicate 40 97, by decide⟩]).map Header.pair =
      some (List.replicate 32 97, List.replicate 8 97) ∧
    ¬ (Header.filled 0).RoutesAs [.setDst ⟨[98], by decide⟩,
        .setSrc ⟨List.replicate 40 97, by decide⟩] := by
  have hpair : (run Header.call (Header.filled 0) [.setDst ⟨[98], by decide⟩,
      .setSrc ⟨List.replicate 40 97, by decide⟩]).map Header.pair =
      some (List.replicate 32 97, List.replicate 8 97) := by decide
  refine ⟨hpair, ?_⟩
  rintro ⟨h', hrun, ⟨p, ⟨-, hassigned⟩, q, ⟨-, hsame⟩, rfl⟩, -⟩
  rw [hrun, Option.map_some] at hpair
  have hdst : p.2 = [98] := hassigned
  rw [Option.some.inj hpair, hdst] at hsame
  cases hsame

end DevFramework.Protocol
