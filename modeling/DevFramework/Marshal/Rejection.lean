import DevFramework.Marshal.Stream

/-! # What `unmarshal` does to a stream that is not blocks

Every stream is blocks up to a rest that starts no block, and the loop reaches that rest. There
the bound check decides: most rests give the empty vector, a misread one is copied from beyond the
string, refused by the allocator, or decoded with the terminating NUL as its last byte.
-/
namespace DevFramework.Marshal
open Bytes Framing
set_option autoImplicit false
set_option maxHeartbeats 250000

/-! ## Streams are blocks and a rest -/

/-- The length field in front of a stream. -/
def lengthField (bs : List UInt8) : ℤ := int32 (bs.take 4)

/-- A stream starts with a block when its length field is there, is no negative number, and counts
no more bytes than follow it. -/
def StartsBlock (bs : List UInt8) : Prop :=
  4 ≤ bs.length ∧ 0 ≤ lengthField bs ∧ 4 + lengthField bs ≤ bs.length

instance (bs : List UInt8) : Decidable (StartsBlock bs) := by unfold StartsBlock; infer_instance

def blockFormat : Format UInt8 (List UInt8) Empty where
  front bs :=
    if StartsBlock bs then
      .frame ((bs.drop 4).take (lengthField bs).toNat) (4 + (lengthField bs).toNat)
    else .short
  pos := by
    intro bs x n h
    split at h <;> cases h
    omega
  le := by
    intro bs x n h
    split at h
    · rename_i hs
      cases h
      have := hs.1
      have := hs.2.2
      omega
    · cases h

theorem blockFormat_frame {bs : List UInt8} (h : StartsBlock bs) : blockFormat.front bs =
    .frame ((bs.drop 4).take (lengthField bs).toNat) (4 + (lengthField bs).toNat) :=
  if_pos h

theorem blockFormat_short {bs : List UInt8} (h : ¬ StartsBlock bs) :
    blockFormat.front bs = .short :=
  if_neg h

theorem lengthField_bounds {bs : List UInt8} (h : 4 ≤ bs.length) :
    -2147483648 ≤ lengthField bs ∧ lengthField bs < 2147483648 :=
  int32_bounds (by rw [List.length_take]; omega)

theorem blockFormat_front_block {b : List UInt8} (h : b.length < 2147483648) (rest : List UInt8) :
    blockFormat.front (block b ++ rest) = .frame b (block b).length := by
  have hfield : lengthField (block b ++ rest) = b.length := front_int32 h rest
  have hlen : (block b ++ rest).length = 4 + b.length + rest.length := by simp
  have hstarts : StartsBlock (block b ++ rest) := by
    refine ⟨by omega, by omega, by omega⟩
  have hbody : ((block b ++ rest).drop 4).take b.length = b := by
    rw [block, List.append_assoc, List.drop_left' (leBytes_length 4 _), List.take_left]
  rw [blockFormat_frame hstarts, hfield, Int.toNat_natCast, hbody, block_length]

theorem blockFormat_spells {bs b : List UInt8} {n : ℕ} (h : blockFormat.front bs = .frame b n) :
    bs.take n = block b ∧ b.length < 2147483648 := by
  by_cases hs : StartsBlock bs
  · obtain ⟨h4, h0, hle⟩ := id hs
    have hlt := lengthField_bounds h4
    rw [blockFormat_frame hs] at h
    cases h
    have hlen : ((bs.drop 4).take (lengthField bs).toNat).length = (lengthField bs).toNat := by
      rw [List.length_take, List.length_drop]
      omega
    refine ⟨?_, by omega⟩
    rw [block, hlen, lengthField, leBytes_int32 (by rw [List.length_take]; omega) h0,
      List.take_add]
  · rw [blockFormat_short hs] at h
    cases h

/-- Every stream is blocks and a rest that starts no block. -/
theorem exists_blocks (src : List UInt8) :
    ∃ (bodies : List (List UInt8)) (rest : List UInt8), src = bodies.flatMap block ++ rest ∧
      (∀ b ∈ bodies, b.length < 2147483648) ∧ ¬ StartsBlock rest := by
  refine ⟨(blockFormat.parse src).frames, (blockFormat.parse src).rest,
    (Format.parse_spells block (fun h => (blockFormat_spells h).1) src).symm, ?_, ?_⟩
  · exact Format.parse_frames_all (fun h => (blockFormat_spells h).2) src
  · intro hs
    exact Format.parse_rest src _ _ (blockFormat_frame hs)

theorem blockFormat_parse {bodies : List (List UInt8)} (h : ∀ b ∈ bodies, b.length < 2147483648)
    {rest : List UInt8} (hrest : ¬ StartsBlock rest) :
    (blockFormat.parse (bodies.flatMap block ++ rest)).rest = rest := by
  have hall : ∀ b ∈ bodies, ∀ rest,
      blockFormat.front (block b ++ rest) = .frame (id b) (block b).length :=
    fun b hb rest => blockFormat_front_block (h b hb) rest
  rw [Format.parse_encoded block id bodies hall, Format.parse_short (blockFormat_short hrest)]
  rfl

theorem rest_eq_nil {bodies bodies' : List (List UInt8)} {rest : List UInt8}
    (h : ∀ b ∈ bodies, b.length < 2147483648) (hrest : ¬ StartsBlock rest)
    (h' : Blocks (bodies.flatMap block ++ rest) bodies') : rest = [] := by
  have hnil : ¬ StartsBlock [] := fun hs => absurd hs.1 (by simp)
  rw [← blockFormat_parse h hrest, h'.1, ← List.append_nil (bodies'.flatMap block),
    blockFormat_parse h'.2 hnil]

/-! ## The loop at a rest -/

/-- A rest whose length field passes the bound check although it is negative, or although fewer
bytes follow it than it says. The value -4 is let through without harm. -/
def Misread (rest : List UInt8) : Prop :=
  4 ≤ rest.length ∧
    (lengthField rest < 0 ∧ lengthField rest ≠ -4 ∨
      lengthField rest ≤ rest.length ∧ rest.length < 4 + lengthField rest)

instance (rest : List UInt8) : Decidable (Misread rest) := by unfold Misread; infer_instance

theorem Misread.not_startsBlock {rest : List UInt8} (h : Misread rest) : ¬ StartsBlock rest := by
  intro hs
  obtain ⟨-, h0, hle⟩ := hs
  obtain ⟨-, hneg | hover⟩ := h <;> omega

section Loop
variable {t : Target} {T : RecordType} {rest : List UInt8} {fuel : ℕ} {objs : List (Obj T)}

theorem unmarshalLoop_short (h0 : rest ≠ []) (h : rest.length < 4) :
    unmarshalLoop t T (fuel + 1) rest objs = .ok [] := by
  cases rest with
  | nil => exact absurd rfl h0
  | cons c cs =>
    simp only [unmarshalLoop]
    rw [if_pos (by omega)]

theorem unmarshalLoop_turn (h : 4 ≤ rest.length) :
    unmarshalLoop t T (fuel + 1) rest objs =
      if lengthField rest > rest.length then .ok []
      else (do
        let (ok, ci) ← (Obj.zero T).unmarshal t
          (← newString t rest (toSize t (lengthField rest + 4)))
        if !ok then return []
        unmarshalLoop t T fuel (rest.drop (toSize t (lengthField rest + 4))) (objs ++ [ci])) := by
  have hpeek : peek rest 0 4 = .ok (rest.take 4) := peek_ok (by omega)
  cases rest with
  | nil => simp at h
  | cons c cs =>
    simp only [unmarshalLoop, lengthField]
    rw [if_neg (by omega), hpeek]
    rfl

/-- A length field larger than what remains ends the call with the empty vector. -/
theorem unmarshalLoop_over (h : 4 ≤ rest.length) (hover : lengthField rest > rest.length) :
    unmarshalLoop t T (fuel + 1) rest objs = .ok [] := by
  rw [unmarshalLoop_turn h, if_pos hover]

/-- So does -4: the block is then the empty string. -/
theorem unmarshalLoop_minus_four (h : 4 ≤ rest.length) (hn : lengthField rest = -4) :
    unmarshalLoop t T (fuel + 1) rest objs = .ok [] := by
  have hsize : toSize t (lengthField rest + 4) = 0 := by
    rw [hn]
    simp [toSize]
  have hnew : newString t rest 0 = .ok [] := by
    rw [newString, if_neg (by omega), peek_ok (by omega)]
    simp
  rw [unmarshalLoop_turn h, if_neg (by omega), hsize, hnew]
  rfl

theorem Obj.unmarshal_tiny {bs : List UInt8} (h0 : bs ≠ []) (h : bs.length < 3) :
    (Obj.zero T).unmarshal t bs = .error .outOfBounds := by
  have hpeek : peek bs 0 4 = .error .outOfBounds := if_neg (by omega)
  simp only [Obj.unmarshal, List.isEmpty_eq_false_iff.mpr h0, Bool.false_eq_true, if_false, hpeek]
  rfl

/-- The three bytes of a block of length -1 and the terminating NUL are read as a large length. -/
theorem Obj.unmarshal_three :
    (Obj.zero T).unmarshal t [255, 255, 255] = .error .outOfBounds := by
  have hpos := T.size_pos
  have hpeek : peek [255, 255, 255] 0 4 = .ok [255, 255, 255, 0] := rfl
  have hfield : int32 [255, 255, 255, 0] = 16777215 := rfl
  have htmp : (if (16777215 : ℤ) ≠ T.size then
      (if (16777215 : ℤ) < T.size then (16777215 : ℤ) else T.size) else 16777215) =
      (min 16777215 T.size : ℕ) := by
    split <;> [split; skip] <;> omega
  have hsize : toSize t ((min 16777215 T.size : ℕ) : ℤ) = min 16777215 T.size := by
    rw [toSize_of_nonneg t (by omega) (by omega), Int.toNat_natCast]
  have hbody : peek [255, 255, 255] 4 (min 16777215 T.size) = .error .outOfBounds :=
    if_neg (by simp only [List.length_cons, List.length_nil]; omega)
  simp only [Obj.unmarshal, List.isEmpty_cons, Bool.false_eq_true, if_false, hpeek, bind,
    Except.bind, hfield, htmp, hsize, hbody]

theorem bind_eq_ok {ε α β : Type} {x : Except ε α} {f : α → Except ε β} {b : β}
    (h : (x >>= f) = .ok b) : ∃ a, x = .ok a ∧ f a = .ok b := by
  cases x with
  | error e => cases h
  | ok a => exact ⟨a, rfl, h⟩

/-- A block that is not the empty string is never refused: it is decoded, or it faults. -/
theorem Obj.unmarshal_cases {bs : List UInt8} (h0 : bs ≠ []) :
    (∃ e, (Obj.zero T).unmarshal t bs = .error e) ∨
      ∃ o, (Obj.zero T).unmarshal t bs = .ok (true, o) := by
  cases h : (Obj.zero T).unmarshal t bs with
  | error e => exact .inl ⟨e, rfl⟩
  | ok r =>
    refine .inr ⟨r.2, ?_⟩
    simp only [Obj.unmarshal, List.isEmpty_eq_false_iff.mpr h0, Bool.false_eq_true, if_false] at h
    obtain ⟨field, -, h⟩ := bind_eq_ok h
    obtain ⟨body, -, h⟩ := bind_eq_ok h
    obtain ⟨o, -, h⟩ := bind_eq_ok h
    cases h
    rfl

/-- A negative length that leaves a block of one to three bytes. -/
theorem unmarshalLoop_negative (h : 4 ≤ rest.length) (h3 : -3 ≤ lengthField rest)
    (hneg : lengthField rest < 0) :
    unmarshalLoop t T (fuel + 1) rest objs = .error .outOfBounds := by
  have hmax := maxSize_lt t
  have hsize : toSize t (lengthField rest + 4) = (lengthField rest + 4).toNat :=
    toSize_of_nonneg t (by omega) (by omega)
  have hnew : newString t rest (lengthField rest + 4).toNat =
      .ok (rest.take (lengthField rest + 4).toNat) := by
    rw [newString, if_neg (by omega), peek_ok (by omega), List.drop_zero]
  have hun : (Obj.zero T).unmarshal t (rest.take (lengthField rest + 4).toNat) =
      .error .outOfBounds := by
    have hlen : (rest.take (lengthField rest + 4).toNat).length = (lengthField rest + 4).toNat := by
      rw [List.length_take]
      omega
    by_cases h1 : lengthField rest = -1
    · have hbytes : rest.take 4 = [255, 255, 255, 255] := by
        have hspell := leBytes_leNat (rest.take 4)
        have hnat : leNat (rest.take 4) = 4294967295 := by
          have hlt := leNat_lt (rest.take 4)
          rw [List.length_take, min_eq_left h] at hlt
          unfold lengthField int32 signed32 at h1
          split at h1 <;> omega
        rw [hnat, List.length_take, min_eq_left h] at hspell
        exact hspell.symm
      have hthree : rest.take 3 = [255, 255, 255] := by
        have := congrArg (List.take 3) hbytes
        rwa [List.take_take] at this
      rw [h1, show (-1 + 4 : ℤ).toNat = 3 from rfl, hthree]
      exact Obj.unmarshal_three
    · refine Obj.unmarshal_tiny (fun hnil => ?_) (by omega)
      rw [hnil, List.length_nil] at hlen
      omega
  rw [unmarshalLoop_turn h, if_neg (by omega), hsize, hnew]
  simp only [bind, Except.bind, hun]

/-- A length below -4 makes a block longer than any string. -/
theorem unmarshalLoop_huge (h : 4 ≤ rest.length) (hneg : lengthField rest < -4) :
    unmarshalLoop t T (fuel + 1) rest objs = .error .lengthError := by
  have hlt := maxSize_lt_toSize t (z := lengthField rest + 4)
  have hbound := lengthField_bounds h
  have hnew : newString t rest (toSize t (lengthField rest + 4)) = .error .lengthError :=
    if_pos (hlt (by omega) (by omega))
  rw [unmarshalLoop_turn h, if_neg (by omega), hnew]
  rfl

/-- A length that counts up to four bytes too many: the call faults or returns an object more. -/
theorem unmarshalLoop_overlong (h : 4 ≤ rest.length) (hle : lengthField rest ≤ rest.length)
    (hover : rest.length < 4 + lengthField rest) :
    unmarshalLoop t T (fuel + 1) rest objs ≠ .ok [] := by
  have hbound := lengthField_bounds h
  have hsize : toSize t (lengthField rest + 4) = (lengthField rest + 4).toNat :=
    toSize_of_nonneg t (by omega) (by omega)
  have hdrop : rest.drop (lengthField rest + 4).toNat = [] := by
    rw [List.drop_eq_nil_iff]
    omega
  rw [unmarshalLoop_turn h, if_neg (by omega), hsize, hdrop]
  cases hnew : newString t rest (lengthField rest + 4).toNat with
  | error e => simp [bind, Except.bind]
  | ok bs =>
    have hne : bs ≠ [] := by
      unfold newString peek at hnew
      split at hnew
      · cases hnew
      · split at hnew <;> cases hnew
        simp only [List.drop_zero, ne_eq, List.take_eq_nil_iff, List.append_eq_nil_iff]
        rintro (h0 | ⟨-, h0⟩)
        · omega
        · cases h0
    rcases Obj.unmarshal_cases (t := t) (T := T) hne with ⟨e, he⟩ | ⟨o, ho⟩
    · simp [bind, Except.bind, he]
    · cases fuel <;> simp [bind, Except.bind, ho, unmarshalLoop]

/-- At a misread rest the call does not return the empty vector. -/
theorem unmarshalLoop_misread (h : Misread rest) :
    unmarshalLoop t T (fuel + 1) rest objs ≠ .ok [] := by
  obtain ⟨h4, ⟨hneg, hne⟩ | ⟨hle, hover⟩⟩ := h
  · rcases lt_or_ge (lengthField rest) (-4) with hlow | hhigh
    · rw [unmarshalLoop_huge h4 hlow]
      simp
    · rw [unmarshalLoop_negative h4 (by omega) hneg]
      simp
  · exact unmarshalLoop_overlong h4 hle hover

/-- At any other rest that is no block it does. -/
theorem unmarshalLoop_rejects (h0 : rest ≠ []) (hs : ¬ StartsBlock rest) (h : ¬ Misread rest) :
    unmarshalLoop t T (fuel + 1) rest objs = .ok [] := by
  rcases lt_or_ge rest.length 4 with hlt | h4
  · exact unmarshalLoop_short h0 hlt
  · simp only [StartsBlock, Misread, h4, true_and, not_and, not_or, not_le, not_not] at hs h
    rcases lt_or_ge (lengthField rest) 0 with hneg | hpos
    · exact unmarshalLoop_minus_four h4 (h.1 hneg)
    · refine unmarshalLoop_over h4 ?_
      by_contra hle
      have := hs hpos
      have := h.2 (by omega)
      omega

end Loop

/-! ## The contract -/

/-- What `unmarshal` is to do with a stream: decode it when it is blocks, and otherwise return the
empty vector; in no case read outside the string. -/
def MeetsContract (t : Target) (T : RecordType) (src : List UInt8) : Prop :=
  (∀ bodies, Blocks src bodies → unmarshal t T src = .ok (bodies.map (decode T))) ∧
  ((¬ ∃ bodies, Blocks src bodies) → unmarshal t T src = .ok [])

/-- Streams of blocks are always decoded. -/
theorem unmarshal_of_blocks {t : Target} (T : RecordType) {src : List UInt8}
    {bodies : List (List UInt8)} (hfits : src.length ≤ maxSize t) (h : Blocks src bodies) :
    unmarshal t T src = .ok (bodies.map (decode T)) := by
  obtain ⟨rfl, hlen⟩ := h
  obtain ⟨fuel, -, h⟩ := unmarshal_blocks t T bodies [] hlen (by simpa using hfits)
  rw [List.append_nil] at h
  rw [h]
  cases fuel <;> rfl

/-- The contract is met exactly on the streams along which no misread rest is found. -/
theorem meetsContract_iff (t : Target) (T : RecordType) (src : StdString t) :
    MeetsContract t T src.chars ↔
      ∀ (bodies : List (List UInt8)) (rest : List UInt8),
        src.chars = bodies.flatMap block ++ rest → (∀ b ∈ bodies, b.length < 2147483648) →
          ¬ Misread rest := by
  obtain ⟨src, hfits⟩ := src
  constructor
  · rintro ⟨-, hreject⟩ bodies rest rfl hlen hmis
    obtain ⟨fuel, hfuel, h⟩ := unmarshal_blocks t T bodies rest hlen hfits
    obtain ⟨fuel, rfl⟩ : ∃ k, fuel = k + 1 := ⟨fuel - 1, by have := hmis.1; omega⟩
    refine unmarshalLoop_misread hmis (h.symm.trans (hreject ?_))
    rintro ⟨bodies', h'⟩
    have hnil := rest_eq_nil hlen hmis.not_startsBlock h'
    rw [hnil] at hmis
    exact absurd hmis.1 (by simp)
  · intro hno
    refine ⟨fun bodies h => unmarshal_of_blocks T hfits h, fun hnb => ?_⟩
    obtain ⟨bodies, rest, rfl, hlen, hs⟩ := exists_blocks src
    have hne : rest ≠ [] := by
      rintro rfl
      exact hnb ⟨bodies, List.append_nil _, hlen⟩
    obtain ⟨fuel, hfuel, h⟩ := unmarshal_blocks t T bodies rest hlen hfits
    have hpos := List.length_pos_iff.mpr hne
    obtain ⟨fuel, rfl⟩ : ∃ k, fuel = k + 1 := ⟨fuel - 1, by omega⟩
    rw [h]
    exact unmarshalLoop_rejects hne hs (hno bodies rest rfl hlen)

/-- A record of three bytes, cut off after two: the NUL behind the string becomes its third. -/
theorem truncated_block_is_decoded :
    (¬ ∃ bodies, Blocks [3, 0, 0, 0, 1, 2] bodies) ∧
    unmarshal .x86 ⟨3, by decide, by decide⟩ [3, 0, 0, 0, 1, 2] = .ok [⟨[1, 2, 0], rfl⟩] ∧
    ¬ MeetsContract .x86 ⟨3, by decide, by decide⟩ [3, 0, 0, 0, 1, 2] := by
  have hblocks : ¬ ∃ bodies, Blocks [3, 0, 0, 0, 1, 2] bodies := by
    rintro ⟨bodies, h⟩
    have hnil := rest_eq_nil (List.forall_mem_nil _) (by decide) h
    cases hnil
  refine ⟨hblocks, rfl, fun h => ?_⟩
  have := h.2 hblocks
  cases this

end DevFramework.Marshal
