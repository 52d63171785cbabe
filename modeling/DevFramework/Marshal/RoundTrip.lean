import DevFramework.Marshal.Stream

/-! # Round trip of records through a store

Writer and reader may be built with different versions of a record: a longer reader finds its
extra bytes zero, a shorter one drops what it does not know.
-/
namespace DevFramework.Marshal
open Bytes
set_option autoImplicit false
set_option maxHeartbeats 250000

theorem Obj.marshal_eq_block {T : RecordType} (x : Obj T) : x.marshal = block x.bytes := by
  rw [Obj.marshal, block, x.length_eq]

theorem marshalStream_eq {T : RecordType} (xs : List (Obj T)) :
    marshalStream xs = some ((xs.map Obj.bytes).flatMap block) := by
  induction xs with
  | nil => rfl
  | cons x xs ih =>
    have hne : (block x.bytes).isEmpty = false := by
      rw [List.isEmpty_eq_false_iff, ne_eq, ← List.length_eq_zero_iff, block_length]
      omega
    simp [marshalStream, Obj.marshal_eq_block, hne, ih]

/-- The write reports the full length, and the store then reads as what was written. -/
def Stores {σ : Type*} (io : IoOpt σ) (st : σ) (stream : List UInt8) : Prop :=
  (io.write st stream).1.toInt = stream.length ∧ io.read (io.write st stream).2 = stream

theorem length_le_of_stores {σ : Type*} {io : IoOpt σ} {st : σ} {stream : List UInt8}
    (h : Stores io st stream) : stream.length < 2147483648 := by
  have hlt : (io.write st stream).1.toInt < 2147483648 := by
    have := BitVec.two_mul_toInt_lt (x := (io.write st stream).1)
    omega
  rw [h.1] at hlt
  omega

theorem marshal_of_stores {σ : Type*} (t : Target) {T : RecordType} {io : IoOpt σ} {st : σ}
    {xs : List (Obj T)} {stream : List UInt8} (hne : xs ≠ []) (hxs : marshalStream xs = some stream)
    (h : Stores io st stream) :
    (marshal t xs io st).1 = true ∧ io.read (marshal t xs io st).2 = stream := by
  have hlt := length_le_of_stores h
  have hempty : xs.isEmpty = false := List.isEmpty_eq_false_iff.mpr hne
  have hbt : toSize t (io.write st stream).1.toInt = stream.length := by
    rw [h.1, toSize_of_nonneg t (by omega) (by omega), Int.toNat_natCast]
  simp only [marshal, hempty, Bool.false_eq_true, if_false, hxs, hbt, decide_true]
  exact ⟨trivial, h.2⟩

theorem unmarshal_stream (t : Target) {T : RecordType} (U : RecordType) (xs : List (Obj T))
    (hfits : ((xs.map Obj.bytes).flatMap block).length ≤ maxSize t) :
    unmarshal t U ((xs.map Obj.bytes).flatMap block) =
      .ok (xs.map fun x => decode U x.bytes) := by
  have hsize : ∀ b ∈ xs.map Obj.bytes, b.length < 2147483648 := by
    intro b hb
    obtain ⟨x, -, rfl⟩ := List.mem_map.mp hb
    rw [x.length_eq]
    exact T.size_int
  obtain ⟨fuel, -, h⟩ := unmarshal_blocks t U (xs.map Obj.bytes) [] hsize (by simpa using hfits)
  rw [List.append_nil] at h
  rw [h, List.map_map]
  cases fuel <;> rfl

theorem decode_self {T : RecordType} (x : Obj T) : decode T x.bytes = x := by
  apply Obj.ext
  simp [decode, ← x.length_eq]

theorem decode_common {T : RecordType} (U : RecordType) (x : Obj T) :
    (decode U x.bytes).bytes.take (min T.size U.size) = x.bytes.take (min T.size U.size) := by
  have hlen : (x.bytes.take U.size).length = min T.size U.size := by
    rw [List.length_take, x.length_eq, min_comm]
  rw [decode, List.take_left' hlen, List.take_eq_take_iff, x.length_eq]
  omega

theorem decode_extra {T : RecordType} (U : RecordType) (x : Obj T) :
    (decode U x.bytes).bytes.drop (min T.size U.size) = List.replicate (U.size - T.size) 0 := by
  have hlen : (x.bytes.take U.size).length = min T.size U.size := by
    rw [List.length_take, x.length_eq, min_comm]
  rw [decode, List.drop_left' hlen, x.length_eq]

/-- What is marshalled through a store that keeps it is unmarshalled record by record, whatever
the version of the reader. -/
theorem unmarshal_marshal {σ : Type*} (t : Target) {T : RecordType} (U : RecordType)
    (xs : List (Obj T)) (io : IoOpt σ) (st : σ) (hne : xs ≠ [])
    (hio : ∀ stream, marshalStream xs = some stream → Stores io st stream) :
    (marshal t xs io st).1 = true ∧
    (∃ ys, unmarshal t U (io.read (marshal t xs io st).2) = .ok ys ∧ ys.length = xs.length ∧
      ∀ (i : ℕ) (x : Obj T) (y : Obj U), xs[i]? = some x → ys[i]? = some y →
        y.bytes.take (min T.size U.size) = x.bytes.take (min T.size U.size) ∧
        ∀ b ∈ y.bytes.drop (min T.size U.size), b = 0) ∧
    unmarshal t T (io.read (marshal t xs io st).2) = .ok xs := by
  have hxs := marshalStream_eq xs
  have hst := hio _ hxs
  have hmax := maxSize_lt t
  have hlen := length_le_of_stores hst
  obtain ⟨htrue, hread⟩ := marshal_of_stores t hne hxs hst
  rw [hread]
  refine ⟨htrue, ⟨_, unmarshal_stream t U xs (by omega), by simp, ?_⟩, ?_⟩
  · intro i x y hx hy
    rw [List.getElem?_map, hx] at hy
    obtain rfl : decode U x.bytes = y := Option.some.inj hy
    refine ⟨decode_common U x, fun b hb => ?_⟩
    rw [decode_extra] at hb
    exact List.eq_of_mem_replicate hb
  · rw [unmarshal_stream t T xs (by omega)]
    simp [decode_self]

/-- A file that holds the last stream written to it. -/
def lastWrite : IoOpt (List UInt8) where
  read st := st
  write _ stream := (BitVec.ofNat 32 stream.length, stream)

theorem unmarshal_marshal_newer_reader :
    unmarshal .x86 ⟨3, by decide, by decide⟩
      (lastWrite.read (marshal .x86 [(⟨[7, 9], rfl⟩ : Obj ⟨2, by decide, by decide⟩)] lastWrite
        []).2) = .ok [⟨[7, 9, 0], rfl⟩] ∧
    unmarshal .x86 ⟨2, by decide, by decide⟩
      (lastWrite.read (marshal .x86 [(⟨[7, 9], rfl⟩ : Obj ⟨2, by decide, by decide⟩)] lastWrite
        []).2) = .ok [⟨[7, 9], rfl⟩] := by
  have h := unmarshal_marshal .x86 ⟨3, by decide, by decide⟩
    [(⟨[7, 9], rfl⟩ : Obj ⟨2, by decide, by decide⟩)] lastWrite [] (by simp) (by
      intro stream hs
      obtain rfl := Option.some.inj hs
      exact ⟨rfl, rfl⟩)
  exact ⟨rfl, h.2.2⟩

end DevFramework.Marshal
