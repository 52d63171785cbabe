import DevFramework.Platform
import DevFramework.Foundations.Bytes

/-! # Plain records (utility/parser/serializer/plain_marshal.hpp)

A record is a standard-layout object derived from `plain_marshal_t`; the code only ever looks at
its bytes, so an object is its bytes and its type is their number. A stream is a sequence of
blocks: the four bytes of an `int` length, then that many bytes.

Every read is checked against the string it goes to. A `std::string` of `n` characters may be read
up to its terminating NUL; a read or a `memcpy` that goes further is `Fault.outOfBounds`, and a
string longer than `max_size()` is `Fault.lengthError`.
-/
namespace DevFramework.Marshal
open Bytes
set_option autoImplicit false
set_option maxHeartbeats 250000

inductive Fault where
  | outOfBounds
  | lengthError
  | spin
  deriving DecidableEq, Repr

/-- `std::string::max_size()`: no object is larger than half the address space. -/
def maxSize (t : Target) : ℕ := 2 ^ (t.sizeBits - 1) - 1

/-- A `std::string`. -/
structure StdString (t : Target) where
  chars : List UInt8
  fits : chars.length ≤ maxSize t

/-- A standard-layout type `T : plain_marshal_t<T>`, by its size. No object is empty, and the
compiler keeps every object below 2 GiB. -/
structure RecordType where
  size : ℕ
  size_pos : 0 < size
  size_int : size < 2147483648

/-- An object of type `T`. -/
structure Obj (T : RecordType) where
  bytes : List UInt8
  length_eq : bytes.length = T.size
  deriving DecidableEq

theorem Obj.ext {T : RecordType} {x y : Obj T} (h : x.bytes = y.bytes) : x = y := by
  cases x
  cases y
  simpa using h

/-- `plain_marshal_t()`: `memset(this, 0, sizeof(T))`. -/
def Obj.zero (T : RecordType) : Obj T := ⟨List.replicate T.size 0, by simp⟩

/-- Read `n` bytes at distance `i` from `data.c_str()`. -/
def peek (data : List UInt8) (i n : ℕ) : Except Fault (List UInt8) :=
  if i + n ≤ data.length + 1 then .ok (((data ++ [0]).drop i).take n) else .error .outOfBounds

/-- `std::string(head, n)`, where the characters from `head` to the end of its string are
`rest`. -/
def newString (t : Target) (rest : List UInt8) (n : ℕ) : Except Fault (List UInt8) :=
  if maxSize t < n then .error .lengthError else peek rest 0 n

/-- `memcpy(this, bytes, bytes.size())`. -/
def Obj.overwrite {T : RecordType} (o : Obj T) (bytes : List UInt8) : Except Fault (Obj T) :=
  if h : bytes.length ≤ T.size then
    .ok ⟨bytes ++ o.bytes.drop bytes.length, by simp [o.length_eq]; omega⟩
  else .error .outOfBounds

/-- `plain_marshal_t::unmarshal`: whether it succeeded, and the object after it. -/
def Obj.unmarshal (t : Target) {T : RecordType} (o : Obj T) (data : List UInt8) :
    Except Fault (Bool × Obj T) :=
  if data.isEmpty then .ok (false, o)
  else do
    let bodyLen := int32 (← peek data 0 4)
    let realLen : ℤ := T.size
    let tmpLen :=
      if bodyLen ≠ realLen then (if bodyLen < realLen then bodyLen else realLen) else bodyLen
    let bytes ← peek data 4 (toSize t tmpLen)
    let o ← o.overwrite bytes
    return (true, o)

/-- `plain_marshal_t::marshal`. -/
def Obj.marshal {T : RecordType} (o : Obj T) : List UInt8 := leBytes 4 T.size ++ o.bytes

/-- `io_opt_t`: a store that can be read, and written with the number of bytes written returned
as an `int`. -/
structure IoOpt (σ : Type*) where
  read : σ → List UInt8
  write : σ → List UInt8 → BitVec 32 × σ

/-- The loop of `unmarshal<T>(io)`. `rest` is what lies between `head` and `tail`. -/
def unmarshalLoop (t : Target) (T : RecordType) :
    ℕ → List UInt8 → List (Obj T) → Except Fault (List (Obj T))
  | _, [], objList => .ok objList
  | 0, _ :: _, _ => .error .spin
  | fuel + 1, c :: cs, objList =>
    let rest := c :: cs
    let remain : ℤ := rest.length
    if remain < 4 then .ok []
    else do
      let bodyLen := int32 (← peek rest 0 4)
      if bodyLen > remain then return []
      let blockLen := toSize t (bodyLen + 4)
      let (ok, ci) ← (Obj.zero T).unmarshal t (← newString t rest blockLen)
      if !ok then return []
      unmarshalLoop t T fuel (rest.drop blockLen) (objList ++ [ci])

/-- `unmarshal<T>(io)` of what `io->read()` returned. A block takes at least one byte, so the loop
has at most one turn for every byte. -/
def unmarshal (t : Target) (T : RecordType) (src : List UInt8) : Except Fault (List (Obj T)) :=
  if src.isEmpty then .ok [] else unmarshalLoop t T src.length src []

/-- The loop of `marshal(obj, io)`; `none` when an item marshals to nothing. -/
def marshalStream {T : RecordType} : List (Obj T) → Option (List UInt8)
  | [] => some []
  | item :: items =>
    if item.marshal.isEmpty then none else (marshalStream items).map (item.marshal ++ ·)

/-- `marshal(obj, io)`. -/
def marshal {σ : Type*} (t : Target) {T : RecordType} (obj : List (Obj T)) (io : IoOpt σ)
    (st : σ) : Bool × σ :=
  if obj.isEmpty then (false, st)
  else match marshalStream obj with
  | none => (false, st)
  | some stream =>
    let (bt, st') := io.write st stream
    (toSize t bt.toInt = stream.length, st')

end DevFramework.Marshal
