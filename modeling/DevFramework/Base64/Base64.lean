import DevFramework.Foundations.Bytes
import DevFramework.Platform
import Mathlib.Data.Fin.VecNotation

/-! # base64 (utility/base64/base64.cpp)

The arrays of both functions are not initialized; what they hold at first is a parameter. The
encoder fills `char_array_3` and the decoder `char_array_4`; the other array is written as a whole
before it is read.
-/
namespace DevFramework.Base64
set_option autoImplicit false
set_option maxHeartbeats 250000

/-- `A` to `Z`, `a` to `z`, `0` to `9`, `+` and `/`. -/
def base64Chars : List UInt8 :=
  (List.range' 65 26 ++ List.range' 97 26 ++ List.range' 48 10 ++ [43, 47]).map UInt8.ofNat

/-- `'='`. -/
def pad : UInt8 := 61

/-- `isalnum` in the C locale. -/
def isalnum (c : UInt8) : Bool :=
  (48 ≤ c && c ≤ 57) || (65 ≤ c && c ≤ 90) || (97 ≤ c && c ≤ 122)

def isBase64 (c : UInt8) : Bool := isalnum c || c == 43 || c == 47

/-- `char_array[j] = 0` from the `i`-th on. -/
def clearFrom {n : ℕ} (i : Fin n) (a : Fin n → UInt8) : Fin n → UInt8 :=
  fun j => if i ≤ j then 0 else a j

/-! ## `base64_encode` -/

/-- `char_array_4` from `char_array_3`. -/
def split3 (a : Fin 3 → UInt8) : Fin 4 → UInt8 :=
  ![(a 0 &&& 0xfc) >>> 2,
    ((a 0 &&& 0x03) <<< 4) + ((a 1 &&& 0xf0) >>> 4),
    ((a 1 &&& 0x0f) <<< 2) + ((a 2 &&& 0xc0) >>> 6),
    a 2 &&& 0x3f]

/-- `base64_chars[v]`. -/
def charAt (v : UInt8) : UInt8 := base64Chars.getD v.toNat 0

structure Encoder where
  i : Fin 3
  charArray3 : Fin 3 → UInt8
  ret : List UInt8

namespace Encoder

/-- One turn of `while (in_len--)`. -/
def turn (s : Encoder) (b : UInt8) : Encoder :=
  let a := Function.update s.charArray3 s.i b
  if h : s.i.val + 1 < 3 then { s with i := ⟨s.i.val + 1, h⟩, charArray3 := a }
  else { i := 0, charArray3 := a, ret := s.ret ++ (List.ofFn (split3 a)).map charAt }

/-- From `if (i)` on. -/
def finish (s : Encoder) : List UInt8 :=
  if s.i = 0 then s.ret
  else
    let a := clearFrom s.i s.charArray3
    s.ret ++ ((List.ofFn (split3 a)).take (s.i.val + 1)).map charAt ++
      List.replicate (3 - s.i.val) pad

end Encoder

/-- `base64_encode(unsigned char const*, unsigned int)`. -/
def base64Encode (junk : Fin 3 → UInt8) (bytes_to_encode : List UInt8) (in_len : ℕ) :
    List UInt8 :=
  if in_len = 0 then []
  else ((bytes_to_encode.take in_len).foldl Encoder.turn ⟨0, junk, []⟩).finish

/-- `base64_encode(const char*, size_t)`; `none` is a null pointer. -/
def base64EncodeData (junk : Fin 3 → UInt8) (data : Option (List UInt8)) (len : ℕ) : List UInt8 :=
  match data with
  | none => []
  | some bytes => if len = 0 then [] else base64Encode junk bytes (len % 2 ^ 32)

/-! ## `base64_decode` -/

/-- `(unsigned char)base64_chars.find(c)`. The bits of `npos` are all set, and the lowest eight
make 255. -/
def find (c : UInt8) : UInt8 :=
  if c ∈ base64Chars then UInt8.ofNat (base64Chars.idxOf c) else 255

/-- `char_array_3` from `char_array_4`. -/
def join4 (a : Fin 4 → UInt8) : Fin 3 → UInt8 :=
  ![(a 0 <<< 2) + ((a 1 &&& 0x30) >>> 4),
    ((a 1 &&& 0xf) <<< 4) + ((a 2 &&& 0x3c) >>> 2),
    ((a 2 &&& 0x3) <<< 6) + a 3]

structure Decoder where
  i : Fin 4
  charArray4 : Fin 4 → UInt8
  ret : List UInt8

namespace Decoder

/-- The body of the loop. -/
def turn (s : Decoder) (c : UInt8) : Decoder :=
  let a := Function.update s.charArray4 s.i c
  if h : s.i.val + 1 < 4 then { s with i := ⟨s.i.val + 1, h⟩, charArray4 := a }
  else
    let a := fun j => find (a j)
    { i := 0, charArray4 := a, ret := s.ret ++ List.ofFn (join4 a) }

/-- The loop, over what is left of the string; `operator[]` at its end gives a NUL. -/
def loop (s : Decoder) (in_len : ℤ) : List UInt8 → Decoder
  | [] => s
  | c :: rest =>
    if in_len ≠ 0 ∧ c ≠ pad ∧ isBase64 c then (s.turn c).loop (in_len - 1) rest else s

/-- From `if (i)` on. -/
def finish (s : Decoder) : List UInt8 :=
  if s.i = 0 then s.ret
  else
    let a := clearFrom s.i s.charArray4
    s.ret ++ (List.ofFn (join4 fun j => find (a j))).take (s.i.val - 1)

end Decoder

def base64Decode (junk : Fin 4 → UInt8) (encoded_string : List UInt8) : List UInt8 :=
  if encoded_string = [] then []
  else
    let in_len := Bytes.signed32 (encoded_string.length % 2 ^ 32)
    (Decoder.loop ⟨0, junk, []⟩ in_len encoded_string).finish

end DevFramework.Base64
