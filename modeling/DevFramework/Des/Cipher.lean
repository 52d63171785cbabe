import DevFramework.Des.Tables
import DevFramework.Foundations.BlockCipher
import Mathlib.Data.Int.Basic

/-! # The DES (`CDES`, bas/des.cpp)

A `bool` array is a list of bits and a `char` array a list of bytes; the functions that write
through a pointer return what they write. A shift of a signed `char` keeps its sign, and the bit
that is taken from it is one of the eight. `RotateL` copies within one array with `memcpy`; it is
modelled as the move that it is meant to be.
-/
namespace DevFramework.Des
open BlockCipher
set_option autoImplicit false
set_option maxHeartbeats 250000

/-! ## Bits and bytes -/

/-- `7 - i&7`, where the subtraction comes first. -/
def bitIndex (i : ℕ) : ℕ := ((7 - (i : ℤ)) % 8).toNat

/-- `ByteToBit`. -/
def byteToBit (inp : List UInt8) (bits : ℕ) : List Bool :=
  (List.range bits).map fun i => (inp.getD (i / 8) 0).toNat.testBit (bitIndex i)

/-- `Out[i>>3] |= In[i]<<(7 - i&7)`. -/
def putBit (inp : List Bool) (out : List UInt8) (i : ℕ) : List UInt8 :=
  out.modify (i / 8) fun c => c ||| UInt8.ofNat ((inp.getD i false).toNat <<< bitIndex i)

/-- `BitToByte`. -/
def bitToByte (inp : List Bool) (bits : ℕ) : List UInt8 :=
  (List.range bits).foldl (putBit inp) (List.replicate (bits / 8) 0)

/-- `RotateL`. -/
def rotateL (bits : List Bool) (loop : ℕ) : List Bool := bits.drop loop ++ bits.take loop

/-- `Xor`. -/
def xorBits (inA inB : List Bool) : List Bool := List.zipWith Bool.xor inA inB

/-- `Transform`. -/
def transform (table : List ℕ) (bits : List Bool) : List Bool := select table false bits

/-! ## The round function -/

/-- One turn of the loop of `S_func`: four bits for the six at `6 * i`. -/
def sFuncBox (inp : List Bool) (i : ℕ) : List Bool :=
  let bit n := (inp.getD (6 * i + n) false).toNat
  let j := (bit 0 <<< 1) + bit 5
  let k := (bit 1 <<< 3) + (bit 2 <<< 2) + (bit 3 <<< 1) + bit 4
  (List.range 4).map fun l => (((sBox.getD i []).getD j []).getD k 0).testBit (3 - l)

def sFunc (inp : List Bool) : List Bool := (List.range 8).flatMap (sFuncBox inp)

def fFunc (ki inp : List Bool) : List Bool :=
  transform pTable (sFunc (xorBits (transform eTable inp) ki))

/-! ## The keys -/

abbrev SubKey := List (List Bool)

/-- One turn of the loop of `SetSubKey`: both halves of the key turn. -/
def turnKey (k : List Bool) (loop : ℕ) : List Bool :=
  rotateL (k.take 28) loop ++ rotateL ((k.drop 28).take 28) loop ++ k.drop 56

def subKeys : List ℕ → List Bool → SubKey
  | [], _ => []
  | loop :: loops, k =>
    let k := turnKey k loop
    transform pc2Table k :: subKeys loops k

/-- `SetSubKey`; the last eight bits of `K` stay as they are and are not read any more. -/
def setSubKey (key : List UInt8) : SubKey :=
  let k := byteToBit key 64
  let k := transform pc1Table k ++ k.drop 56
  subKeys loopTable k

/-! ## The cipher -/

def ENCRYPT : Bool := false
def DECRYPT : Bool := true
def ECB : Bool := false
def CBC : Bool := true

/-- `DES`: the two loops differ in the order of the keys only. -/
def des (subKey : SubKey) (type : Bool) (inp : List UInt8) : List UInt8 :=
  let m := transform ipTable (byteToBit inp 64)
  let keys := if type = ENCRYPT then subKey else subKey.reverse
  let halves := rounds xorBits fFunc keys (m.take 32, m.drop 32)
  let m := rotateL (halves.1 ++ halves.2) 32
  bitToByte (transform iprTable m) 64

/-- One, two or three passes over a block, by the number of keys. -/
def desKeys (nKey : ℕ) (subKey : List SubKey) (bType : Bool) (inp : List UInt8) : List UInt8 :=
  let key i := subKey.getD i []
  if nKey = 1 then des (key 0) bType inp
  else if nKey = 2 then
    let out := des (key 0) bType inp
    let out := des (key 1) (!bType) out
    des (key 0) bType out
  else
    let out := des (key (if bType then 2 else 0)) bType inp
    let out := des (key 1) (!bType) out
    des (key (if bType then 0 else 2)) bType out

/-! ## The modes -/

/-- `In[j] ^ cvec[j]` on a block. -/
def xorBytes (a b : List UInt8) : List UInt8 := List.zipWith (· ^^^ ·) a b

/-- The loops in CBC mode; `cvec` is the vector. -/
def cbcLoop (cipher : List UInt8 → List UInt8) (bType : Bool) :
    List UInt8 → List (List UInt8) → List (List UInt8)
  | _, [] => []
  | cvec, inp :: rest =>
    let cvin := if bType = ENCRYPT then xorBytes inp cvec else inp
    let out := cipher cvin
    if bType = ENCRYPT then out :: cbcLoop cipher bType out rest
    else xorBytes out cvec :: cbcLoop cipher bType cvin rest

/-- `RunDes`, with pointers that are not null; `datalen` is the length of `In`, and `none` is
`false`. The key is read as far as `keylen` says. -/
def runDes (bType bMode : Bool) (inp key : List UInt8) (keylen : UInt8) : Option (List UInt8) :=
  let datalen := inp.length
  if datalen = 0 ∨ keylen < 8 then none
  else if datalen % 8 ≠ 0 then none
  else
    let nKey := if keylen.toNat / 8 > 3 then 3 else keylen.toNat / 8
    let subKey := (List.range nKey).map fun i => setSubKey ((key.drop (8 * i)).take 8)
    let cipher := desKeys nKey subKey bType
    let blocks := chunks 8 (datalen / 8) inp
    if bMode = ECB then some (blocks.map cipher).flatten
    else some (cbcLoop cipher bType (List.replicate 8 0) blocks).flatten

end DevFramework.Des
