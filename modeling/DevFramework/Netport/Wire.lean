import DevFramework.Foundations.Bytes
import DevFramework.Foundations.Framing

/-! # Messages on the wire (protocol/protocol.hpp, utility/decoder/msg_encpt.cpp)

A message is a `jf_msg_header_t` of 88 packed bytes and a body. The header holds the length of the
body and a magic number; the body is RC4-encrypted with a fixed key set afresh for every message,
so encryption and decryption both XOR the body with the same key stream `ks`.
-/
namespace DevFramework.Netport
open Bytes Framing
set_option autoImplicit false
set_option maxHeartbeats 250000

/-- `sizeof(jf_msg_header_t)`: the route (64 bytes) and six words. -/
def headerLen : ℕ := 88

def magicNum : ℕ := 0x12345678

/-- `header_.body_len`, read as an `int`. -/
def getBodyLen (hdr : List UInt8) : ℤ := int32 ((hdr.drop 80).take 4)

def magic (hdr : List UInt8) : ℕ := leNat ((hdr.drop 84).take 4)

/-- `jf_header_t::clone`: the header, if it carries the magic number. -/
def clone (hdr : List UInt8) : Option (List UInt8) := if magic hdr = magicNum then some hdr else none

/-- `jf_msg_codec`; null for no data. -/
def jfMsgCodec (ks : ℕ → UInt8) (data : List UInt8) : Option (List UInt8) :=
  if data.isEmpty then none else some (data.mapIdx fun i b => b ^^^ ks i)

/-- The error that `i_on_recv_strand` raises for a header without the magic number. -/
def badHeader : ℤ := 7

/-- One call of `recv_cb_`. -/
structure Delivery where
  hdr : List UInt8
  body : Option (List UInt8)
  len : ℤ
  deriving DecidableEq

/-- The delivery of a header and the body bytes that follow it. -/
def deliver (ks : ℕ → UInt8) (hdr body : List UInt8) : Delivery :=
  { hdr := hdr, body := jfMsgCodec ks body, len := body.length }

/-! ## The reference parse -/

/-- The front of a byte stream: a header, an error if its magic is wrong, and the body that the
header announces, if any. -/
def frameFront (ks : ℕ → UInt8) (bs : List UInt8) : Front Delivery ℤ :=
  if bs.length < headerLen then .short
  else if magic (bs.take headerLen) ≠ magicNum then .bad badHeader
  else if bs.length < headerLen + (getBodyLen (bs.take headerLen)).toNat then .short
  else .frame
    (deliver ks (bs.take headerLen)
      ((bs.drop headerLen).take (getBodyLen (bs.take headerLen)).toNat))
    (headerLen + (getBodyLen (bs.take headerLen)).toNat)

def frames (ks : ℕ → UInt8) : Format UInt8 Delivery ℤ where
  front := frameFront ks
  pos := by
    intro bs x n h
    unfold frameFront at h
    split_ifs at h
    cases h
    unfold headerLen
    omega
  le := by
    intro bs x n h
    unfold frameFront at h
    split_ifs at h with _ _ hlen
    cases h
    omega

variable {ks : ℕ → UInt8}

theorem frames_short {bs : List UInt8} (h : bs.length < headerLen) :
    (frames ks).front bs = .short := if_pos h

section Header
variable {hdr : List UInt8} (hlen : hdr.length = headerLen)
include hlen

theorem frames_bad (hbad : magic hdr ≠ magicNum) (rest : List UInt8) :
    (frames ks).front (hdr ++ rest) = .bad badHeader := by
  have htake : (hdr ++ rest).take headerLen = hdr := by rw [← hlen, List.take_left]
  change frameFront ks (hdr ++ rest) = _
  rw [frameFront, if_neg (by rw [List.length_append]; omega), htake, if_pos hbad]

theorem frames_part (hmagic : magic hdr = magicNum) {part : List UInt8}
    (hpart : part.length < (getBodyLen hdr).toNat) :
    (frames ks).front (hdr ++ part) = .short := by
  have htake : (hdr ++ part).take headerLen = hdr := by rw [← hlen, List.take_left]
  change frameFront ks (hdr ++ part) = _
  rw [frameFront, if_neg (by rw [List.length_append]; omega), htake,
    if_neg (not_not.mpr hmagic), if_pos (by rw [List.length_append]; omega)]

theorem frames_whole (hmagic : magic hdr = magicNum) {body : List UInt8}
    (hbody : body.length = (getBodyLen hdr).toNat) (rest : List UInt8) :
    (frames ks).front (hdr ++ body ++ rest) = .frame (deliver ks hdr body) (hdr ++ body).length := by
  have htake : (hdr ++ body ++ rest).take headerLen = hdr := by
    rw [List.append_assoc, ← hlen, List.take_left]
  have hdrop : (hdr ++ body ++ rest).drop headerLen = body ++ rest := by
    rw [List.append_assoc, ← hlen, List.drop_left]
  have htotal : (hdr ++ body ++ rest).length = headerLen + body.length + rest.length := by
    simp [hlen, Nat.add_assoc]
  change frameFront ks (hdr ++ body ++ rest) = _
  rw [frameFront, if_neg (by omega), htake, if_neg (not_not.mpr hmagic), if_neg (by omega), hdrop,
    ← hbody, List.take_left, List.length_append, hlen]

end Header

/-! ## Encryption -/

theorem mapIdx_xor_twice (data : List UInt8) :
    (data.mapIdx fun i b => b ^^^ ks i).mapIdx (fun i b => b ^^^ ks i) = data := by
  apply List.ext_getElem
  · simp
  · intro i h₁ h₂
    simp only [List.getElem_mapIdx, UInt8.xor_assoc, UInt8.xor_self, UInt8.xor_zero]

theorem jfMsgCodec_twice {data : List UInt8} :
    jfMsgCodec ks ((jfMsgCodec ks data).getD []) = if data.isEmpty then none else some data := by
  cases data with
  | nil => rfl
  | cons b data =>
    have hne : ((b :: data).mapIdx fun i b => b ^^^ ks i).isEmpty = false := by simp
    simp only [jfMsgCodec, List.isEmpty_cons, Bool.false_eq_true, if_false, Option.getD_some, hne,
      mapIdx_xor_twice]

end DevFramework.Netport
