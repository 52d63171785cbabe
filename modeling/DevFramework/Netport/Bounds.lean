import DevFramework.Netport.Port
import DevFramework.Platform

/-! # The buffers of send_message (bas/netport.cpp)

`send_message` checks that there is a buffer and a length, and takes a header's length from the
front of the buffer. `sendAccesses` lists what it reads and writes, in the order of the source, for
every outcome of its allocations.
-/
namespace DevFramework.Netport
set_option autoImplicit false
set_option maxHeartbeats 250000

/-! ## Accesses -/

/-- The caller's buffer, the `cmd_info`, its `cmd_body` and the buffer that the codec allocates. -/
inductive Region where
  | buf
  | info
  | cmdBody
  | eptBuf
  deriving DecidableEq

/-- `codec` is the call of `jf_msg_codec` with its second argument, and `nullWrite` a write through
a null pointer. -/
inductive Access where
  | read (r : Region) (offset n : ℕ)
  | write (r : Region) (offset n : ℕ)
  | nullWrite (n : ℕ)
  | codec (dataLen : ℕ)
  deriving DecidableEq

/-- Which allocations succeed, and what is in a new `cmd_body`. -/
structure Heap where
  info : Bool
  body : ℕ → Bool
  eptBuf : ℕ → Bool
  fresh : List UInt8

/-- What a call of `send_message` does: its accesses, and the `cmd_body` that it posts. -/
structure SendCall where
  accesses : List Access
  posted : Option (List UInt8)

/-- `sizeof(cmd_info)`: two pointers and an `int`, aligned. -/
def infoLen : Target → ℕ
  | .x86 => 12
  | .x64 => 24

/-- `mem_copy` into a buffer. -/
def memCopy (dst : List UInt8) (offset : ℕ) (src : List UInt8) : List UInt8 :=
  dst.take offset ++ src ++ dst.drop (offset + src.length)

/-- `jf_msg_codec` of the caller's buffer from `offset` on: nothing for no data, and an exception
where `new` fails. -/
def codecAccesses (heap : Heap) (offset dataLen : ℕ) : List Access :=
  if dataLen = 0 ∨ heap.eptBuf dataLen = false then [.codec dataLen]
  else [.codec dataLen, .read .buf offset dataLen, .write .eptBuf 0 dataLen]

/-- `mem_copy(ci->cmd_body, buf, hdr_len)`. -/
def headerCopy : List Access := [.read .buf 0 headerLen, .write .cmdBody 0 headerLen]

/-- `send_message` of a buffer of `len` bytes. `mem_zalloc` zeroes what `malloc` returns before
anything is checked. -/
def sendAccesses (t : Target) (heap : Heap) (ks : ℕ → UInt8) (buf : List UInt8) : SendCall :=
  let len : ℤ := buf.length
  if len = 0 then ⟨[], none⟩
  else if heap.info = false then ⟨[.nullWrite (infoLen t)], none⟩
  else if heap.body (toSize t len) = false then ⟨[.write .info 0 (infoLen t)], none⟩
  else
    let dataLen := toSize t (len - headerLen)
    let before := .write .info 0 (infoLen t) :: codecAccesses heap headerLen dataLen
    let body := memCopy heap.fresh 0 (buf.take headerLen)
    if dataLen = 0 then ⟨before ++ headerCopy, some body⟩
    else if heap.eptBuf dataLen = false then ⟨before, none⟩
    else
      let ept := (jfMsgCodec ks (buf.drop headerLen)).getD []
      ⟨before ++ headerCopy ++ [.read .eptBuf 0 dataLen, .write .cmdBody headerLen dataLen],
        some (memCopy body headerLen ept)⟩

/-! ## Bounds -/

def Region.size (t : Target) (len : ℕ) : Region → ℕ
  | .buf => len
  | .info => infoLen t
  | .cmdBody => len
  | .eptBuf => toSize t (len - headerLen)

/-- The access is inside its region; the codec is given the number of body bytes. -/
def Access.InBounds (t : Target) (len : ℕ) : Access → Prop
  | .read r offset n => offset + n ≤ r.size t len
  | .write r offset n => offset + n ≤ r.size t len
  | .nullWrite _ => False
  | .codec dataLen => (dataLen : ℤ) = len - headerLen

instance (t : Target) (len : ℕ) : (a : Access) → Decidable (a.InBounds t len)
  | .read r offset n => inferInstanceAs (Decidable (offset + n ≤ r.size t len))
  | .write r offset n => inferInstanceAs (Decidable (offset + n ≤ r.size t len))
  | .nullWrite _ => inferInstanceAs (Decidable False)
  | .codec dataLen => inferInstanceAs (Decidable ((dataLen : ℤ) = len - headerLen))

section
variable {t : Target} {heap : Heap} {ks : ℕ → UInt8} {buf : List UInt8}

/-- With at least a header, the codec is given what follows it. -/
theorem dataLen_eq (t : Target) {len : ℕ} (hlen : headerLen ≤ len) (hmax : (len : ℤ) ≤ intMax) :
    toSize t (len - headerLen) = len - headerLen := by
  simp only [intMax] at hmax
  rw [toSize_of_nonneg t (by omega) (by omega)]
  omega

theorem codec_mem (heap : Heap) (offset dataLen : ℕ) :
    .codec dataLen ∈ codecAccesses heap offset dataLen := by
  unfold codecAccesses
  split <;> exact List.mem_cons_self

/-- A negative length is not what the codec is given. -/
theorem codec_short (t : Target) {len : ℕ} (hlen : len < headerLen) (dataLen : ℕ) :
    ¬ (Access.codec dataLen).InBounds t len := by
  simp only [Access.InBounds]
  omega

theorem codecAccesses_inBounds (heap : Heap) (hlen : headerLen ≤ buf.length)
    (hmax : (buf.length : ℤ) ≤ intMax) :
    ∀ a ∈ codecAccesses heap headerLen (toSize t ((buf.length : ℤ) - headerLen)),
      a.InBounds t buf.length := by
  have hdata := dataLen_eq t hlen hmax
  have hcodec : (Access.codec (toSize t ((buf.length : ℤ) - headerLen))).InBounds t buf.length := by
    simp only [Access.InBounds, hdata]
    omega
  have hread : (Access.read .buf headerLen (toSize t ((buf.length : ℤ) - headerLen))).InBounds t
      buf.length := by
    simp only [Access.InBounds, Region.size, hdata]
    omega
  unfold codecAccesses
  split
  · simpa using hcodec
  · simpa using ⟨hcodec, hread, (Nat.zero_add _).le⟩

theorem headerCopy_inBounds (t : Target) {len : ℕ} (hlen : headerLen ≤ len) :
    ∀ a ∈ headerCopy, a.InBounds t len := by
  simpa [headerCopy, Access.InBounds, Region.size] using hlen

theorem sendAccesses_inBounds (ks : ℕ → UInt8) (hinfo : heap.info = true)
    (hlen : headerLen ≤ buf.length) (hmax : (buf.length : ℤ) ≤ intMax) :
    ∀ a ∈ (sendAccesses t heap ks buf).accesses, a.InBounds t buf.length := by
  have hpos : (buf.length : ℤ) ≠ 0 := by
    have : 0 < headerLen := by decide
    omega
  have hzero : (Access.write .info 0 (infoLen t)).InBounds t buf.length := (Nat.zero_add _).le
  have hcodec := codecAccesses_inBounds (t := t) heap hlen hmax
  have hhdr := headerCopy_inBounds t hlen
  have hbefore : ∀ a ∈ Access.write .info 0 (infoLen t) ::
      codecAccesses heap headerLen (toSize t ((buf.length : ℤ) - headerLen)),
      a.InBounds t buf.length := List.forall_mem_cons.mpr ⟨hzero, hcodec⟩
  have hbody : (Access.write .cmdBody headerLen (toSize t ((buf.length : ℤ) - headerLen))).InBounds t
      buf.length := by
    simp only [Access.InBounds, Region.size, dataLen_eq t hlen hmax]
    omega
  simp only [sendAccesses]
  rw [if_neg hpos, if_neg (by simp [hinfo])]
  split
  · simpa using hzero
  split
  · exact List.forall_mem_append.mpr ⟨hbefore, hhdr⟩
  split
  · exact hbefore
  · refine List.forall_mem_append.mpr ⟨List.forall_mem_append.mpr ⟨hbefore, hhdr⟩, ?_⟩
    simpa using ⟨(Nat.zero_add _).le, hbody⟩

/-- Every call that gets its two buffers calls the codec. -/
theorem codec_called (t : Target) (ks : ℕ → UInt8) (hne : buf ≠ []) (hinfo : heap.info = true)
    (hbody : heap.body (toSize t buf.length) = true) :
    .codec (toSize t ((buf.length : ℤ) - headerLen)) ∈ (sendAccesses t heap ks buf).accesses := by
  have hpos : (buf.length : ℤ) ≠ 0 := by simpa using hne
  have hmem := codec_mem heap headerLen (toSize t ((buf.length : ℤ) - headerLen))
  simp only [sendAccesses]
  rw [if_neg hpos, if_neg (by simp [hinfo]), if_neg (by simp [hbody])]
  split
  · exact List.mem_append_left _ (List.mem_cons_of_mem _ hmem)
  split
  · exact List.mem_cons_of_mem _ hmem
  · exact List.mem_append_left _ (List.mem_append_left _ (List.mem_cons_of_mem _ hmem))

/-- What is posted for a buffer with at least a header is the command of the message. -/
theorem sendAccesses_posted (t : Target) (heap : Heap) (ks : ℕ → UInt8) (hlen : headerLen ≤ buf.length)
    (hmax : (buf.length : ℤ) ≤ intMax) (hfresh : heap.fresh.length = buf.length) {body : List UInt8}
    (hposted : (sendAccesses t heap ks buf).posted = some body) : body = Port.command ks buf := by
  have hdata := dataLen_eq t hlen hmax
  have hhdr : (buf.take headerLen).length = headerLen := by
    rw [List.length_take]
    omega
  have hcopy : memCopy heap.fresh 0 (buf.take headerLen) =
      buf.take headerLen ++ heap.fresh.drop headerLen := by
    rw [memCopy, List.take_zero, List.nil_append, Nat.zero_add, hhdr]
  simp only [sendAccesses, hdata] at hposted
  rw [hcopy] at hposted
  split at hposted
  · cases hposted
  split at hposted
  · cases hposted
  split at hposted
  · cases hposted
  split at hposted
  next hnone =>
    rw [← Option.some.inj hposted, Port.command, List.drop_eq_nil_of_le (by omega),
      List.drop_eq_nil_of_le (by omega)]
    rfl
  split at hposted
  · cases hposted
  next hsome _ =>
    obtain ⟨ept, hept⟩ : ∃ ept, jfMsgCodec ks (buf.drop headerLen) = some ept := by
      refine ⟨_, if_neg ?_⟩
      simp only [List.isEmpty_iff, List.drop_eq_nil_iff]
      omega
    have hlength : ept.length = buf.length - headerLen := by
      rw [← Option.some.inj ((if_neg ?_).symm.trans hept)]
      · simp
      · simp only [List.isEmpty_iff, List.drop_eq_nil_iff]
        omega
    rw [← Option.some.inj hposted, Port.command, hept, Option.getD_some, memCopy, hlength,
      List.take_left' hhdr, List.drop_eq_nil_of_le, List.append_nil]
    rw [List.length_append, List.length_drop]
    omega

end

/-- A call with a buffer stays inside its buffers, and gives the codec the number of body bytes,
exactly if its `cmd_info` is allocated and, where the `cmd_body` is too, the buffer has at least a
header. -/
theorem send_in_bounds_iff (t : Target) (heap : Heap) (ks : ℕ → UInt8) (buf : List UInt8)
    (hne : buf ≠ []) (hmax : (buf.length : ℤ) ≤ intMax) :
    (∀ a ∈ (sendAccesses t heap ks buf).accesses, a.InBounds t buf.length) ↔
      heap.info = true ∧ (heap.body (toSize t buf.length) = true → headerLen ≤ buf.length) := by
  have hpos : (buf.length : ℤ) ≠ 0 := by simpa using hne
  constructor
  · intro h
    have hinfo : heap.info = true := by
      by_contra hno
      refine h (.nullWrite (infoLen t)) ?_
      simp only [sendAccesses]
      rw [if_neg hpos, if_pos (Bool.eq_false_iff.mpr hno)]
      exact List.mem_cons_self
    refine ⟨hinfo, fun hbody => ?_⟩
    by_contra hshort
    exact codec_short t (Nat.lt_of_not_le hshort) _ (h _ (codec_called t ks hne hinfo hbody))
  · rintro ⟨hinfo, hbody⟩
    by_cases hlen : headerLen ≤ buf.length
    · exact sendAccesses_inBounds ks hinfo hlen hmax
    · have hnone : heap.body (toSize t buf.length) = false :=
        Bool.eq_false_iff.mpr fun h => hlen (hbody h)
      simp only [sendAccesses]
      rw [if_neg hpos, if_neg (by simp [hinfo]), if_pos hnone]
      intro a ha
      rw [List.mem_singleton.mp ha]
      exact (Nat.zero_add _).le

/-- Every allocation succeeds. -/
def allFree : Heap := ⟨true, fun _ => true, fun _ => true, []⟩

/-- A header and a byte. -/
theorem send_in_bounds_header :
    headerLen + 1 = (List.replicate 89 (0 : UInt8)).length ∧
    ∀ a ∈ (sendAccesses .x64 allFree (fun _ => 0) (List.replicate 89 0)).accesses,
      a.InBounds .x64 (List.replicate 89 (0 : UInt8)).length :=
  ⟨rfl, (send_in_bounds_iff .x64 allFree (fun _ => 0) (List.replicate 89 0)
    (List.cons_ne_nil _ _) (by decide)).mpr ⟨rfl, fun _ => by decide⟩⟩

/-- Ten bytes: the codec is given `2 ^ 64 - 78`. If it gets a buffer of that size, the 88 bytes of a
header are read from the ten and written to the ten of the `cmd_body`. -/
theorem short_send_out_of_bounds :
    (sendAccesses .x64 allFree (fun _ => 0) (List.replicate 10 0)).accesses =
      [.write .info 0 24, .codec 18446744073709551538, .read .buf 88 18446744073709551538,
        .write .eptBuf 0 18446744073709551538, .read .buf 0 88, .write .cmdBody 0 88,
        .read .eptBuf 0 18446744073709551538, .write .cmdBody 88 18446744073709551538] ∧
    ¬ ∀ a ∈ (sendAccesses .x64 allFree (fun _ => 0) (List.replicate 10 0)).accesses,
      a.InBounds .x64 10 := by
  have hcalls : (sendAccesses .x64 allFree (fun _ => 0) (List.replicate 10 0)).accesses =
      [.write .info 0 24, .codec 18446744073709551538, .read .buf 88 18446744073709551538,
        .write .eptBuf 0 18446744073709551538, .read .buf 0 88, .write .cmdBody 0 88,
        .read .eptBuf 0 18446744073709551538, .write .cmdBody 88 18446744073709551538] := by
    decide +kernel
  refine ⟨hcalls, fun h => ?_⟩
  rw [hcalls] at h
  exact absurd (h (.write .cmdBody 0 88) (by decide)) (by decide)

end DevFramework.Netport
