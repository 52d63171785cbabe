import DevFramework.Des.Cipher

/-! # Decryption undoes encryption

From the inside out: bits and bytes are converted back, the two permutations are inverse tables,
the rounds are a Feistel network with the keys in reverse order, three passes mirror three passes,
and the blocks are chained with the same vector on both sides. Nothing is needed of the round
function and of the keys but the length of what they give.
-/
namespace DevFramework.Des
open BlockCipher
set_option autoImplicit false
set_option maxHeartbeats 250000

/-! ## Bits and bytes -/

theorem bitIndex_eq (i : ℕ) : bitIndex i = 7 - i % 8 := by
  unfold bitIndex
  omega

/-- A bit of a byte after a bit was put into it. -/
theorem testBit_put (c : UInt8) (b : Bool) {s j : ℕ} (hj : j < 8) :
    (c ||| UInt8.ofNat (b.toNat <<< s)).toNat.testBit j =
      (c.toNat.testBit j || (b && decide (j = s))) := by
  rw [UInt8.toNat_or, Nat.testBit_or, UInt8.toNat_ofNat', Nat.testBit_mod_two_pow,
    Nat.testBit_shiftLeft, Nat.testBit_bool_toNat, decide_eq_true hj, Bool.true_and]
  congr 1
  cases b with
  | false => simp
  | true =>
    have hiff : (s ≤ j ∧ j - s = 0) ↔ j = s := by omega
    simp [← Bool.decide_and, hiff]

@[simp] theorem byteToBit_length (inp : List UInt8) (bits : ℕ) :
    (byteToBit inp bits).length = bits := by
  simp [byteToBit]

@[simp] theorem putBit_length (inp : List Bool) (out : List UInt8) (i : ℕ) :
    (putBit inp out i).length = out.length := by
  simp [putBit]

theorem putBit_getD (inp : List Bool) {out : List UInt8} (n : ℕ) {a : ℕ} (ha : a < out.length) :
    (putBit inp out n).getD a 0 =
      if n / 8 = a then out.getD a 0 ||| UInt8.ofNat ((inp.getD n false).toNat <<< bitIndex n)
      else out.getD a 0 := by
  have hout : out[a]? = some (out.getD a 0) := by
    rw [List.getD_eq_getElem _ _ ha, List.getElem?_eq_getElem ha]
  rw [putBit, List.getD_eq_getElem?_getD, List.getElem?_modify, hout]
  split
  · rfl
  · rfl

/-- The bytes after the first `n` bits: what was put is there, the rest is zero. -/
theorem putBits_testBit (inp : List Bool) (k : ℕ) {n : ℕ} (hn : n ≤ 8 * k) :
    ((List.range n).foldl (putBit inp) (List.replicate k 0)).length = k ∧
    ∀ a < k, ∀ j < 8,
      (((List.range n).foldl (putBit inp) (List.replicate k 0)).getD a 0).toNat.testBit j =
        (decide (8 * a + (7 - j) < n) && inp.getD (8 * a + (7 - j)) false) := by
  induction n with
  | zero =>
    refine ⟨by simp, fun a ha j _ => ?_⟩
    simp [ha]
  | succ n ih =>
    obtain ⟨hlen, hbits⟩ := ih (by omega)
    rw [List.range_succ, List.foldl_append, List.foldl_cons, List.foldl_nil]
    generalize (List.range n).foldl (putBit inp) (List.replicate k 0) = out at hlen hbits ⊢
    refine ⟨by rw [putBit_length, hlen], fun a ha j hj => ?_⟩
    rw [putBit_getD inp n (by omega), bitIndex_eq]
    by_cases hbyte : n / 8 = a
    · rw [if_pos hbyte, testBit_put _ _ hj, hbits a ha j hj]
      by_cases hat : j = 7 - n % 8
      · have hbit : 8 * a + (7 - j) = n := by omega
        rw [hbit, decide_eq_true hat]
        simp
      · have hiff : 8 * a + (7 - j) < n ↔ 8 * a + (7 - j) < n + 1 := by omega
        simp only [hiff, hat, decide_false, Bool.and_false, Bool.or_false]
    · rw [if_neg hbyte, hbits a ha j hj]
      have hiff : 8 * a + (7 - j) < n ↔ 8 * a + (7 - j) < n + 1 := by omega
      simp only [hiff]

theorem bitToByte_spec (inp : List Bool) (k : ℕ) : (bitToByte inp (8 * k)).length = k ∧
    ∀ a < k, ∀ j < 8, ((bitToByte inp (8 * k)).getD a 0).toNat.testBit j =
      inp.getD (8 * a + (7 - j)) false := by
  have hbytes : 8 * k / 8 = k := by omega
  obtain ⟨hlen, hbits⟩ := putBits_testBit inp k (le_refl (8 * k))
  rw [bitToByte, hbytes]
  refine ⟨hlen, fun a ha j hj => ?_⟩
  rw [hbits a ha j hj, decide_eq_true (by omega), Bool.true_and]

theorem byteToBit_bitToByte {x : List Bool} {k : ℕ} (h : x.length = 8 * k) :
    byteToBit (bitToByte x (8 * k)) (8 * k) = x := by
  apply List.ext_getElem
  · rw [byteToBit_length, h]
  · intro i hi hx
    rw [byteToBit_length] at hi
    have hbit : 8 * (i / 8) + (7 - (7 - i % 8)) = i := by omega
    simp only [byteToBit, List.getElem_map, List.getElem_range, bitIndex_eq]
    rw [(bitToByte_spec x k).2 (i / 8) (by omega) _ (by omega), hbit, List.getD_eq_getElem _ _ hx]

theorem eq_of_bits {c d : UInt8} (h : ∀ j < 8, c.toNat.testBit j = d.toNat.testBit j) : c = d := by
  rw [← UInt8.toNat_inj]
  apply Nat.eq_of_testBit_eq
  intro j
  by_cases hj : j < 8
  · exact h j hj
  · have hpow : 2 ^ 8 ≤ 2 ^ j := Nat.pow_le_pow_right (by omega) (by omega)
    have hc := c.toNat_lt
    have hd := d.toNat_lt
    rw [Nat.testBit_lt_two_pow (by omega), Nat.testBit_lt_two_pow (by omega)]

theorem bitToByte_byteToBit {c : List UInt8} {k : ℕ} (h : c.length = k) :
    bitToByte (byteToBit c (8 * k)) (8 * k) = c := by
  obtain ⟨hlen, hbits⟩ := bitToByte_spec (byteToBit c (8 * k)) k
  apply List.ext_getElem
  · rw [hlen, h]
  · intro a ha hc
    rw [← List.getD_eq_getElem _ 0 ha, ← List.getD_eq_getElem _ 0 hc]
    apply eq_of_bits
    intro j hj
    have hin : 8 * a + (7 - j) < (byteToBit c (8 * k)).length := by
      rw [byteToBit_length]
      omega
    have hbyte : (8 * a + (7 - j)) / 8 = a := by omega
    have hindex : 7 - (8 * a + (7 - j)) % 8 = j := by omega
    rw [hbits a (by omega) j hj, List.getD_eq_getElem _ _ hin]
    simp only [byteToBit, List.getElem_map, List.getElem_range, bitIndex_eq, hbyte, hindex]

/-! ## One block -/

theorem ip_ipr {x : List Bool} (h : x.length = 64) :
    transform ipTable (transform iprTable x) = x :=
  select_inverse false h (by decide) (by decide)

theorem ipr_ip {x : List Bool} (h : x.length = 64) :
    transform iprTable (transform ipTable x) = x :=
  select_inverse false h (by decide) (by decide)

theorem xorBits_length (a b : List Bool) (ha : a.length = 32) (hb : b.length = 32) :
    (xorBits a b).length = 32 := by
  simp [xorBits, ha, hb]

theorem xorBits_cancel (a b : List Bool) (ha : a.length = 32) (hb : b.length = 32) :
    xorBits a (xorBits a b) = b := by
  apply List.ext_getElem
  · rw [xorBits_length a _ ha (xorBits_length a b ha hb), hb]
  · intro i _ _
    simp [xorBits]

theorem fFunc_length (ki inp : List Bool) : (fFunc ki inp).length = 32 := by
  rw [fFunc, transform, select_length]
  rfl

/-- The rounds on halves of 32 bits, and back. -/
theorem rounds_back (keys : SubKey) {x : List Bool × List Bool}
    (h : x.1.length = 32 ∧ x.2.length = 32) :
    rounds xorBits fFunc keys.reverse (rounds xorBits fFunc keys x).swap = x.swap :=
  rounds_reverse (P := fun a => a.length = 32) (fun k a _ => fFunc_length k a) xorBits_length
    xorBits_cancel keys h

theorem rounds_length (keys : SubKey) {x : List Bool × List Bool}
    (h : x.1.length = 32 ∧ x.2.length = 32) :
    (rounds xorBits fFunc keys x).1.length = 32 ∧ (rounds xorBits fFunc keys x).2.length = 32 :=
  rounds_keeps (P := fun a => a.length = 32) (fun k a _ => fFunc_length k a) xorBits_length keys h

theorem rotate_halves {l r : List Bool} (hl : l.length = 32) : rotateL (l ++ r) 32 = r ++ l := by
  rw [rotateL, List.drop_left' hl, List.take_left' hl]

theorem des_length (subKey : SubKey) (type : Bool) (inp : List UInt8) :
    (des subKey type inp).length = 8 :=
  (bitToByte_spec _ 8).1

/-- The order in which `DES` takes the keys; the other type takes them backwards. -/
def order (type : Bool) (subKey : SubKey) : SubKey :=
  if type = ENCRYPT then subKey else subKey.reverse

theorem order_not (type : Bool) (subKey : SubKey) :
    order (!type) subKey = (order type subKey).reverse := by
  cases type <;> simp [order, ENCRYPT]

/-- A block, from the halves that the first permutation gives. -/
theorem des_of_halves {subKey : SubKey} {type : Bool} {inp : List UInt8} {l r : List Bool}
    (hl : l.length = 32) (hr : r.length = 32)
    (hm : transform ipTable (byteToBit inp 64) = l ++ r) :
    des subKey type inp = bitToByte (transform iprTable
      ((rounds xorBits fFunc (order type subKey) (l, r)).2 ++
        (rounds xorBits fFunc (order type subKey) (l, r)).1)) 64 := by
  have hlen := rounds_length (order type subKey) (x := (l, r)) ⟨hl, hr⟩
  rw [des, hm, List.take_left' hl, List.drop_left' hl, ← order, rotate_halves hlen.1]

/-- A block is led back by the other type. -/
theorem des_back (subKey : SubKey) (type : Bool) {inp : List UInt8} (h : inp.length = 8) :
    des subKey (!type) (des subKey type inp) = inp := by
  obtain ⟨l, r, hl, hr, hm⟩ : ∃ l r : List Bool, l.length = 32 ∧ r.length = 32 ∧
      transform ipTable (byteToBit inp 64) = l ++ r := by
    have hlen : (transform ipTable (byteToBit inp 64)).length = 64 := select_length _ _ _
    refine ⟨_, _, ?_, ?_, (List.take_append_drop 32 _).symm⟩
    · rw [List.length_take, hlen]
      rfl
    · rw [List.length_drop, hlen]
  obtain ⟨hx, hy⟩ := rounds_length (order type subKey) (x := (l, r)) ⟨hl, hr⟩
  have hback := rounds_back (order type subKey) (x := (l, r)) ⟨hl, hr⟩
  rw [des_of_halves hl hr hm]
  generalize rounds xorBits fFunc (order type subKey) (l, r) = x at hx hy hback ⊢
  have hmid : (x.2 ++ x.1).length = 64 := by
    rw [List.length_append, hx, hy]
  have hbits : byteToBit (bitToByte (transform iprTable (x.2 ++ x.1)) 64) 64 =
      transform iprTable (x.2 ++ x.1) :=
    byteToBit_bitToByte (k := 8) (select_length _ _ _)
  have hswap : rounds xorBits fFunc (order (!type) subKey) (x.2, x.1) = (r, l) := by
    rw [order_not]
    exact hback
  have hbytes : bitToByte (byteToBit inp 64) 64 = inp := bitToByte_byteToBit (k := 8) h
  rw [des_of_halves hy hx (by rw [hbits, ip_ipr hmid]), hswap, ← hm,
    ipr_ip (byteToBit_length inp 64), hbytes]

theorem desKeys_length (nKey : ℕ) (subKey : List SubKey) (bType : Bool) (inp : List UInt8) :
    (desKeys nKey subKey bType inp).length = 8 := by
  unfold desKeys
  simp only
  split_ifs
  all_goals exact des_length _ _ _

/-- The passes of decryption mirror those of encryption. -/
theorem desKeys_back (nKey : ℕ) (subKey : List SubKey) {inp : List UInt8} (h : inp.length = 8) :
    desKeys nKey subKey DECRYPT (desKeys nKey subKey ENCRYPT inp) = inp := by
  have hdecrypt : ∀ key, ∀ blk : List UInt8, blk.length = 8 →
      des key DECRYPT (des key ENCRYPT blk) = blk := fun key blk => des_back key ENCRYPT
  have hencrypt : ∀ key, ∀ blk : List UInt8, blk.length = 8 →
      des key ENCRYPT (des key DECRYPT blk) = blk := fun key blk => des_back key DECRYPT
  have hnot : (!ENCRYPT) = DECRYPT ∧ (!DECRYPT) = ENCRYPT := ⟨rfl, rfl⟩
  have hchoice : ∀ a b : ℕ, (if ENCRYPT = true then a else b) = b ∧
      (if DECRYPT = true then a else b) = a := fun a b => ⟨rfl, rfl⟩
  unfold desKeys
  simp only [hnot.1, hnot.2, hchoice]
  split_ifs
  · exact hdecrypt _ _ h
  · rw [hdecrypt _ _ (des_length _ _ _), hencrypt _ _ (des_length _ _ _), hdecrypt _ _ h]
  · rw [hdecrypt _ _ (des_length _ _ _), hencrypt _ _ (des_length _ _ _), hdecrypt _ _ h]

/-! ## The modes -/

theorem cbcLoop_encrypt (cipher : List UInt8 → List UInt8) (cvec : List UInt8)
    (blocks : List (List UInt8)) :
    cbcLoop cipher ENCRYPT cvec blocks = chainEncrypt xorBytes cipher cvec blocks := by
  induction blocks generalizing cvec with
  | nil => rfl
  | cons b bs ih => simp only [cbcLoop, chainEncrypt, if_true, ih]

theorem cbcLoop_decrypt (cipher : List UInt8 → List UInt8) (cvec : List UInt8)
    (blocks : List (List UInt8)) :
    cbcLoop cipher DECRYPT cvec blocks = chainDecrypt xorBytes cipher cvec blocks := by
  have hne : ¬ DECRYPT = ENCRYPT := by decide
  induction blocks generalizing cvec with
  | nil => rfl
  | cons b bs ih => simp only [cbcLoop, chainDecrypt, if_neg hne, ih]

theorem xorBytes_length (a b : List UInt8) (ha : a.length = 8) (hb : b.length = 8) :
    (xorBytes a b).length = 8 := by
  simp [xorBytes, ha, hb]

theorem xorBytes_cancel (a b : List UInt8) (ha : a.length = 8) (hb : b.length = 8) :
    xorBytes (xorBytes a b) b = a := by
  apply List.ext_getElem
  · rw [xorBytes_length _ b (xorBytes_length a b ha hb) hb, ha]
  · intro i _ _
    simp only [xorBytes, List.getElem_zipWith, UInt8.xor_assoc, UInt8.xor_self, UInt8.xor_zero]

/-- The loops over the blocks of one mode. -/
def runBlocks (cipher : List UInt8 → List UInt8) (bType bMode : Bool)
    (blocks : List (List UInt8)) : List (List UInt8) :=
  if bMode = ECB then blocks.map cipher else cbcLoop cipher bType (List.replicate 8 0) blocks

theorem runBlocks_back {E D : List UInt8 → List UInt8} (hE : ∀ b, b.length = 8 → (E b).length = 8)
    (hinv : ∀ b, b.length = 8 → D (E b) = b) (bMode : Bool) {blocks : List (List UInt8)}
    (h : ∀ b ∈ blocks, b.length = 8) :
    (runBlocks E ENCRYPT bMode blocks).length = blocks.length ∧
    (∀ c ∈ runBlocks E ENCRYPT bMode blocks, c.length = 8) ∧
      runBlocks D DECRYPT bMode (runBlocks E ENCRYPT bMode blocks) = blocks := by
  unfold runBlocks
  split
  · refine ⟨by simp, fun c hc => ?_, ?_⟩
    · obtain ⟨b, hb, rfl⟩ := List.mem_map.mp hc
      exact hE b (h b hb)
    · have hid : ∀ b ∈ blocks, (D ∘ E) b = id b := fun b hb => hinv b (h b hb)
      rw [List.map_map, List.map_congr_left hid, List.map_id]
  · have hvec : (List.replicate 8 (0 : UInt8)).length = 8 := rfl
    rw [cbcLoop_encrypt, cbcLoop_decrypt]
    exact ⟨chainEncrypt_length _ _,
      chainEncrypt_keeps (P := fun b : List UInt8 => b.length = 8) hE xorBytes_length hvec h,
      chainDecrypt_chainEncrypt (P := fun b : List UInt8 => b.length = 8) hE xorBytes_length
        xorBytes_cancel hinv hvec h⟩

/-- The keys of `RunDes`. -/
def keysOf (key : List UInt8) (keylen : UInt8) : List SubKey :=
  (List.range (if keylen.toNat / 8 > 3 then 3 else keylen.toNat / 8)).map fun i =>
    setSubKey ((key.drop (8 * i)).take 8)

theorem runDes_eq {bType bMode : Bool} {inp key : List UInt8} {keylen : UInt8} (hinp : inp ≠ [])
    (hmul : inp.length % 8 = 0) (hkey : 8 ≤ keylen.toNat) :
    runDes bType bMode inp key keylen = some (runBlocks
      (desKeys (if keylen.toNat / 8 > 3 then 3 else keylen.toNat / 8) (keysOf key keylen) bType)
      bType bMode (chunks 8 (inp.length / 8) inp)).flatten := by
  have hlen : ¬ (inp.length = 0 ∨ keylen < 8) := by
    have h8 : (8 : UInt8).toNat = 8 := rfl
    rw [List.length_eq_zero_iff, UInt8.lt_iff_toNat_lt, h8, not_or]
    exact ⟨hinp, by omega⟩
  have hrest : ¬ inp.length % 8 ≠ 0 := not_not.mpr hmul
  unfold runDes runBlocks
  simp only [if_neg hlen, if_neg hrest]
  split
  · rfl
  · rfl

/-- **Round trip.** For either mode, a key of eight bytes at least and data of a positive multiple
of eight bytes, `RunDes` encrypts, and decrypts what it gives to the data. -/
theorem runDes_round_trip (bMode : Bool) (data key : List UInt8) (keylen : UInt8)
    (hdata : data ≠ []) (hmul : data.length % 8 = 0) (hkey : 8 ≤ keylen.toNat) :
    ∃ out, runDes ENCRYPT bMode data key keylen = some out ∧
      runDes DECRYPT bMode out key keylen = some data := by
  have hlen : data.length = data.length / 8 * 8 := by omega
  obtain ⟨hcount, hblocks, hback⟩ := runBlocks_back
    (fun b _ => desKeys_length (if keylen.toNat / 8 > 3 then 3 else keylen.toNat / 8)
      (keysOf key keylen) ENCRYPT b)
    (fun _ hb => desKeys_back _ _ hb) bMode (length_of_mem_chunks hlen)
  rw [chunks_length] at hcount
  have hout := length_flatten_blocks hblocks
  rw [hcount, ← hlen] at hout
  refine ⟨_, runDes_eq hdata hmul hkey, ?_⟩
  rw [runDes_eq _ (by rw [hout, hmul]) hkey, hout]
  · have hcut := chunks_flatten hblocks
    rw [hcount] at hcut
    rw [hcut, hback, flatten_chunks hlen]
  · intro hnil
    rw [hnil] at hout
    exact hdata (List.length_eq_zero_iff.mp hout.symm)

/-- Two blocks in CBC mode with a key of sixteen bytes. -/
theorem runDes_round_trip_two : ∃ out,
    runDes ENCRYPT CBC (List.replicate 16 7) (List.replicate 16 1) 16 = some out ∧
      runDes DECRYPT CBC out (List.replicate 16 1) 16 = some (List.replicate 16 7) :=
  runDes_round_trip CBC _ _ 16 (by decide) (by decide) (by decide)

end DevFramework.Des
