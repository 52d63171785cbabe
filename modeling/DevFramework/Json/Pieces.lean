import DevFramework.Json.Strings

/-! # The pieces of a string

Between its quotes a string is made of pieces: plain characters, characters behind a backslash,
units of UTF-16 in hexadecimal and pairs of them. The loops of `parse_string` go through them one
by one.
-/
namespace DevFramework.Json
set_option autoImplicit false
set_option maxHeartbeats 250000

/-! ## The bytes of a character -/

theorem byte_of_lt {n : ℕ} (h : n < 256) : byte n = Char.ofNat n := by
  rw [byte, Nat.mod_eq_of_lt h]

theorem continuation_bits (n : ℕ) : (n ||| 0x80) &&& 0xBF = Utf8.continuation n := by
  have hsmall : ∀ m < 256, (m ||| 0x80) &&& 0xBF = 128 + m % 64 := by decide +kernel
  have hlt : (n ||| 0x80) &&& 0xBF < 2 ^ 8 := Nat.lt_of_le_of_lt Nat.and_le_right (by decide)
  have hlow : (n ||| 0x80) &&& 0xBF = (n % 2 ^ 8 ||| 0x80) &&& 0xBF := by
    rw [← Nat.mod_eq_of_lt hlt, Nat.and_mod_two_pow, Nat.or_mod_two_pow]
  rw [hlow, hsmall (n % 2 ^ 8) (Nat.mod_lt n (by decide)), Utf8.continuation]
  omega

theorem putBytes_eq (mark k uc : ℕ) (out : Text) :
    putBytes mark k uc out =
      byte (uc >>> (6 * k) ||| mark) :: ((Utf8.tail k uc).map Char.ofNat ++ out) := by
  induction k generalizing uc out with
  | zero => simp [putBytes, Utf8.tail]
  | succ k ih =>
    have hbyte : byte (Utf8.continuation uc) = Char.ofNat (Utf8.continuation uc) :=
      byte_of_lt (by unfold Utf8.continuation; omega)
    have hshift : uc >>> 6 >>> (6 * k) = uc >>> (6 * (k + 1)) := by
      rw [← Nat.shiftRight_add, Nat.mul_succ, Nat.add_comm]
    have hdiv : uc >>> 6 = uc / 64 := Nat.shiftRight_eq_div_pow uc 6
    rw [putBytes, ih, continuation_bits, hbyte, hshift, hdiv, Utf8.tail]
    simp

/-- The `switch (len)` writes UTF-8. -/
theorem putUtf8_eq {n : ℕ} (hn : n < 2097152) : putUtf8 n = (Utf8.encode n).map Char.ofNat := by
  have hmark : ∀ m < 32, m ||| 192 = 192 + m ∧ (m < 16 → m ||| 224 = 224 + m) ∧
      (m < 8 → m ||| 240 = 240 + m) := by decide
  rw [putUtf8, putBytes_eq, Utf8.encode, List.map_cons, List.append_nil]
  have hshift : ∀ k, n >>> (6 * k) = n / 64 ^ k := fun k => by
    rw [Nat.shiftRight_eq_div_pow, Nat.pow_mul]
  rw [hshift]
  by_cases h1 : n < 128
  · have hbyte : byte n = Char.ofNat n := byte_of_lt (by omega)
    simp [utf8Len, Utf8.extra, h1, firstByteMark, Utf8.mark, Utf8.tail, hbyte]
  by_cases h2 : n < 2048
  · have hbyte : byte (n / 64 ||| 192) = Char.ofNat (192 + n / 64) := by
      rw [(hmark (n / 64) (by omega)).1]
      exact byte_of_lt (by omega)
    simp [utf8Len, Utf8.extra, h1, h2, firstByteMark, Utf8.mark, hbyte]
  by_cases h3 : n < 65536
  · have hbyte : byte (n / 4096 ||| 224) = Char.ofNat (224 + n / 4096) := by
      rw [(hmark (n / 4096) (by omega)).2.1 (by omega)]
      exact byte_of_lt (by omega)
    simp [utf8Len, Utf8.extra, h1, h2, h3, firstByteMark, Utf8.mark, hbyte]
  · have hbyte : byte (n / 262144 ||| 240) = Char.ofNat (240 + n / 262144) := by
      rw [(hmark (n / 262144) (by omega)).2.2 (by omega)]
      exact byte_of_lt (by omega)
    simp [utf8Len, Utf8.extra, h1, h2, h3, hn, firstByteMark, Utf8.mark, hbyte]

/-! ## Hexadecimal digits -/

structure HexDigit where
  char : Char
  value : ℕ
  digit : hexDigit char = some value

theorem hexDigit_cases {c : Char} {v : ℕ} (h : hexDigit c = some v) :
    v < 16 ∧ 48 ≤ c.toNat := by
  have hle : ∀ a b : Char, a ≤ b ↔ a.toNat ≤ b.toNat := fun _ _ => Iff.rfl
  simp only [hexDigit, hle, Char.reduceToNat] at h
  split_ifs at h <;> obtain rfl := Option.some.inj h <;> omega

theorem HexDigit.value_lt (d : HexDigit) : d.value < 16 := (hexDigit_cases d.digit).1

theorem HexDigit.not_space (d : HexDigit) : Decimal.isSpace d.char = false := by
  have h := (hexDigit_cases d.digit).2
  have hne : d.char ≠ ' ' := fun hc => by
    rw [hc] at h
    exact absurd h (by decide)
  simp [Decimal.isSpace, hne]
  omega

/-- No other character that the source looks for is a digit. -/
theorem HexDigit.char_ne (d : HexDigit) {c : Char} (hc : hexDigit c = none) : d.char ≠ c := by
  intro h
  have hd := d.digit
  rw [h, hc] at hd
  cases hd

/-- Four digits. -/
structure Quad where
  d3 : HexDigit
  d2 : HexDigit
  d1 : HexDigit
  d0 : HexDigit

namespace Quad

def text (q : Quad) : Text := [q.d3.char, q.d2.char, q.d1.char, q.d0.char]

def value (q : Quad) : ℕ := ((q.d3.value * 16 + q.d2.value) * 16 + q.d1.value) * 16 + q.d0.value

theorem value_lt (q : Quad) : q.value < 65536 := by
  have h3 := q.d3.value_lt
  have h2 := q.d2.value_lt
  have h1 := q.d1.value_lt
  have h0 := q.d0.value_lt
  unfold value
  omega

/-- `sscanf` reads four digits. -/
theorem scan4x_text (q : Quad) (rest : Text) : scan4x (q.text ++ rest) = some q.value := by
  have hdrop : ((q.text ++ rest).dropWhile Decimal.isSpace).take 4 = q.text := by
    simp [text, q.d3.not_space]
  have hminus : q.d3.char ≠ '-' := q.d3.char_ne (by decide)
  have hplus : q.d3.char ≠ '+' := q.d3.char_ne (by decide)
  have hx : 'x' ≠ q.d2.char := (q.d2.char_ne (by decide)).symm
  have hX : 'X' ≠ q.d2.char := (q.d2.char_ne (by decide)).symm
  have hfield : hexField q.text = hexValue q.text := by
    simp [hexField, text, hx, hX]
  have hvalue : hexValue q.text = some q.value := by
    simp [hexValue, text, value, q.d3.digit, q.d2.digit, q.d1.digit, q.d0.digit]
  simp only [scan4x, hdrop]
  rw [hfield, hvalue]
  simp [text, hminus, hplus]

theorem scanLength_text (q : Quad) (rest : Text) :
    scanLength (q.text ++ rest) = (scanLength rest).map (· + 4) := by
  have hstep : ∀ (d : HexDigit) (t : Text),
      scanLength (d.char :: t) = (scanLength t).map (· + 1) := by
    intro d t
    have hquote : d.char ≠ '"' := d.char_ne (by decide)
    have hslash : d.char ≠ '\\' := d.char_ne (by decide)
    rw [scanLength.eq_def]
    simp [hquote, hslash]
  simp [text, hstep, Option.map_map, Function.comp_def, Nat.add_assoc]

def High (q : Quad) : Prop := 0xD800 ≤ q.value ∧ q.value ≤ 0xDBFF

def Low (q : Quad) : Prop := 0xDC00 ≤ q.value ∧ q.value ≤ 0xDFFF

instance (q : Quad) : Decidable q.High := inferInstanceAs (Decidable (_ ∧ _))

instance (q : Quad) : Decidable q.Low := inferInstanceAs (Decidable (_ ∧ _))

end Quad

/-- The lowest four bits in hexadecimal. -/
def nibble (n : ℕ) : HexDigit where
  char := Nat.digitChar (n % 16)
  value := n % 16
  digit := by
    have hall : ∀ m < 16, hexDigit (Nat.digitChar m) = some m := by decide
    exact hall _ (Nat.mod_lt n (by decide))

def quadOf (n : ℕ) : Quad := ⟨nibble (n / 4096), nibble (n / 256), nibble (n / 16), nibble n⟩

theorem quadOf_value {n : ℕ} (hn : n < 65536) : (quadOf n).value = n := by
  simp only [quadOf, Quad.value, nibble]
  omega

/-! ## Surrogate pairs -/

/-- The character of a pair. -/
def pairChar (high low : Quad) : ℕ :=
  0x10000 + ((high.value - 0xD800) * 0x400 + (low.value - 0xDC00))

/-- What the source makes of a pair. -/
def pairRead (high low : Quad) : ℕ :=
  0x10000 ||| (high.value &&& 0x3FF) <<< 10 ||| low.value &&& 0x3FF

/-- A bit is set, where it was not. -/
theorem or_bit16 {x : ℕ} (a b : ℕ) (hb : b < 65536) (hx : x = 131072 * a + b) :
    65536 ||| x = 65536 + x ∧ 65536 ||| (65536 + x) = 65536 + x := by
  have hlow : 65536 ||| b = 65536 + b := by
    have h := Nat.two_pow_add_eq_or_of_lt (i := 16) hb 1
    simpa using h.symm
  have hhigh : 131072 * a ||| (65536 + b) = 131072 * a + (65536 + b) := by
    have h := Nat.two_pow_add_eq_or_of_lt (i := 17) (b := 65536 + b) (by omega) a
    simpa using h.symm
  have hxor : x = 131072 * a ||| b := by
    have h := Nat.two_pow_add_eq_or_of_lt (i := 17) (b := b) (by omega) a
    rw [hx]
    simpa using h
  have hset : 65536 ||| x = 65536 + x := by
    rw [hxor, ← Nat.or_assoc, Nat.or_comm 65536, Nat.or_assoc, hlow, hhigh, ← hxor, hx]
    omega
  exact ⟨hset, by rw [← hset, ← Nat.or_assoc, Nat.or_self]⟩

theorem pairRead_eq {high low : Quad} (hh : high.High) (hl : low.Low) :
    pairRead high low =
      if pairChar high low / 0x10000 % 2 = 1 then pairChar high low
      else pairChar high low - 0x10000 := by
  obtain ⟨hh, hh'⟩ := hh
  obtain ⟨hl, hl'⟩ := hl
  have hhigh : high.value &&& 0x3FF = high.value - 0xD800 := by
    have h := Nat.and_two_pow_sub_one_eq_mod high.value 10
    simp only [Nat.reducePow, Nat.reduceSub] at h
    omega
  have hlow : low.value &&& 0x3FF = low.value - 0xDC00 := by
    have h := Nat.and_two_pow_sub_one_eq_mod low.value 10
    simp only [Nat.reducePow, Nat.reduceSub] at h
    omega
  have hjoin : (high.value - 0xD800) <<< 10 ||| (low.value - 0xDC00) =
      (high.value - 0xD800) * 0x400 + (low.value - 0xDC00) := by
    have h := Nat.two_pow_add_eq_or_of_lt (i := 10) (b := low.value - 0xDC00) (by omega)
      (high.value - 0xD800)
    rw [Nat.shiftLeft_eq, Nat.mul_comm, ← h]
  unfold pairRead pairChar
  rw [hhigh, hlow, Nat.or_assoc, hjoin]
  generalize (high.value - 0xD800) * 0x400 + (low.value - 0xDC00) = x
  split_ifs with hplane
  · exact (or_bit16 (x / 131072) (x % 131072) (by omega) (by omega)).1
  · obtain ⟨y, rfl⟩ : ∃ y, x = 65536 + y := ⟨x - 65536, by omega⟩
    rw [Nat.add_sub_cancel_left]
    exact (or_bit16 (y / 131072) (y % 131072) (by omega) (by omega)).2

/-! ## Pieces -/

/-- The characters that may stand behind a backslash, and what they stand for. -/
def escapes : List (Char × Char) :=
  [('"', '"'), ('\\', '\\'), ('/', '/'), ('b', '\x08'), ('f', '\x0c'), ('n', '\n'), ('r', '\r'),
    ('t', '\t')]

inductive Piece where
  | plain (c : Char) (ok : c ≠ '"' ∧ c ≠ '\\' ∧ c ≠ '\x00')
  | escape (e : Char × Char) (ok : e ∈ escapes)
  | unit (q : Quad) (ok : q.value ≠ 0 ∧ ¬q.High ∧ ¬q.Low)
  | pair (high low : Quad) (ok : high.High ∧ low.Low)

namespace Piece

def text : Piece → Text
  | plain c _ => [c]
  | escape e _ => ['\\', e.1]
  | unit q _ => '\\' :: 'u' :: q.text
  | pair high low _ => '\\' :: 'u' :: (high.text ++ '\\' :: 'u' :: low.text)

/-- What the piece stands for. -/
def bytes : Piece → Text
  | plain c _ => [c]
  | escape e _ => [e.2]
  | unit q _ => (Utf8.encode q.value).map Char.ofNat
  | pair high low _ => (Utf8.encode (pairChar high low)).map Char.ofNat

/-- What is read. -/
def read : Piece → Text
  | pair high low _ => (Utf8.encode (pairRead high low)).map Char.ofNat
  | p => p.bytes

/-- A pair stands for a character in a plane with an odd number. -/
def Kept : Piece → Prop
  | pair high low _ => pairChar high low / 0x10000 % 2 = 1
  | _ => True

/-- What the first loop counts for the piece. -/
def cost : Piece → ℕ
  | plain _ _ => 1
  | escape _ _ => 1
  | unit _ _ => 5
  | pair _ _ _ => 10

theorem pairChar_bounds {high low : Quad} (hh : high.High) (hl : low.Low) :
    65536 ≤ pairChar high low ∧ pairChar high low < 1114112 := by
  obtain ⟨hh, hh'⟩ := hh
  obtain ⟨hl, hl'⟩ := hl
  unfold pairChar
  omega

theorem pairRead_bounds {high low : Quad} (hh : high.High) (hl : low.Low) :
    65536 ≤ pairRead high low ∧ pairRead high low < 1114112 := by
  have hb := pairChar_bounds hh hl
  rw [pairRead_eq hh hl]
  split_ifs <;> omega

theorem unescapeStep_unit (u : Units) (t : Text) :
    unescapeStep u '\\' ('u' :: t) = transcode u t := rfl

/-- The second loop at a piece. -/
theorem unescapeStep_text (p : Piece) (u : Units) (rest : Text) :
    ∃ c t u', p.text = c :: t ∧ c ≠ '"' ∧
      unescapeStep u c (t ++ rest) = some (p.read, u', rest) := by
  cases p with
  | plain c ok => exact ⟨c, [], u, rfl, ok.1, if_pos ok.2.1⟩
  | escape e ok =>
    have hall : ∀ e ∈ escapes, e.1 ≠ 'u' ∧ unescapeChar e.1 = e.2 := by decide
    obtain ⟨hu, hchar⟩ := hall e ok
    refine ⟨'\\', [e.1], u, rfl, by decide, ?_⟩
    simp [unescapeStep, hu, hchar, read, bytes]
  | unit q ok =>
    obtain ⟨h0, hhigh, hlow⟩ := ok
    have hhigh' : ¬(0xD800 ≤ q.value ∧ q.value ≤ 0xDBFF) := hhigh
    have hlow' : ¬(0xDC00 ≤ q.value ∧ q.value ≤ 0xDFFF) := hlow
    have hput : putUtf8 q.value = (Utf8.encode q.value).map Char.ofNat :=
      putUtf8_eq (Nat.lt_trans q.value_lt (by decide))
    have hlen : ¬(q.text ++ rest).length < 4 := by simp [Quad.text]
    refine ⟨'\\', 'u' :: q.text, (written q.value u.uc2 rest).2.1, rfl, by decide, ?_⟩
    have htrans : transcode u (q.text ++ rest) = some (written q.value u.uc2 rest) := by
      rw [transcode, if_neg hlen, q.scan4x_text]
      simp only [Option.some_or]
      rw [if_neg (not_or.mpr ⟨hlow', h0⟩), if_neg hhigh']
      rfl
    rw [List.cons_append, unescapeStep_unit, htrans, written, hput]
    rfl
  | pair high low ok =>
    obtain ⟨hh, hl⟩ := ok
    have hput : putUtf8 (pairRead high low) =
        (Utf8.encode (pairRead high low)).map Char.ofNat :=
      putUtf8_eq (Nat.lt_trans (pairRead_bounds hh hl).2 (by decide))
    have hlow : lowSurrogate high.value u.uc2 (high.text ++ '\\' :: 'u' :: (low.text ++ rest)) =
        some (written (pairRead high low) (some low.value) rest) := by
      have hlen : ¬(high.text ++ '\\' :: 'u' :: (low.text ++ rest)).length < 10 := by
        simp [Quad.text]
      have hdrop : (high.text ++ '\\' :: 'u' :: (low.text ++ rest)).drop 6 = low.text ++ rest := rfl
      have hrange : ¬(low.value < 0xDC00 ∨ 0xDFFF < low.value) := by
        unfold Quad.Low at hl
        omega
      rw [lowSurrogate, if_neg hlen, hdrop, low.scan4x_text]
      simp only [Option.some_or]
      rw [if_neg hrange]
      rfl
    have htrans : transcode u (high.text ++ '\\' :: 'u' :: (low.text ++ rest)) =
        some (written (pairRead high low) (some low.value) rest) := by
      have hlen : ¬(high.text ++ '\\' :: 'u' :: (low.text ++ rest)).length < 4 := by
        simp [Quad.text]
      have hrange : ¬((0xDC00 ≤ high.value ∧ high.value ≤ 0xDFFF) ∨ high.value = 0) := by
        unfold Quad.High at hh
        omega
      rw [transcode, if_neg hlen, high.scan4x_text]
      simp only [Option.some_or]
      rw [if_neg hrange, if_pos (And.intro hh.1 hh.2), if_neg (by simp [Quad.text]), hlow]
    refine ⟨'\\', 'u' :: (high.text ++ '\\' :: 'u' :: low.text),
      (written (pairRead high low) (some low.value) rest).2.1, rfl, by decide, ?_⟩
    rw [List.cons_append, List.append_assoc, List.cons_append, List.cons_append,
      unescapeStep_unit, htrans, written, hput]
    rfl

/-- The first loop at a piece. -/
theorem scanLength_text (p : Piece) (rest : Text) :
    scanLength (p.text ++ rest) = (scanLength rest).map (· + p.cost) := by
  have hunit : ∀ t : Text,
      scanLength ('\\' :: 'u' :: t) = (scanLength t).map (· + 1) := fun t => rfl
  cases p with
  | plain c ok =>
    change scanLength (c :: rest) = _
    rw [scanLength.eq_def]
    simp [ok.1, ok.2.1, cost]
  | escape e ok => rfl
  | unit q ok =>
    change scanLength ('\\' :: 'u' :: (q.text ++ rest)) = _
    simp only [hunit, q.scanLength_text, Option.map_map, cost]
    rfl
  | pair high low ok =>
    have hsplit : (pair high low ok).text ++ rest =
        '\\' :: 'u' :: (high.text ++ '\\' :: 'u' :: (low.text ++ rest)) := by
      simp [text]
    simp only [hsplit, hunit, Quad.scanLength_text, Option.map_map, cost]
    rfl

theorem read_length_le (p : Piece) : p.read.length ≤ p.cost := by
  have hencode : ∀ n < 2097152, ((Utf8.encode n).map Char.ofNat).length ≤ 4 := by
    intro n hn
    rw [List.length_map, Utf8.encode, List.length_cons, Utf8.tail_length]
    unfold Utf8.extra
    split_ifs <;> omega
  cases p with
  | plain c ok => exact Nat.le_refl 1
  | escape e ok => exact Nat.le_refl 1
  | unit q ok =>
    have h := hencode q.value (Nat.lt_trans q.value_lt (by decide))
    change _ ≤ 5
    exact Nat.le_trans h (by decide)
  | pair high low ok =>
    have h := hencode _ (Nat.lt_trans (pairRead_bounds ok.1 ok.2).2 (by decide))
    change _ ≤ 10
    exact Nat.le_trans h (by decide)

theorem toNat_ofNat_byte {n : ℕ} (hn : n < 256) : (Char.ofNat n).toNat = n := by
  rw [Char.ofNat, dif_pos (.inl (Nat.lt_trans hn (by decide)))]
  rfl

theorem map_ofNat_injective {a b : List ℕ} (ha : ∀ n ∈ a, n < 256) (hb : ∀ n ∈ b, n < 256)
    (h : a.map Char.ofNat = b.map Char.ofNat) : a = b := by
  have hback : ∀ l : List ℕ, (∀ n ∈ l, n < 256) → (l.map Char.ofNat).map Char.toNat = l := by
    intro l hl
    have hid : ∀ n ∈ l, (Char.toNat ∘ Char.ofNat) n = id n := fun n hn =>
      toNat_ofNat_byte (hl n hn)
    rw [List.map_map, List.map_congr_left hid, List.map_id]
  rw [← hback a ha, h, hback b hb]

/-- A pair is read right in half of the planes. -/
theorem read_eq_iff (p : Piece) : p.read = p.bytes ↔ p.Kept := by
  cases p with
  | plain c ok => exact iff_of_true rfl trivial
  | escape e ok => exact iff_of_true rfl trivial
  | unit q ok => exact iff_of_true rfl trivial
  | pair high low ok =>
    obtain ⟨hh, hl⟩ := ok
    have hchar := pairChar_bounds hh hl
    have hread := pairRead_bounds hh hl
    constructor
    · intro h
      have heq := map_ofNat_injective (Utf8.encode_bytes (by omega))
        (Utf8.encode_bytes (by omega)) h
      have hsame := Utf8.encode_injective (by omega) (by omega) heq
      rw [pairRead_eq hh hl] at hsame
      split_ifs at hsame with hplane
      · exact hplane
      · omega
    · intro hplane
      change pairChar high low / 0x10000 % 2 = 1 at hplane
      change (Utf8.encode (pairRead high low)).map Char.ofNat = _
      rw [pairRead_eq hh hl, if_pos hplane]
      rfl

end Piece

/-! ## Strings -/

/-- What stands between the quotes. -/
def spelled (ps : List Piece) : Text := ps.flatMap Piece.text

/-- A string ends at a quote, or at the end of the text. -/
def Ends : Text → Prop
  | [] => True
  | c :: _ => c = '"'

theorem unescape_pieces (ps : List Piece) {rest : Text} (hrest : Ends rest) (u : Units) {n : ℕ}
    (hn : (spelled ps ++ rest).length < n) :
    unescape n u (spelled ps ++ rest) = .ok (ps.flatMap Piece.read, rest) := by
  induction ps generalizing u n with
  | nil =>
    obtain ⟨n, rfl⟩ : ∃ k, n = k + 1 := ⟨n - 1, by omega⟩
    cases rest with
    | nil => rfl
    | cons c t =>
      have hc : c = '"' := hrest
      exact if_pos hc
  | cons p ps ih =>
    obtain ⟨n, rfl⟩ : ∃ k, n = k + 1 := ⟨n - 1, by omega⟩
    obtain ⟨c, t, u', htext, hquote, hstep⟩ := p.unescapeStep_text u (spelled ps ++ rest)
    have hsplit : spelled (p :: ps) ++ rest = c :: (t ++ (spelled ps ++ rest)) := by
      simp [spelled, htext]
    rw [hsplit] at hn ⊢
    have hlen : (spelled ps ++ rest).length < n := by
      rw [List.length_cons, List.length_append] at hn
      omega
    rw [unescape, if_neg hquote, hstep]
    simp only [ih u' hlen]
    rfl

theorem scanLength_pieces (ps : List Piece) {rest : Text} (hrest : Ends rest) :
    scanLength (spelled ps ++ rest) = some (ps.map Piece.cost).sum := by
  induction ps with
  | nil =>
    cases rest with
    | nil => rfl
    | cons c t =>
      have hc : c = '"' := hrest
      change scanLength (c :: t) = some 0
      rw [scanLength.eq_def]
      exact if_pos hc
  | cons p ps ih =>
    have hsplit : spelled (p :: ps) ++ rest = p.text ++ (spelled ps ++ rest) := by
      simp [spelled]
    rw [hsplit, p.scanLength_text, ih, Option.map_some, List.map_cons, List.sum_cons,
      Nat.add_comm]

theorem read_length_le (ps : List Piece) :
    (ps.flatMap Piece.read).length ≤ (ps.map Piece.cost).sum := by
  induction ps with
  | nil => exact Nat.le_refl 0
  | cons p ps ih =>
    rw [List.flatMap_cons, List.length_append, List.map_cons, List.sum_cons]
    exact Nat.add_le_add p.read_length_le ih

theorem flatMap_read {ps : List Piece} (h : ∀ p ∈ ps, p.Kept) :
    ps.flatMap Piece.read = ps.flatMap Piece.bytes :=
  List.flatMap_congr fun p hp => p.read_eq_iff.mpr (h p hp)

/-- An `int` counts the string, between its quotes. -/
def Short (ps : List Piece) : Prop := ((spelled ps).length : ℤ) < intMax

/-- The first loop counts no more than there is. -/
theorem cost_le_length (ps : List Piece) : (ps.map Piece.cost).sum ≤ (spelled ps).length := by
  induction ps with
  | nil => exact Nat.le_refl 0
  | cons p ps ih =>
    have hp : p.cost ≤ p.text.length := by
      cases p <;> simp [Piece.cost, Piece.text, Quad.text]
    rw [List.map_cons, List.sum_cons, spelled, List.flatMap_cons, List.length_append]
    exact Nat.add_le_add hp ih

/-- A string is read piece by piece, and what is written stays in the buffer. -/
theorem parseString_pieces {ps : List Piece} (hshort : Short ps) {rest : Text} (hrest : Ends rest) :
    parseString ('"' :: (spelled ps ++ rest)) = .ok (ps.flatMap Piece.read, rest.tail) := by
  have hread := unescape_pieces ps hrest {} (Nat.lt_succ_self _)
  have hcost : ¬intMax < ((ps.map Piece.cost).sum : ℕ) + 1 := by
    have hle := cost_le_length ps
    unfold Short at hshort
    omega
  simp only [parseString, ne_eq, not_true_eq_false, if_false, scanLength_pieces ps hrest, hread,
    if_neg hcost]
  exact if_pos (read_length_le ps)

/-- A string that is read as it is meant. -/
def Readable (ps : List Piece) : Prop := Short ps ∧ ∀ p ∈ ps, p.Kept

theorem parseString_readable {ps : List Piece} (hps : Readable ps) (rest : Text) :
    parseString ('"' :: (spelled ps ++ '"' :: rest)) = .ok (ps.flatMap Piece.bytes, rest) := by
  rw [parseString_pieces hps.1 (show Ends ('"' :: rest) from rfl), flatMap_read hps.2]
  rfl

/-- The characters of a string come out as the standard says exactly if each of its surrogate pairs
stands for a character in a plane with an odd number: the bits are put together by `|`, where the
highest of them has to be added. -/
theorem parseString_exact {ps : List Piece} (hshort : Short ps) (rest : Text) :
    (∃ s, parseString ('"' :: (spelled ps ++ '"' :: rest)) = .ok (s, rest)) ∧
      (parseString ('"' :: (spelled ps ++ '"' :: rest)) = .ok (ps.flatMap Piece.bytes, rest) ↔
        ∀ p ∈ ps, p.Kept) := by
  have hread := parseString_pieces hshort (show Ends ('"' :: rest) from rfl)
  have hlength : ∀ p : Piece, p.read.length = p.bytes.length := by
    intro p
    cases p with
    | pair high low ok =>
      have hfour : ∀ n, 65536 ≤ n → n < 1114112 →
          ((Utf8.encode n).map Char.ofNat).length = 4 := by
        intro n hn hn'
        rw [List.length_map, Utf8.encode, List.length_cons, Utf8.tail_length]
        unfold Utf8.extra
        split_ifs <;> omega
      have hr := Piece.pairRead_bounds ok.1 ok.2
      have hc := Piece.pairChar_bounds ok.1 ok.2
      exact (hfour _ hr.1 hr.2).trans (hfour _ hc.1 hc.2).symm
    | plain c ok => rfl
    | escape e ok => rfl
    | unit q ok => rfl
  have hall : ps.flatMap Piece.read = ps.flatMap Piece.bytes ↔ ∀ p ∈ ps, p.Kept := by
    clear hshort hread
    induction ps with
    | nil => exact iff_of_true rfl (List.forall_mem_nil _)
    | cons p ps ih =>
      rw [List.flatMap_cons, List.flatMap_cons, List.forall_mem_cons, ← ih, ← p.read_eq_iff]
      exact ⟨fun h => List.append_inj h (hlength p), fun h => by rw [h.1, h.2]⟩
  refine ⟨⟨_, hread⟩, ?_⟩
  rw [hread, ← hall]
  exact ⟨fun h => congrArg Prod.fst (Except.ok.inj h), fun h => by rw [h]; rfl⟩

/-- `"\u00e9\ud83d\ude00"`. -/
theorem parseString_exact_smile :
    ∃ ps : List Piece, spelled ps = ['\\', 'u', '0', '0', 'e', '9', '\\', 'u', 'd', '8', '3', 'd',
        '\\', 'u', 'd', 'e', '0', '0'] ∧
      parseString ('"' :: (spelled ps ++ ['"', ','])) = .ok (ps.flatMap Piece.bytes, [',']) := by
  refine ⟨[.unit (quadOf 0xE9) (by decide), .pair (quadOf 0xD83D) (quadOf 0xDE00) (by decide)], rfl,
    (parseString_exact (by unfold Short; decide) [',']).2.mpr ?_⟩
  refine List.forall_mem_cons.mpr ⟨trivial, List.forall_mem_singleton.mpr ?_⟩
  change pairChar (quadOf 0xD83D) (quadOf 0xDE00) / 0x10000 % 2 = 1
  decide

/-! ## Writing -/

/-- What `print_string_ptr` writes for a character is a piece that is read as the character. -/
theorem exists_piece {c : Char} (hc : c ≠ '\x00') :
    ∃ p : Piece, p.text = escapeChar c ∧ p.Kept ∧ p.bytes = [c] := by
  by_cases hplain : 31 < c.toNat ∧ c ≠ '"' ∧ c ≠ '\\'
  · exact ⟨.plain c ⟨hplain.2.1, hplain.2.2, hc⟩, (if_pos hplain).symm, trivial, rfl⟩
  by_cases hspecial : ∃ e ∈ escapes, e.2 = c ∧ e.1 ≠ '/'
  · obtain ⟨e, he, rfl, hslash⟩ := hspecial
    have hall : ∀ e ∈ escapes, e.1 ≠ '/' → escapeChar e.2 = ['\\', e.1] := by decide
    exact ⟨.escape e he, (hall e he hslash).symm, trivial, rfl⟩
  · have hne : ∀ e ∈ escapes, e.1 ≠ '/' → c ≠ e.2 := fun e he hslash hc =>
      hspecial ⟨e, he, hc.symm, hslash⟩
    have hquote : c ≠ '"' := hne ('"', '"') (by decide) (by decide)
    have hback : c ≠ '\\' := hne ('\\', '\\') (by decide) (by decide)
    have h8 : c ≠ byte 8 := hne ('b', '\x08') (by decide) (by decide)
    have h12 : c ≠ byte 12 := hne ('f', '\x0c') (by decide) (by decide)
    have h10 : c ≠ byte 10 := hne ('n', '\n') (by decide) (by decide)
    have h13 : c ≠ byte 13 := hne ('r', '\r') (by decide) (by decide)
    have h9 : c ≠ byte 9 := hne ('t', '\t') (by decide) (by decide)
    have hlow : c.toNat ≤ 31 := by
      by_contra hlow
      exact hplain ⟨by omega, hquote, hback⟩
    have hpos : c.toNat ≠ 0 := fun h => hc (Char.toNat_inj.mp h)
    have hvalue : (quadOf c.toNat).value = c.toNat := quadOf_value (by omega)
    have hencode : (Utf8.encode (quadOf c.toNat).value).map Char.ofNat = [c] := by
      have hsmall : c.toNat < 128 := by omega
      rw [hvalue]
      simp [Utf8.encode, Utf8.extra, hsmall, Utf8.mark, Utf8.tail]
    refine ⟨.unit (quadOf c.toNat) ⟨by rw [hvalue]; exact hpos, ?_, ?_⟩, ?_, trivial, hencode⟩
    · unfold Quad.High
      omega
    · unfold Quad.Low
      omega
    · rw [escapeChar, if_neg hplain, if_neg hback, if_neg hquote, if_neg h8, if_neg h12, if_neg h10,
        if_neg h13, if_neg h9]
      rfl

theorem exists_pieces {s : Text} (hs : '\x00' ∉ s) :
    ∃ ps : List Piece, spelled ps = s.flatMap escapeChar ∧ (∀ p ∈ ps, p.Kept) ∧
      ps.flatMap Piece.bytes = s := by
  induction s with
  | nil => exact ⟨[], rfl, List.forall_mem_nil _, rfl⟩
  | cons c s ih =>
    rw [List.mem_cons, not_or] at hs
    obtain ⟨p, htext, hkept, hbytes⟩ := exists_piece (Ne.symm hs.1)
    obtain ⟨ps, hspelled, hkepts, hbytess⟩ := ih hs.2
    refine ⟨p :: ps, ?_, List.forall_mem_cons.mpr ⟨hkept, hkepts⟩, ?_⟩
    · rw [List.flatMap_cons, ← htext, ← hspelled]
      rfl
    · rw [List.flatMap_cons, hbytes, hbytess]
      rfl

/-- The first loop of `print_string_ptr` counts what the second one writes. -/
theorem escapedLength_eq (s : Text) : escapedLength s = (s.flatMap escapeChar).length := by
  induction s with
  | nil => rfl
  | cons c s ih =>
    rw [escapedLength, List.flatMap_cons, List.length_append, ih]
    congr 1
    split_ifs with hspecial hlow
    · have hall : ['"', '\\', byte 8, byte 12, byte 10, byte 13, byte 9].all
          (fun c => (escapeChar c).length == 2) = true := by decide
      exact (beq_iff_eq.mp (List.all_eq_true.mp hall c hspecial)).symm
    · simp only [List.mem_cons, List.not_mem_nil, or_false, not_or] at hspecial
      obtain ⟨hquote, hback, h8, h12, h10, h13, h9⟩ := hspecial
      rw [escapeChar, if_neg fun h => absurd h.1 (by omega), if_neg hback, if_neg hquote,
        if_neg h8, if_neg h12, if_neg h10, if_neg h13, if_neg h9]
      rfl
    · simp only [List.mem_cons, List.not_mem_nil, or_false, not_or] at hspecial
      rw [escapeChar, if_pos ⟨by omega, hspecial.1, hspecial.2.1⟩]
      rfl

/-- The `int` of `print_string_ptr` does not overflow. -/
def Countable (s : Text) : Prop := ((escapedLength s + 3 : ℕ) : ℤ) ≤ intMax

instance (s : Text) : Decidable (Countable s) := inferInstanceAs (Decidable (_ ≤ _))

theorem printStringPtr_some {s : Text} (hs : Countable s) :
    printStringPtr (some s) = some ('"' :: s.flatMap escapeChar ++ ['"']) := by
  have hfits : ('"' :: s.flatMap escapeChar ++ ['"']).length + 1 ≤ escapedLength s + 3 := by
    rw [escapedLength_eq]
    simp
  rw [printStringPtr, buffer]
  exact if_pos ⟨hs, hfits⟩

/-- What is printed of a string can be read. -/
theorem Countable.exists_pieces {s : Text} (hlen : Countable s) (hs : '\x00' ∉ s) :
    ∃ ps : List Piece, spelled ps = s.flatMap escapeChar ∧ Readable ps ∧
      ps.flatMap Piece.bytes = s := by
  obtain ⟨ps, hspelled, hkept, hbytes⟩ := Json.exists_pieces hs
  refine ⟨ps, hspelled, ⟨?_, hkept⟩, hbytes⟩
  unfold Countable at hlen
  rw [escapedLength_eq] at hlen
  unfold Short
  rw [hspelled]
  omega

/-- What `print_string_ptr` allocates is what it writes, and `parse_string` reads it back, whatever
stands behind it. -/
theorem parseString_print {s : Text} (hs : '\x00' ∉ s) (hlen : Countable s) (rest : Text) :
    ∃ out, printStringPtr (some s) = some out ∧ out.length + 1 = escapedLength s + 3 ∧
      parseString (out ++ rest) = .ok (s, rest) := by
  obtain ⟨ps, hspelled, hreadable, hbytes⟩ := hlen.exists_pieces hs
  refine ⟨_, printStringPtr_some hlen, by simp [escapedLength_eq], ?_⟩
  have hparse := parseString_readable hreadable rest
  rw [hbytes, hspelled] at hparse
  simpa using hparse

theorem parseString_print_newline :
    ∃ out, printStringPtr (some ['a', '\n', '"']) = some out ∧
      out.length + 1 = escapedLength ['a', '\n', '"'] + 3 ∧
      parseString (out ++ [',', ' ']) = .ok (['a', '\n', '"'], [',', ' ']) :=
  parseString_print (by decide) (by decide) [',', ' ']

end DevFramework.Json
