import DevFramework.Platform
import DevFramework.Json.Items
import DevFramework.Foundations.Utf8
import DevFramework.Foundations.Decimal

/-! # Strings in a text (utility/parser/src/cJSON.cpp)

A text in memory is a list of characters, its end the NUL; a pointer into it is the rest of the
text from there on. The characters are bytes. Lengths are counted in an `int`: where it overflows,
the parser goes wrong, and the printer gives no text.
-/
namespace DevFramework.Json
set_option autoImplicit false
set_option maxHeartbeats 250000

/-- Why a part of the parser returns null, or what it does wrong: `ep` is left pointing at a text;
memory outside of a text or of a buffer is touched, a variable read that was never written, or an
`int` overflows. `fuel` is no result of the source. -/
inductive Fail where
  | error (ep : Text)
  | fault
  | fuel
  deriving DecidableEq, Repr

/-- A byte as a character. -/
def byte (n : ℕ) : Char := Char.ofNat (n % 256)

/-! ## Reading -/

/-- The value of a hexadecimal digit. -/
def hexDigit (c : Char) : Option ℕ :=
  if '0' ≤ c ∧ c ≤ '9' then some (c.toNat - 48)
  else if 'a' ≤ c ∧ c ≤ 'f' then some (c.toNat - 87)
  else if 'A' ≤ c ∧ c ≤ 'F' then some (c.toNat - 55)
  else none

/-- The number that hexadecimal digits spell, if there are any. -/
def hexValue (field : Text) : Option ℕ :=
  match field.map hexDigit |>.takeWhile Option.isSome with
  | [] => none
  | ds => some (ds.foldl (fun n d => n * 16 + d.getD 0) 0)

/-- `0x` may stand before the digits. -/
def hexField (field : Text) : Option ℕ :=
  if "0x".toList <+: field ∨ "0X".toList <+: field then hexValue (field.drop 2)
  else hexValue field

/-- What `sscanf(s, "%4x", &uc)` stores, if anything. -/
def scan4x (s : Text) : Option ℕ :=
  let field := (s.dropWhile Decimal.isSpace).take 4
  if field.head? = some '-' then (hexField field.tail).map fun n => (4294967296 - n) % 4294967296
  else if field.head? = some '+' then hexField field.tail
  else hexField field

def firstByteMark : ℕ → ℕ
  | 2 => 0xC0
  | 3 => 0xE0
  | 4 => 0xF0
  | 5 => 0xF8
  | 6 => 0xFC
  | _ => 0

/-- The `switch (len)`, which writes from the last byte to the first, `k` bytes before `out`. -/
def putBytes (mark : ℕ) : ℕ → ℕ → Text → Text
  | 0, uc, out => byte (uc ||| mark) :: out
  | k + 1, uc, out => putBytes mark k (uc >>> 6) (byte ((uc ||| 0x80) &&& 0xBF) :: out)

/-- How many bytes a character takes. -/
def utf8Len (uc : ℕ) : ℕ :=
  if uc < 0x80 then 1 else if uc < 0x800 then 2 else if uc < 0x10000 then 3 else 4

/-- The bytes of a character. -/
def putUtf8 (uc : ℕ) : Text := putBytes (firstByteMark (utf8Len uc)) (utf8Len uc - 1) uc []

/-- The variables `uc` and `uc2`, where they were written. -/
structure Units where
  uc : Option ℕ := none
  uc2 : Option ℕ := none
  deriving DecidableEq, Repr

/-- What a pass of the loop writes, the variables, and the text at `ptr`. -/
abbrev Pass := Text × Units × Text

/-- A character is written: the `switch` leaves in `uc` what is left of it. -/
def written (uc : ℕ) (uc2 : Option ℕ) (rest : Text) : Pass :=
  (putUtf8 uc, ⟨some (uc >>> (6 * (utf8Len uc - 1))), uc2⟩, rest)

/-- The second half of a surrogate pair; `t` is the text behind the `u` of the first half. -/
def lowSurrogate (uc : ℕ) (uc2 : Option ℕ) (t : Text) : Option Pass :=
  if t.length < 10 then none
  else
    match (scan4x (t.drop 6)).or uc2 with
    | none => none
    | some uc2 =>
      if uc2 < 0xDC00 ∨ 0xDFFF < uc2 then some ([], ⟨some uc, some uc2⟩, t.drop 10)
      else
        some (written (0x10000 ||| (uc &&& 0x3FF) <<< 10 ||| uc2 &&& 0x3FF) (some uc2) (t.drop 10))

/-- `case 'u'`; `t` is the text behind the `u`. -/
def transcode (u : Units) (t : Text) : Option Pass :=
  if t.length < 4 then none
  else
    match (scan4x t).or u.uc with
    | none => none
    | some uc =>
      if (0xDC00 ≤ uc ∧ uc ≤ 0xDFFF) ∨ uc = 0 then some ([], ⟨some uc, u.uc2⟩, t.drop 4)
      else if 0xD800 ≤ uc ∧ uc ≤ 0xDBFF then
        if t[4]? ≠ some '\\' ∨ t[5]? ≠ some 'u' then some ([], ⟨some uc, u.uc2⟩, t.drop 4)
        else lowSurrogate uc u.uc2 t
      else some (written uc u.uc2 (t.drop 4))

/-- A character behind a backslash that is no `u`. -/
def unescapeChar (c : Char) : Char :=
  if c = 'b' then byte 8
  else if c = 'f' then byte 12
  else if c = 'n' then byte 10
  else if c = 'r' then byte 13
  else if c = 't' then byte 9
  else c

/-- One pass of the second loop of `parse_string`, at the character `c`. -/
def unescapeStep (u : Units) (c : Char) (t : Text) : Option Pass :=
  if c ≠ '\\' then some ([c], u, t)
  else
    match t with
    | [] => none
    | c :: t => if c = 'u' then transcode u t else some ([unescapeChar c], u, t)

/-- The second loop of `parse_string`: what it writes, and the text where it ends. -/
def unescape : ℕ → Units → Text → Except Fail (Text × Text)
  | 0, _, _ => .error .fuel
  | _ + 1, _, [] => .ok ([], [])
  | n + 1, u, c :: t =>
    if c = '"' then .ok ([], c :: t)
    else
      match unescapeStep u c t with
      | none => .error .fault
      | some (w, u, t) => (unescape n u t).map fun r => (w ++ r.1, r.2)

/-- The first loop of `parse_string`: the length of the string, roughly. -/
def scanLength : Text → Option ℕ
  | [] => some 0
  | c :: t =>
    if c = '"' then some 0
    else if c = '\\' then
      match t with
      | [] => none
      | _ :: t => (scanLength t).map (· + 1)
    else (scanLength t).map (· + 1)

/-- `parse_string`: the string, and the text behind it. The buffer has a byte more than the length
of the first loop, for the NUL; both are an `int`. -/
def parseString (str : Text) : Except Fail (Text × Text) :=
  match str with
  | [] => .error (.error [])
  | c :: t =>
    if c ≠ '"' then .error (.error (c :: t))
    else
      match scanLength t with
      | none => .error .fault
      | some len =>
        if intMax < len + 1 then .error .fault
        else
          match unescape (t.length + 1) {} t with
          | .error e => .error e
          | .ok (out, rest) => if out.length ≤ len then .ok (out, rest.tail) else .error .fault

/-! ## Writing -/

/-- `%04x`. -/
def hex4 (n : ℕ) : Text :=
  [Nat.digitChar (n / 4096 % 16), Nat.digitChar (n / 256 % 16), Nat.digitChar (n / 16 % 16),
    Nat.digitChar (n % 16)]

/-- What a character becomes. -/
def escapeChar (c : Char) : Text :=
  if 31 < c.toNat ∧ c ≠ '"' ∧ c ≠ '\\' then [c]
  else if c = '\\' then ['\\', '\\']
  else if c = '"' then ['\\', '"']
  else if c = byte 8 then ['\\', 'b']
  else if c = byte 12 then ['\\', 'f']
  else if c = byte 10 then ['\\', 'n']
  else if c = byte 13 then ['\\', 'r']
  else if c = byte 9 then ['\\', 't']
  else '\\' :: 'u' :: hex4 c.toNat

/-- The first loop of `print_string_ptr`. -/
def escapedLength : Text → ℕ
  | [] => 0
  | c :: t =>
    (if c ∈ ['"', '\\', byte 8, byte 12, byte 10, byte 13, byte 9] then 2
      else if c.toNat < 32 then 6 else 1) + escapedLength t

/-- A buffer of `size` bytes, an `int`, takes a text and its NUL. Nothing is returned where the `int`
overflows or more is written than the buffer holds. -/
def buffer (size : ℕ) (out : Text) : Option Text :=
  if (size : ℤ) ≤ intMax ∧ out.length + 1 ≤ size then some out else none

/-- `print_string_ptr`. -/
def printStringPtr (str : Option Text) : Option Text :=
  match str with
  | none => some []
  | some str => buffer (escapedLength str + 3) ('"' :: str.flatMap escapeChar ++ ['"'])

end DevFramework.Json
