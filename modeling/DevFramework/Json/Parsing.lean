import DevFramework.Json.Printing

/-! # Items from a text (utility/parser/src/cJSON.cpp)

`fuel` bounds how deep values may be nested and how often a loop may be passed; the text is as long
as it gets. What stands behind the value is not looked at.
-/
namespace DevFramework.Json
set_option autoImplicit false
set_option maxHeartbeats 250000

variable {ν : Type}

/-- `skip`. -/
def skip (t : Text) : Text := t.dropWhile fun c => c.toNat ≤ 32

theorem skip_suffix (t : Text) : skip t <:+ t := List.dropWhile_suffix _

/-- A loop over digits, and the text behind them. -/
def overDigits {α : Type} (step : α → ℕ → α) (a : α) (num : Text) : α × Text :=
  ((num.takeWhile Char.isDigit).foldl (fun a c => step a (c.toNat - 48)) a,
    num.dropWhile Char.isDigit)

/-- `subscale=(subscale*10)+(*num++ - '0')`. -/
def subscaleStep (subscale : Option ℤ) (digit : ℕ) : Option ℤ :=
  subscale.bind fun s => if s * 10 + digit ≤ intMax then some (s * 10 + digit) else none

/-- The sign of the exponent. -/
def exponentSign (num : Text) : ℤ × Text :=
  if num.head? = some '+' then (1, num.tail)
  else if num.head? = some '-' then (-1, num.tail)
  else (1, num)

/-- The exponent, and the text behind it. -/
def parseExponent (num : Text) : Option ℤ × Text :=
  if num.head? = some 'e' ∨ num.head? = some 'E' then
    let sign := exponentSign num.tail
    let subscale := overDigits subscaleStep (some 0) sign.2
    (subscale.1.map (· * sign.1), subscale.2)
  else (some 0, num)

/-- `if (*num=='-') sign=-1,num++`. -/
def mantissaSign (num : Text) : ℤ × Text :=
  if num.head? = some '-' then (-1, num.tail) else (1, num)

/-- `if (*num=='0') num++`. -/
def skipZero (num : Text) : Text := if num.head? = some '0' then num.tail else num

section Parse
variable (D : Doubles ν)

/-- `n=(n*10.0)+(*num++ -'0')`. -/
def Doubles.push (n : ν) (digit : ℕ) : ν := D.add (D.mul n (D.ofInt 10)) (D.ofInt digit)

/-- `if (*num>='1' && *num<='9')`, and the loop. -/
def integerDigits (num : Text) : ν × Text :=
  if num.head?.any fun c => c.isDigit && c ≠ '0' then overDigits D.push (D.ofInt 0) num
  else (D.ofInt 0, num)

/-- The digits behind a point, which one has to follow. -/
def fractionDigits (n : ν) (num : Text) : (ν × ν) × Text :=
  if num.head? = some '.' ∧ num[1]?.any Char.isDigit then
    overDigits (fun ns d => (D.push ns.1 d, D.sub ns.2 (D.ofInt 1))) (n, D.ofInt 0) num.tail
  else ((n, D.ofInt 0), num)

/-- `parse_number`: the number, and the text behind it. -/
def parseNumber (num : Text) : Except Fail (ν × Text) :=
  let sign := mantissaSign num
  let n := integerDigits D (skipZero sign.2)
  let scale := fractionDigits D n.1 n.2
  let e := parseExponent scale.2
  match e.1 with
  | none => .error .fault
  | some subscale =>
    .ok (D.mul (D.mul (D.ofInt sign.1) scale.1.1) (D.pow10 (D.add scale.1.2 (D.ofInt subscale))),
      e.2)

/-- A value, its children, and the text behind it. -/
abbrev Parsed (ν : Type) := Except Fail (Value ν × Chain ν × Text)

/-- The entries of an array; `parse` is `parse_value`. -/
def parseElements (parse : Text → Parsed ν) : ℕ → Text → Except Fail (Chain ν × Text)
  | 0, _ => .error .fuel
  | fuel + 1, value =>
    match parse (skip value) with
    | .error e => .error e
    | .ok (v, child, rest) =>
      let value := skip rest
      if value.head? = some ',' then
        (parseElements parse fuel value.tail).map fun r => (.cons none v child r.1, r.2)
      else .ok (.cons none v child .nil, value)

/-- `parse_array`. -/
def parseArray (parse : Text → Parsed ν) (value : Text) : Parsed ν :=
  let value := skip value.tail
  if value.head? = some ']' then .ok (.array, .nil, value.tail)
  else
    match parseElements parse (value.length + 1) value with
    | .error e => .error e
    | .ok (child, value) =>
      if value.head? = some ']' then .ok (.array, child, value.tail)
      else .error (.error value)

/-- The entries of an object. -/
def parseMembers (parse : Text → Parsed ν) : ℕ → Text → Except Fail (Chain ν × Text)
  | 0, _ => .error .fuel
  | fuel + 1, value =>
    match parseString (skip value) with
    | .error e => .error e
    | .ok (string, rest) =>
      let value := skip rest
      if value.head? ≠ some ':' then .error (.error value)
      else
        match parse (skip value.tail) with
        | .error e => .error e
        | .ok (v, child, rest) =>
          let value := skip rest
          if value.head? = some ',' then
            (parseMembers parse fuel value.tail).map fun r => (.cons (some string) v child r.1, r.2)
          else .ok (.cons (some string) v child .nil, value)

/-- `parse_object`. -/
def parseObject (parse : Text → Parsed ν) (value : Text) : Parsed ν :=
  let value := skip value.tail
  if value.head? = some '}' then .ok (.object, .nil, value.tail)
  else
    match parseMembers parse (value.length + 1) value with
    | .error e => .error e
    | .ok (child, value) =>
      if value.head? = some '}' then .ok (.object, child, value.tail)
      else .error (.error value)

/-- `parse_value`. -/
def parseValue : ℕ → Text → Parsed ν
  | 0, _ => .error .fuel
  | fuel + 1, value =>
    if "null".toList <+: value then .ok (.null, .nil, value.drop 4)
    else if "false".toList <+: value then .ok (.bool false, .nil, value.drop 5)
    else if "true".toList <+: value then .ok (.bool true, .nil, value.drop 4)
    else
      match value.head? with
      | none => .error (.error value)
      | some c =>
        if c = '"' then (parseString value).map fun r => (.string r.1, .nil, r.2)
        else if c = '-' ∨ c.isDigit then
          (parseNumber D value).map fun r => (.number r.1, .nil, r.2)
        else if c = '[' then parseArray (parseValue fuel) value
        else if c = '{' then parseObject (parseValue fuel) value
        else .error (.error value)

/-- `cJSON_Parse`. -/
def parse (value : Text) : Except Fail (Value ν × Chain ν) :=
  (parseValue D (value.length + 1) (skip value)).map fun r => (r.1, r.2.1)

end Parse

end DevFramework.Json
