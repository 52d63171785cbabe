import DevFramework.Json.Strings

/-! # Items as text (utility/parser/src/cJSON.cpp)

An item is printed with the items below it, so they stand here as a tree of the shape that `child`
and `next` give it. What `double` and the C library do is a parameter. Memory does not run out, and
`malloc(0)` is not null.
-/
namespace DevFramework.Json
set_option autoImplicit false
set_option maxHeartbeats 250000

/-- What an item holds, besides its name and its children. -/
inductive Value (ν : Type) where
  | null
  | bool (b : Bool)
  | number (n : ν)
  | string (s : Text)
  | array
  | object
  deriving DecidableEq, Repr

/-- An item, its children, and the items behind it. -/
inductive Chain (ν : Type) where
  | nil
  | cons (string : Option Text) (value : Value ν) (child next : Chain ν)
  deriving DecidableEq, Repr

/-- `double`, and the functions and formats of the C library. -/
structure Doubles (ν : Type) where
  ofInt : ℤ → ν
  /-- `(int)d`, for a number in the range of `int`. -/
  toInt : ν → ℤ
  add : ν → ν → ν
  sub : ν → ν → ν
  mul : ν → ν → ν
  le : ν → ν → Bool
  lt : ν → ν → Bool
  fabs : ν → ν
  floor : ν → ν
  /-- `pow(10.0, x)`. -/
  pow10 : ν → ν
  /-- `DBL_EPSILON`. -/
  epsilon : ν
  /-- `1.0e-6`. -/
  millionth : ν
  /-- `%.0f`, `%e`, `%f`. -/
  fmt0 : ν → Text
  fmtE : ν → Text
  fmtF : ν → Text

/-- The integers, which `double` holds: no fraction is asked for. -/
def integers : Doubles ℤ where
  ofInt := id
  toInt := id
  add := (· + ·)
  sub := (· - ·)
  mul := (· * ·)
  le a b := decide (a ≤ b)
  lt a b := decide (a < b)
  fabs a := a.natAbs
  floor := id
  pow10 a := 10 ^ a.toNat
  epsilon := 0
  millionth := 0
  fmt0 := Decimal.decimal
  fmtE := Decimal.decimal
  fmtF := Decimal.decimal

/-- `INT_MIN`. -/
def intMin : ℤ := -2147483648

section Print
variable {ν : Type} (D : Doubles ν)

/-- `print_number`; every item that holds a number has `valueint=(int)valuedouble`. -/
def printNumber (d : ν) : Option Text :=
  let valueint := D.toInt d
  if D.le (D.fabs (D.sub (D.ofInt valueint) d)) D.epsilon ∧ D.le d (D.ofInt intMax) ∧
      D.le (D.ofInt intMin) d then
    buffer 21 (Decimal.decimal valueint)
  else
    buffer 64
      (if D.le (D.fabs (D.sub (D.floor d) d)) D.epsilon then D.fmt0 d
      else if D.lt (D.fabs d) D.millionth ∨ D.lt (D.ofInt 1000000000) (D.fabs d) then D.fmtE d
      else D.fmtF d)

/-- The entries of an array, from the first or from one behind it. -/
def arrayBody (fmt : Bool) : List Text → Text
  | [] => []
  | [ret] => ret
  | ret :: rest => ret ++ (',' :: if fmt then [' '] else []) ++ arrayBody fmt rest

/-- `len` of `print_array`. -/
def arrayLength (fmt : Bool) (entries : List Text) : ℕ :=
  5 + (entries.map fun ret => ret.length + 2 + if fmt then 1 else 0).sum

/-- The output of `print_array`. -/
def arrayText (fmt : Bool) (entries : List Text) : Text := '[' :: arrayBody fmt entries ++ [']']

/-- `print_array`, from what its entries print. -/
def composeArray (fmt : Bool) (entries : List Text) : Option Text :=
  buffer (arrayLength fmt entries) (arrayText fmt entries)

/-- The entries of an object. -/
def objectBody (fmt : Bool) (depth : ℕ) : List (Text × Text) → Text
  | [] => []
  | (str, ret) :: rest =>
    (if fmt then List.replicate depth '\t' else []) ++ str ++
      (':' :: if fmt then ['\t'] else []) ++ ret ++
      (if rest = [] then [] else [',']) ++ (if fmt then ['\n'] else []) ++
      objectBody fmt depth rest

/-- `len` of `print_object`. -/
def objectLength (fmt : Bool) (depth : ℕ) (entries : List (Text × Text)) : ℕ :=
  7 + (if fmt then depth else 0) +
    (entries.map fun e => e.2.length + e.1.length + 2 + if fmt then 2 + depth else 0).sum

/-- The output of `print_object`. -/
def objectText (fmt : Bool) (depth : ℕ) (entries : List (Text × Text)) : Text :=
  ('{' :: if fmt then ['\n'] else []) ++ objectBody fmt depth entries ++
    (if fmt then List.replicate (depth - 1) '\t' else []) ++ ['}']

/-- `print_object`, from what its names and its entries print; `depth` is that of the entries. -/
def composeObject (fmt : Bool) (depth : ℕ) (entries : List (Text × Text)) : Option Text :=
  buffer (objectLength fmt depth entries) (objectText fmt depth entries)

/-- `print_value`, from the names of the children and what they print. -/
def printValue (fmt : Bool) (depth : ℕ) (value : Value ν)
    (children : Option (List (Option Text × Text))) : Option Text :=
  match value with
  | .null => some "null".toList
  | .bool b => some (if b then "true".toList else "false".toList)
  | .number d => printNumber D d
  | .string s => printStringPtr (some s)
  | .array => children.bind fun entries => composeArray fmt (entries.map Prod.snd)
  | .object =>
    children.bind fun entries =>
      (entries.mapM fun e => (printStringPtr e.1).map fun str => (str, e.2)).bind
        (composeObject fmt (depth + 1))

/-- The loops over the children: the name of each and what it prints. -/
def printItems (fmt : Bool) : ℕ → Chain ν → Option (List (Option Text × Text))
  | _, .nil => some []
  | depth, .cons string value child next =>
    (printValue D fmt depth value (printItems fmt (depth + 1) child)).bind fun ret =>
      (printItems fmt depth next).map fun rest => (string, ret) :: rest

/-- `cJSON_Print` and `cJSON_PrintUnformatted` of an item with these children. -/
def print (fmt : Bool) (value : Value ν) (child : Chain ν) : Option Text :=
  printValue D fmt 0 value (printItems D fmt 1 child)

end Print

end DevFramework.Json
