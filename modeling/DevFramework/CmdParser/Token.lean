import Mathlib.Data.List.Basic
import Mathlib.Algebra.Order.Ring.Int
import Mathlib.Tactic.Common

/-! # Tokens of a command definition (FlexParser/Flex/lex.l)

A text is a list of characters, each of which stands for one byte. A token has the text that its
rule of the lexer matched, cut into the parts that the rule names, and the value of `yylineno` when
its action runs.
-/
namespace DevFramework.CmdParser
set_option autoImplicit false
set_option maxHeartbeats 250000

abbrev Text := List Char

/-- `[0-9]+`. -/
structure Digits where
  digits : List (Fin 10)
  nonempty : digits ≠ []
  deriving DecidableEq

namespace Digits

def text (d : Digits) : Text := d.digits.map fun (i : Fin 10) => Nat.digitChar i

/-- The number that the digits write. -/
def value (d : Digits) : ℕ := d.digits.foldl (fun (n : ℕ) (i : Fin 10) => 10 * n + i) 0

def digit (i : Fin 10) : Digits := ⟨[i], List.cons_ne_nil _ _⟩

end Digits

/-- `[a-zA-Z_]*`. -/
structure SeriesName where
  chars : Text
  admitted : ∀ c ∈ chars, c.isAlpha ∨ c = '_'
  deriving DecidableEq

def SeriesName.a : SeriesName := ⟨['a'], by simp⟩

/-- `[a-zA-Z0-9_]+`. -/
structure CmdIdent where
  chars : Text
  nonempty : chars ≠ []
  admitted : ∀ c ∈ chars, c.isAlphanum ∨ c = '_'
  deriving DecidableEq

def CmdIdent.x : CmdIdent := ⟨['x'], List.cons_ne_nil _ _, by simp⟩

/-- What a rule of the lexer matched. The text of a comment is kept whole. -/
inductive Lexeme where
  | globalCmt (text : Text)
  | sglineCmt (text : Text)
  | index (number : Digits)
  | fileName (name : SeriesName)
  | takeBits (left right : Digits)
  | cmdName (id : CmdIdent) (spaces : ℕ)
  deriving DecidableEq

/-- The text of the range between the brackets. -/
def rangeText (left right : Digits) : Text := left.text ++ '-' :: right.text

/-- `yytext`. -/
def Lexeme.text : Lexeme → Text
  | .globalCmt text => text
  | .sglineCmt text => text
  | .index number => '[' :: (number.text ++ [']'])
  | .fileName name => '[' :: (name.chars ++ [']'])
  | .takeBits left right => '[' :: (rangeText left right ++ [']'])
  | .cmdName id spaces => id.chars ++ (List.replicate spaces ' ' ++ [';'])

structure Token where
  lexeme : Lexeme
  yylineno : ℕ
  pos : 0 < yylineno
  deriving DecidableEq

/-! ## What a token starts -/

/-- The section name of a `FILENAME`. -/
def Token.fileName? (t : Token) : Option Text :=
  match t.lexeme with
  | .fileName name => some name.chars
  | _ => none

/-- The two numbers of a `TAKEBITS`. -/
def Token.takeBits? (t : Token) : Option (Digits × Digits) :=
  match t.lexeme with
  | .takeBits left right => some (left, right)
  | _ => none

/-- The token of a `CMDNAME` without its final `;`, and the line it is on. -/
def Token.cmdName? (t : Token) : Option (Text × ℕ) :=
  match t.lexeme with
  | .cmdName id spaces => some (id.chars ++ List.replicate spaces ' ', t.yylineno)
  | _ => none

end DevFramework.CmdParser
