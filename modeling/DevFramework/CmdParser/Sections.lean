import DevFramework.CmdParser.Output
import DevFramework.Foundations.Groups

/-! # What a definition says

A definition is a list of sections. A section runs from its `FILENAME` to the next one; its commands
are the `CMDNAME`s in it, and a command has the comments that follow it on its own line, of which
only the first block comment counts. `Item` is a child of the root as the parser builds it, and
`items` are the children that a list of sections gives.
-/
namespace DevFramework.CmdParser
open Groups
set_option autoImplicit false
set_option maxHeartbeats 250000

structure Command where
  name : Text
  comments : List Text
  deriving DecidableEq

structure Section where
  name : Text
  range : Option (Digits × Digits)
  commands : List Command
  deriving DecidableEq

/-! ## Reading the tokens -/

/-- A block comment that ends on the line. -/
def Token.isBlockOn (line : ℕ) (t : Token) : Bool :=
  match t.lexeme with
  | .globalCmt _ => t.yylineno = line
  | _ => false

/-- What a token gives to the command on the line; `block` says that a block comment has been met on
the line already. -/
def Token.commentOn (line : ℕ) (block : Bool) (t : Token) : Option Text :=
  if t.yylineno = line then
    match t.lexeme with
    | .sglineCmt text => some text
    | .globalCmt text => if block then none else some text
    | _ => none
  else none

/-- The comments that the tokens after a command give to it. -/
def attached (line : ℕ) : Bool → List Token → List Text
  | _, [] => []
  | block, t :: ts =>
    (t.commentOn line block).toList ++ attached line (block || t.isBlockOn line) ts

def commandOf (g : (Text × ℕ) × List Token) : Command := ⟨g.1.1, attached g.1.2 false g.2⟩

def sectionOf (g : Text × List Token) : Section where
  name := g.1
  range := g.2.findSome? Token.takeBits?
  commands := (groups Token.cmdName? g.2).map commandOf

/-- The sections of a definition. -/
def sections (ts : List Token) : List Section := (groups Token.fileName? ts).map sectionOf

theorem attached_append (line : ℕ) (block : Bool) (ts : List Token) (t : Token) :
    attached line block (ts ++ [t]) = attached line block ts ++
      (t.commentOn line (block || ts.any (Token.isBlockOn line))).toList := by
  induction ts generalizing block with
  | nil => simp [attached]
  | cons x ts ih => simp [attached, ih, Bool.or_assoc]

/-! ## The children of the root -/

/-- A child of the root: a file-name node under `OT_CREATE`, a command's node and its comments under
`OT_WRITE`, or an `OT_CLOSE`. -/
inductive Item where
  | create (name : Text)
  | write (range name : Text) (sid : BitVec 32) (comments : List Text)
  | close
  deriving DecidableEq

/-- The text of the section's range, without its brackets. -/
def Section.rangeText (s : Section) : Text :=
  (s.range.map fun b => CmdParser.rangeText b.1 b.2).getD []

/-- The item of the section's `i`-th command. -/
def Section.item (s : Section) (i : ℕ) (c : Command) : Item :=
  .write s.rangeText c.name (BitVec.ofNat 32 i) c.comments

def Section.items (s : Section) : List Item := .create s.name :: s.commands.mapIdx s.item

/-- Between two sections the file of the first is closed. -/
def items (ss : List Section) : List Item := (ss.flatMap fun s => .close :: s.items).tail

/-- What stands before the items of a section that follows these. -/
def opening (ss : List Section) : List Item := if ss.isEmpty then [] else items ss ++ [.close]

theorem items_append (ss : List Section) (s : Section) :
    items (ss ++ [s]) = opening ss ++ s.items := by
  cases ss with
  | nil => simp [items, opening]
  | cons s' ss => simp [items, opening]

theorem Section.items_append_command (s : Section) (c : Command) :
    ({ s with commands := s.commands ++ [c] } : Section).items =
      s.items ++ [s.item s.commands.length c] := by
  simp only [Section.items, List.mapIdx_append, List.cons_append, List.mapIdx_cons,
    List.mapIdx_nil, Nat.zero_add]
  rfl

end DevFramework.CmdParser
