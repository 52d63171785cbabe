import DevFramework.CmdParser.Token
import DevFramework.Foundations.Scanner

/-! # The generated scanner (FlexParser/Flex/lex.flex.cpp)

The tables of `yylex` and its loop. The buffer is what stands from `yytext_ptr` to `yy_n_chars`, the
two end-of-buffer bytes behind it apart; positions count from `yytext_ptr`. The file comes in reads
of any size, of which none is empty: a read of nothing is its end.

The `int`s `yylineno`, `yyleng` and `yy_buf_size` are taken as unbounded: files shorter than 2^31
bytes. `yy_get_next_buffer` always finds room, so doubling the buffer is left out, and so are failed
reads and allocations, which end in `YY_FATAL_ERROR`.
-/
namespace DevFramework.CmdParser
open Rules
set_option autoImplicit false
set_option maxHeartbeats 250000

/-! ## The tables -/

/-- `yy_accept`. -/
def acceptTable : List ℕ :=
  [0, 0, 0, 10, 9, 8, 7, 9, 9, 9, 9, 7, 0, 2, 0, 0, 6, 0, 0, 4, 0, 0, 2, 2,
    0, 3, 0, 1, 2, 0, 0, 0, 5, 0]

/-- `yy_ec`. -/
def ecTable : List ℕ :=
  [0, 1, 1, 1, 1, 1, 1, 1, 1, 2, 3, 1, 1, 4, 1, 1, 1, 1, 1, 1, 1, 1, 1, 1,
    1, 1, 1, 1, 1, 1, 1, 1, 5, 1, 1, 1, 1, 1, 1, 1, 1, 1, 6, 1, 1, 7, 1, 8,
    9, 9, 9, 9, 9, 9, 9, 9, 9, 9, 1, 10, 1, 1, 1, 1, 1, 11, 11, 11, 11, 11, 11, 11,
    11, 11, 11, 11, 11, 11, 11, 11, 11, 11, 11, 11, 11, 11, 11, 11, 11, 11, 11, 12, 1, 13, 1, 11,
    1, 11, 11, 11, 11, 11, 11, 11, 11, 11, 11, 11, 11, 11, 11, 11, 11, 11, 11, 11, 11, 11, 11, 11,
    11, 11, 11, 1, 1, 1, 1, 1, 1, 1, 1, 1, 1, 1, 1, 1, 1, 1, 1, 1, 1, 1, 1, 1,
    1, 1, 1, 1, 1, 1, 1, 1, 1, 1, 1, 1, 1, 1, 1, 1, 1, 1, 1, 1, 1, 1, 1, 1,
    1, 1, 1, 1, 1, 1, 1, 1, 1, 1, 1, 1, 1, 1, 1, 1, 1, 1, 1, 1, 1, 1, 1, 1,
    1, 1, 1, 1, 1, 1, 1, 1, 1, 1, 1, 1, 1, 1, 1, 1, 1, 1, 1, 1, 1, 1, 1, 1,
    1, 1, 1, 1, 1, 1, 1, 1, 1, 1, 1, 1, 1, 1, 1, 1, 1, 1, 1, 1, 1, 1, 1, 1,
    1, 1, 1, 1, 1, 1, 1, 1, 1, 1, 1, 1, 1, 1, 1, 1]

/-- `yy_meta`. -/
def metaTable : List ℕ :=
  [0, 1, 1, 2, 1, 1, 1, 1, 1, 1, 1, 1, 1, 1]

/-- `yy_base`. -/
def baseTable : List ℕ :=
  [0, 0, 0, 38, 59, 59, 59, 33, 8, 12, 15, 59, 27, 24, 24, 0, 59, 28, 22, 59, 24, 36, 0, 19,
    16, 59, 14, 59, 11, 36, 12, 44, 59, 59, 52, 14, 54, 56]

/-- `yy_def`. -/
def defTable : List ℕ :=
  [0, 33, 1, 33, 33, 33, 33, 33, 33, 33, 33, 33, 34, 35, 33, 9, 33, 33, 10, 33, 34, 36, 35, 35,
    33, 33, 37, 33, 35, 33, 37, 36, 33, 0, 33, 33, 33, 33]

/-- `yy_nxt`. -/
def nxtTable : List ℕ :=
  [0, 4, 5, 6, 7, 5, 4, 4, 8, 9, 4, 9, 10, 4, 12, 22, 13, 14, 31, 23, 31, 15, 16, 15,
    17, 29, 18, 28, 19, 14, 21, 33, 23, 21, 16, 24, 11, 17, 33, 33, 33, 25, 21, 33, 27, 29, 33, 33,
    33, 32, 31, 33, 27, 20, 20, 26, 26, 30, 30, 3, 33, 33, 33, 33, 33, 33, 33, 33, 33, 33, 33, 33,
    33]

/-- `yy_chk`. -/
def chkTable : List ℕ :=
  [0, 1, 1, 1, 1, 1, 1, 1, 1, 1, 1, 1, 1, 1, 8, 35, 8, 9, 30, 28, 26, 9, 9, 9,
    10, 24, 10, 23, 10, 14, 20, 18, 13, 12, 14, 17, 7, 17, 3, 0, 0, 17, 21, 0, 21, 29, 0, 0,
    0, 29, 31, 0, 31, 34, 34, 36, 36, 37, 37, 33, 33, 33, 33, 33, 33, 33, 33, 33, 33, 33, 33, 33,
    33]

/-- `yy_rule_can_match_eol`. -/
def eolTable : List ℕ :=
  [0, 1, 0, 0, 0, 0, 0, 1, 0, 0]

/-- `yy_ec[YY_SC_TO_UI(c)]`; a character is a byte. -/
def yyEc (c : Char) : ℕ := ecTable.getD c.toNat 1

def yyAccept (state : ℕ) : ℕ := acceptTable.getD state 0

def yyBase (state : ℕ) : ℕ := baseTable.getD state 0

/-- The loop over the rows that a state falls back to, for at most `fuel` of them. -/
def yyLookup : ℕ → ℕ → ℕ → Option ℕ
  | 0, _, _ => none
  | fuel + 1, state, c =>
    if chkTable.getD (yyBase state + c) 0 = state then nxtTable[yyBase state + c]?
    else
      let state := defTable.getD state 0
      yyLookup fuel state (if 34 ≤ state then metaTable.getD c 0 else c)

/-- The state in which the scanner jams. -/
def yyJam : ℕ := 33

/-- The next state. No row is more than two fallbacks away from an entry. -/
def yyNext (state c : ℕ) : ℕ := (yyLookup 3 state c).getD yyJam

/-- `YY_END_OF_BUFFER`. -/
def yyEndOfBuffer : ℕ := 10

/-- `YY_END_OF_BUFFER_CHAR`. -/
def eobChar : Char := '\x00'

/-! ## One match -/

/-- `yy_current_state`, `yy_cp`, and `yy_last_accepting_state` with `yy_last_accepting_cpos`. -/
structure Run where
  state : ℕ
  cp : ℕ
  last : ℕ × ℕ
  deriving DecidableEq, Repr

/-- A state that stands for a rule is noted before the next byte is taken. -/
def Run.note (r : Run) : ℕ × ℕ := if yyAccept r.state ≠ 0 then (r.state, r.cp) else r.last

def Run.read (r : Run) (c : ℕ) : Run := ⟨yyNext r.state c, r.cp + 1, r.note⟩

/-- The loop at `yy_match`. -/
def yyMatch : Text → Run → Run
  | [], r => r
  | c :: l, r =>
    let r := r.read (yyEc c)
    if yyBase r.state ≠ 59 then yyMatch l r else r

/-- `yy_find_action`: the action, and `yy_cp` where it ends. -/
def yyFindAction (r : Run) : ℕ × ℕ :=
  if yyAccept r.state = 0 then (yyAccept r.last.1, r.last.2) else (yyAccept r.state, r.cp)

/-- The class of a byte that is known not to be the end of the buffer. -/
def yyClass (c : Char) : ℕ := if c = eobChar then 1 else yyEc c

def yyGetPreviousState (text : Text) (last : ℕ × ℕ) : Run :=
  text.foldl (fun r c => r.read (yyClass c)) ⟨1, 0, last⟩

/-- What `YY_INPUT` gives before the end of the file. -/
structure Read where
  bytes : Text
  some : bytes ≠ []

/-- The scanner between two matches. -/
structure Flex where
  buffer : Text
  reads : List Read
  last : ℕ × ℕ
  yylineno : ℕ
  yyout : Text

namespace Flex

/-- All that is still to come. -/
def text (s : Flex) : Text := s.buffer ++ s.reads.flatMap Read.bytes

inductive Match where
  | endOfFile
  | action (act cp : ℕ)
  deriving DecidableEq, Repr

/-- From `yy_match`, or from `yy_find_action`, to the action of a rule or the end of the file. -/
def scan : ℕ → Flex → Run → Bool → Option (Match × Flex)
  | 0, _, _, _ => none
  | fuel + 1, s, r, matching =>
    let r := if matching then yyMatch (s.buffer.drop r.cp ++ [eobChar, eobChar]) r else r
    let (act, cp) := yyFindAction r
    if act ≠ yyEndOfBuffer then some (.action act cp, { s with last := r.last })
    else
      let amountOfMatchedText := cp - 1
      if cp ≤ s.buffer.length then
        -- this was really a NUL
        let r := yyGetPreviousState (s.buffer.take amountOfMatchedText) r.last
        let next := r.read 1
        if next.state ≠ yyJam then scan fuel s next true
        else scan fuel s { r with last := next.last } false
      else
        match s.reads with
        | read :: reads =>
          let s := { s with buffer := s.buffer ++ read.bytes, reads := reads }
          scan fuel s (yyGetPreviousState (s.buffer.take amountOfMatchedText) r.last) true
        | [] =>
          if amountOfMatchedText = 0 then some (.endOfFile, { s with last := r.last })
          else scan fuel s (yyGetPreviousState s.buffer r.last) false

/-- As many matches are begun for one action at most. -/
def scanFuel (s : Flex) : ℕ := s.text.length + s.reads.length + 2

/-- `YY_DO_BEFORE_ACTION`, and the lines that `yytext` ends. -/
def take (s : Flex) (act cp : ℕ) : Text × Flex :=
  let yytext := s.buffer.take cp
  (yytext, { s with
    buffer := s.buffer.drop cp
    yylineno := s.yylineno + if eolTable.getD act 0 = 1 then yytext.count '\n' else 0 })

/-- `yylex`: the action of the rule and the text, or `none` at the end of the file. The rules 7 and
8 do nothing, rule 9 is `ECHO`, and the others return a token. -/
def yylex : ℕ → Flex → Option (Option (ℕ × Text) × Flex)
  | 0, _ => none
  | fuel + 1, s =>
    match scan s.scanFuel s ⟨1, 0, s.last⟩ true with
    | none => none
    | some (.endOfFile, s) => some (none, s)
    | some (.action act cp, s) =>
      let (yytext, s) := s.take act cp
      if act ≤ 6 then some (some (act, yytext), s)
      else if act ≤ 8 then yylex fuel s
      else yylex fuel { s with yyout := s.yyout ++ yytext }

/-- The scanner before its first call: nothing has been read. -/
def init (reads : List Read) : Flex := ⟨[], reads, (0, 0), 1, []⟩

/-- One call reads so many matches at most. -/
def yylexFuel (s : Flex) : ℕ := s.text.length + 1

/-- The calls of `yylex` up to the end of the file: what they return, with the value of `yylineno`,
and what they echo. -/
def tokens : ℕ → Flex → Option (List (ℕ × Text × ℕ) × Text)
  | 0, _ => none
  | fuel + 1, s =>
    match yylex s.yylexFuel s with
    | none => none
    | some (none, s) => some ([], s.yyout)
    | some (some (act, yytext), s) =>
      (tokens fuel s).map fun (l, out) => ((act, yytext, s.yylineno) :: l, out)

end Flex

end DevFramework.CmdParser
