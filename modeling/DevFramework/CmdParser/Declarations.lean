import DevFramework.CmdParser.Building
import DevFramework.CmdParser.RangeCheck

/-! # The declarations of the C++ back end

A `CMDNAME` is a name, any number of spaces and a `;`. The action cuts off the `;` and nothing else,
so the spaces are part of the name that the two constants are declared with.
-/
namespace DevFramework.CmdParser
set_option autoImplicit false
set_option maxHeartbeats 250000

/-! ## A declaration -/

/-- The characters of an identifier. -/
def isIdentChar (c : Char) : Bool := c.isAlphanum ∨ c = '_'

structure Identifier (name : Text) : Prop where
  nonempty : name ≠ []
  chars : ∀ c ∈ name, isIdentChar c = true
  start : ∀ c ∈ name.head?, c.isDigit = false

def spaces (n : ℕ) : Text := List.replicate n ' '

/-- The line declares a constant of this name, with any spaces between its words. -/
def Declares (line name : Text) : Prop :=
  Identifier name ∧ ∃ (i j k : ℕ) (id : BitVec 32), line =
    "static const unsigned int".toList ++ spaces (i + 1) ++ name ++ spaces j ++ ['='] ++ spaces k ++
      hex id ++ [';']

/-- The text is the declarations of the two constants of a command, a line each. -/
def DeclaresCommand (text name : Text) : Prop :=
  ∃ request response, text = request ++ crlf ++ response ∧
    Declares request (name ++ "_request".toList) ∧ Declares response (name ++ "_response".toList)

theorem CmdIdent.identifier (id : CmdIdent) (hid : ∀ c ∈ id.chars.head?, c.isDigit = false)
    {suffix : Text} (hsuffix : ∀ c ∈ suffix, isIdentChar c = true) :
    Identifier (id.chars ++ suffix) := by
  refine ⟨by simp [id.nonempty], fun c hc => ?_, fun c hc => hid c ?_⟩
  · rcases List.mem_append.mp hc with hc | hc
    · exact decide_eq_true (id.admitted c hc)
    · exact hsuffix c hc
  · rwa [List.head?_append_of_ne_nil _ id.nonempty] at hc

/-- The text of a command's constants. -/
theorem constantText_cpp (trans : Text → Text) (c : Constant) :
    constantText (cppOutput trans) c =
      ("static const unsigned int".toList ++ spaces 1 ++ (c.name ++ "_request".toList) ++ spaces 1 ++
        ['='] ++ spaces 1 ++ hex c.request ++ [';']) ++ crlf ++
      ("static const unsigned int".toList ++ spaces 1 ++ (c.name ++ "_response".toList) ++ spaces 1 ++
        ['='] ++ spaces 1 ++ hex c.response ++ [';']) := by
  have hassign : " = ".toList = spaces 1 ++ ['='] ++ spaces 1 := rfl
  have hparam : "static const unsigned int ".toList =
      "static const unsigned int".toList ++ spaces 1 := by decide
  simp only [constantText, cppOutput, hassign, hparam, List.append_assoc]

/-- A name is declared if it has no spaces behind it. -/
theorem declaresCommand (trans : Text → Text) (id : CmdIdent)
    (hid : ∀ c ∈ id.chars.head?, c.isDigit = false) (c : Constant) (hname : c.name = id.chars) :
    DeclaresCommand (constantText (cppOutput trans) c) id.chars := by
  rw [constantText_cpp, hname]
  refine ⟨_, _, rfl, ⟨id.identifier hid (List.all_eq_true.mp rfl), 0, 1, 1, c.request, rfl⟩,
    id.identifier hid (List.all_eq_true.mp rfl), 0, 1, 1, c.response, rfl⟩

theorem not_declaresCommand (trans : Text → Text) (id : CmdIdent) (n : ℕ) (c : Constant)
    (hname : c.name = id.chars ++ spaces (n + 1)) :
    ¬ DeclaresCommand (constantText (cppOutput trans) c) id.chars := by
  rintro ⟨request, response, htext, ⟨-, i, j, k, value, rfl⟩, -⟩
  obtain ⟨x, hx⟩ : ∃ x, constantText (cppOutput trans) c =
      "static const unsigned int".toList ++ ' ' :: (id.chars ++ ' ' :: x) := by
    rw [constantText_cpp, hname]
    simp only [spaces, List.replicate_succ, List.append_assoc, List.cons_append, List.nil_append]
    exact ⟨_, rfl⟩
  have hrequest : "_request".toList = '_' :: "request".toList := by decide
  rw [hx, hrequest] at htext
  simp only [spaces, List.replicate_succ, List.append_assoc, List.cons_append, List.nil_append]
    at htext
  -- behind the same front, the name ends at a space on one side and goes on on the other
  obtain ⟨-, htext⟩ := List.cons.inj (List.append_cancel_left htext)
  cases i with
  | zero =>
    have hrest := List.append_cancel_left htext
    cases hrest
  | succ i =>
    obtain ⟨a, as, has⟩ := List.exists_cons_of_ne_nil id.nonempty
    rw [List.replicate_succ, has] at htext
    obtain ⟨rfl, -⟩ := List.cons.inj htext
    have hspace := id.admitted ' ' (by simp [has])
    exact absurd hspace (by decide)

/-! ## From the token to the lines -/

/-- The node that `set_cmd_name` leaves at the cursor. -/
theorem setCmdName_node (p : JfCmdParser) (cmt : Text) (line : ℕ) (sid : BitVec 32) :
    (p.setCmdName cmt line sid).nodes[(p.setCmdName cmt line sid).curNode]? =
      some (cmdNameNode (cmt.take (cmt.length - 1)) line sid) := by
  have hcount : ∀ n, (p.allocUnderRoot n).nodes.length = p.nodes.length + 1 := by
    intro n
    simp [JfCmdParser.allocUnderRoot]
  simp only [JfCmdParser.setCmdName]
  rw [← hcount (writeNode ((p.bits.drop 1).take (p.bits.length - 2)))]
  refine (JfCmdParser.attach_ne _ ?_).trans (JfCmdParser.alloc_new _)
  rw [hcount]
  exact Nat.ne_of_lt (Nat.lt_succ_self _)

/-- What a command adds to the line is the text of a constant of its name. -/
theorem cmdText_constant {tgt : TargetOutput} {left right : Digits} {name finLine line : Text}
    {sid : BitVec 32} {w w' : Writer}
    (h : cmdText tgt (rangeText left right) name sid finLine w = .ok (line, w')) :
    ∃ c : Constant, c.name = tgt.rename name ∧ line = finLine ++ constantText tgt c := by
  simp only [cmdText, cmdBounds_rangeText] at h
  generalize shiftOne ((min left.value intMax : ℕ) - 1) = start at h
  generalize endCmd (min right.value intMax) 0 = last at h
  cases hc : cmdConstant tgt (rangeText left right) name sid (start, last) with
  | error why =>
    rw [hc] at h
    cases h
  | ok c =>
    rw [hc] at h
    have hname : c.name = tgt.rename name := by
      simp only [cmdConstant] at hc
      split at hc
      · cases hc
      · rw [← Except.ok.inj hc]
    obtain ⟨hline, -⟩ := Prod.mk.inj (Except.ok.inj h)
    exact ⟨c, hname, hline.symm⟩

/-- Cutting the last character of the token leaves the spaces. -/
theorem cmdName_cut (id : CmdIdent) (n : ℕ) :
    (Lexeme.cmdName id n).text.take ((Lexeme.cmdName id n).text.length - 1) =
      id.chars ++ spaces n := by
  have htext : (Lexeme.cmdName id n).text = (id.chars ++ spaces n) ++ [';'] := by
    simp only [Lexeme.text, spaces, List.append_assoc]
  rw [htext, List.length_append, List.length_singleton, Nat.add_sub_cancel, List.take_left]

/-- The token of a command leaves its name, with the spaces, at the cursor. -/
theorem command_cmdName {c c' : Compiler} {t : Token} {id : CmdIdent} {n : ℕ}
    (ht : t.lexeme = .cmdName id n) (hs : c.command t = some c') :
    c'.parser.nodes[c'.parser.curNode]? =
      some (cmdNameNode (id.chars ++ spaces n) t.yylineno c.cmdIdx) := by
  simp only [Compiler.command, ht, Compiler.processCmd] at hs
  split at hs
  · cases hs
  · rw [← Option.some.inj hs, ← cmdName_cut]
    exact setCmdName_node c.parser _ t.yylineno c.cmdIdx

/-- Whatever the lines of a command are written for, they declare the two constants of its name
exactly if no space stands between the name and the `;`. -/
theorem declares_iff (c c' : Compiler) (t : Token) (id : CmdIdent) (n : ℕ)
    (ht : t.lexeme = .cmdName id n) (hid : ∀ c ∈ id.chars.head?, c.isDigit = false)
    (hs : c.command t = some c') :
    ∃ node, c'.parser.nodes[c'.parser.curNode]? = some node ∧ node.dataType = some .cmdName ∧
      ∀ (trans : Text → Text) (left right : Digits) (sid : BitVec 32) (finLine line : Text)
        (w w' : Writer), cmdText (cppOutput trans) (rangeText left right) node.data sid finLine w =
          .ok (line, w') →
        ((∃ text, line = finLine ++ text ∧ DeclaresCommand text id.chars) ↔ n = 0) := by
  refine ⟨_, command_cmdName ht hs, rfl, fun trans left right sid finLine line w w' htext => ?_⟩
  obtain ⟨k, hname, rfl⟩ := cmdText_constant htext
  constructor
  · rintro ⟨text, hline, hdeclares⟩
    rw [← List.append_cancel_left hline] at hdeclares
    cases n with
    | zero => rfl
    | succ n => exact absurd hdeclares (not_declaresCommand trans id n k hname)
  · rintro rfl
    refine ⟨_, rfl, declaresCommand trans id hid k ?_⟩
    rw [hname]
    exact List.append_nil _

/-- `x` with spaces and a `;`. -/
def commandX (n : ℕ) : Token := ⟨.cmdName .x n, 1, Nat.one_pos⟩

/-- `x;` behind a range. -/
theorem declares_x :
    ∃ node, ((⟨3, 0, 0, .init⟩ : Compiler).command (commandX 0)).bind
        (fun c => c.parser.nodes[c.parser.curNode]?) = some node ∧
      ∀ (trans : Text → Text) (left right : Digits) (sid : BitVec 32) (finLine line : Text)
        (w w' : Writer), cmdText (cppOutput trans) (rangeText left right) node.data sid finLine w =
          .ok (line, w') →
        ((∃ text, line = finLine ++ text ∧ DeclaresCommand text ['x']) ↔ 0 = 0) := by
  obtain ⟨c', hs⟩ : ∃ c', (⟨3, 0, 0, .init⟩ : Compiler).command (commandX 0) = some c' := ⟨_, rfl⟩
  obtain ⟨node, hnode, -, hall⟩ :=
    declares_iff _ c' (commandX 0) CmdIdent.x 0 rfl (by simp [CmdIdent.x]) hs
  exact ⟨node, by rw [hs]; exact hnode, hall⟩

/-- `x ;` in `[1-3]`: both lines are written, and they declare neither constant, since a space stands
inside of what should be the identifier. -/
theorem spaced_name_declares_nothing :
    ∃ node line, ((⟨3, 0, 0, .init⟩ : Compiler).command (commandX 1)).bind
        (fun c => c.parser.nodes[c.parser.curNode]?) = some node ∧
      (cmdText (cppOutput id) "1-3".toList node.data 0 [] .init).map Prod.fst = .ok line ∧
      line = "static const unsigned int x _request = 0x1;".toList ++ crlf ++
        "static const unsigned int x _response = 0x80000001;".toList ∧
      ¬ DeclaresCommand line ['x'] := by
  refine ⟨_, _, rfl, rfl, by decide +kernel, ?_⟩
  exact not_declaresCommand id CmdIdent.x 0
    ⟨"1-3".toList, ['x', ' '], 1, responseId 1⟩ rfl

end DevFramework.CmdParser
