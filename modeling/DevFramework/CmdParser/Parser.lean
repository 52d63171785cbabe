import DevFramework.CmdParser.Token
import DevFramework.Foundations.Transition

/-! # The node tree and its two cursors (FlexParser/Parser/parser.cpp, Flex/parser.y)

Nodes live in a list that only grows, and a pointer is a position in it; the root is node 0. A
field that a constructor leaves uninitialised is `none`; in particular the `line` of the root and
of a file-name node is, which no source line equals. The cursors are never null: the constructor
points both to the root, and every later value is a node. `Compiler` adds the three static variables
of the grammar's actions.
-/
namespace DevFramework.CmdParser
set_option autoImplicit false
set_option maxHeartbeats 250000

inductive NodeType where
  | root
  | oper
  | data
  deriving DecidableEq, Repr

inductive OperType where
  | create
  | write
  | close
  deriving DecidableEq, Repr

inductive DataType where
  | fileName
  | cmdRange
  | cmdName
  | cmt
  deriving DecidableEq, Repr

/-- A `node_t*`. -/
abbrev Ptr := ℕ

structure Node where
  nodeType : NodeType
  operType : Option OperType := none
  data : Text := []
  dataType : Option DataType := none
  sid : Option (BitVec 32) := none
  line : Option ℕ := none
  child : List Ptr := []
  deriving DecidableEq

/-- `child.push_back`. -/
def Node.pushChild (n : Node) (c : Ptr) : Node := { n with child := n.child ++ [c] }

/-! ## The nodes that the parser makes -/

/-- An `OT_CLOSE` node. -/
def closeNode : Node := { nodeType := .oper, operType := some .close }

/-- An `OT_CREATE` node before it has its child. -/
def createNode : Node := { nodeType := .oper, operType := some .create }

/-- A file-name node. -/
def fileNameNode (name : Text) : Node :=
  { nodeType := .data, data := name, dataType := some .fileName }

/-- An `OT_WRITE` node before it has children. -/
def writeNode (range : Text) : Node :=
  { nodeType := .oper, operType := some .write, data := range, dataType := some .cmdRange }

/-- A command's node. -/
def cmdNameNode (name : Text) (line : ℕ) (sid : BitVec 32) : Node :=
  { nodeType := .data, data := name, dataType := some .cmdName, line := some line, sid := some sid }

/-- A comment's node. -/
def cmtNode (cmt : Text) (line : ℕ) : Node :=
  { nodeType := .data, dataType := some .cmt, data := cmt, line := some line }

/-! ## The parser -/

structure JfCmdParser where
  nodes : List Node
  curNode : Ptr
  parentNode : Ptr
  bits : Text

/-- `root_`. -/
def root : Ptr := 0

namespace JfCmdParser

/-- The constructor of `jf_cmd_parser_t`. -/
def init : JfCmdParser := ⟨[{ nodeType := .root }], root, root, []⟩

/-- `cur_node_->line`. -/
def curLine (p : JfCmdParser) : Option ℕ := p.nodes[p.curNode]?.bind Node.line

/-- `new node_t` with these fields; its pointer is the old length of the list. -/
def alloc (p : JfCmdParser) (n : Node) : JfCmdParser := { p with nodes := p.nodes ++ [n] }

/-- `parent->child.push_back(child)`. -/
def attach (p : JfCmdParser) (parent child : Ptr) : JfCmdParser :=
  { p with nodes := p.nodes.modify parent fun n => n.pushChild child }

/-- A new operator node under the root. -/
def allocUnderRoot (p : JfCmdParser) (n : Node) : JfCmdParser := (p.alloc n).attach root p.nodes.length

def setSingleLineComment (p : JfCmdParser) (cmt : Text) (line : ℕ) : JfCmdParser :=
  if p.curLine = some line then
    let node := p.nodes.length
    { (p.alloc (cmtNode cmt line)).attach p.parentNode node with curNode := node }
  else p

/-- The last file is closed before another is created. -/
def closeLast (p : JfCmdParser) : JfCmdParser :=
  if (p.nodes[root]?.map fun n => n.child.isEmpty) = some true then p
  else p.allocUnderRoot closeNode

def setFileName (p : JfCmdParser) (cmt : Text) : JfCmdParser :=
  let p := p.closeLast
  let node := p.nodes.length
  let child := node + 1
  let p := ((p.alloc createNode).alloc (fileNameNode ((cmt.drop 1).take (cmt.length - 2))))
  { (p.attach node child).attach root node with parentNode := node, curNode := child }

def setBits (p : JfCmdParser) (cmt : Text) : JfCmdParser := { p with bits := cmt }

def setCmdName (p : JfCmdParser) (cmt : Text) (line : ℕ) (sid : BitVec 32) : JfCmdParser :=
  let node := p.nodes.length
  let child := node + 1
  let p := p.allocUnderRoot (writeNode ((p.bits.drop 1).take (p.bits.length - 2)))
  let p := p.alloc (cmdNameNode (cmt.take (cmt.length - 1)) line sid)
  { p.attach node child with parentNode := node, curNode := child }

end JfCmdParser

/-! ## The grammar's actions -/

structure Compiler where
  stage : ℕ
  cmdIdx : BitVec 32
  treatAsSiglelineCmt : ℕ
  parser : JfCmdParser

namespace Compiler

def init : Compiler := ⟨1, 0, 0, .init⟩

def processSingleLineComment (c : Compiler) (cont : Text) (yylineno : ℕ) : Compiler :=
  { c with parser := c.parser.setSingleLineComment cont yylineno }

def processGlobalComment (c : Compiler) (cont : Text) (yylineno : ℕ) : Compiler :=
  if c.treatAsSiglelineCmt = yylineno then
    { c.processSingleLineComment cont yylineno with treatAsSiglelineCmt := 0 }
  else c  -- `set_global_comment` does nothing

/-- The test of `stage` comes right after `stage = 0`, so it never fails. -/
def processIndex (c : Compiler) : Compiler := { c with stage := 0 + 1 }

/-- The test of `stage` comes right after `stage = 1`. -/
def processCreateNewFile (c : Compiler) (cont : Text) : Compiler :=
  { c with stage := 1 + 1, cmdIdx := 0, parser := c.parser.setFileName cont }

def processTakeBits (c : Compiler) (cont : Text) : Option Compiler :=
  if c.stage ≠ 2 then none else some { c with stage := c.stage + 1, parser := c.parser.setBits cont }

def processCmd (c : Compiler) (cont : Text) (yylineno : ℕ) : Option Compiler :=
  if c.stage ≠ 3 then none
  else
    some { c with
      treatAsSiglelineCmt := yylineno
      cmdIdx := c.cmdIdx + 1
      parser := c.parser.setCmdName cont yylineno c.cmdIdx }

/-- The action of the token's rule; `none` is the exit after `Syntax Error`. -/
def command (c : Compiler) (t : Token) : Option Compiler :=
  match t.lexeme with
  | .globalCmt _ => some (c.processGlobalComment t.lexeme.text t.yylineno)
  | .sglineCmt _ => some (c.processSingleLineComment t.lexeme.text t.yylineno)
  | .index _ => some c.processIndex
  | .fileName _ => some (c.processCreateNewFile t.lexeme.text)
  | .takeBits _ _ => c.processTakeBits t.lexeme.text
  | .cmdName _ _ => c.processCmd t.lexeme.text t.yylineno

end Compiler

/-- The compiler after all tokens of a definition; `none` where one is a syntax error. -/
def compile (ts : List Token) : Option Compiler := Transition.run Compiler.command .init ts

end DevFramework.CmdParser
