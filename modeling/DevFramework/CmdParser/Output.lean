import DevFramework.CmdParser.Parser

/-! # Draining the tree (FlexParser/Parser/parser.cpp)

`cpp_output_t` and `go_output_t` differ in the texts they write, which `TargetOutput` collects.
`file_` is `none` until the first `fopen`, since no constructor sets it; reading it before that, and
using a `FILE*` after its `fclose`, is undefined. An abort keeps what had been written by then. An
`int` is a bit vector of 32 bits, and a shift takes its count modulo 32.
-/
namespace DevFramework.CmdParser
set_option autoImplicit false
set_option maxHeartbeats 250000

/-! ## The two back ends -/

/-- What the code calls: whether `fopen` of a name succeeds, and the text that
`get_year_month_day(time(0))` returns at its `n`-th call. -/
structure Env where
  fopen : Text → Bool
  yearMonthDay : ℕ → Text

structure TargetOutput where
  extension : Text
  ending : Text
  paramType : Text
  assign : Text
  rename : Text → Text
  header : Text → Text → Text
  trans : Text → Text

def crlf : Text := ['\r', '\n']

/-- `str2upper` after `"__" + name`, then the date. -/
def guardName (name date : Text) : Text :=
  ("__".toList ++ name).map Char.toUpper ++ "_".toList ++ date ++ "__".toList

/-- `cpp_output_t::i_get_header`. -/
def cppHeader (name date : Text) : Text :=
  if name.isEmpty then []
  else "#ifndef ".toList ++ guardName name date ++ crlf ++ "#define ".toList ++ guardName name date ++
    crlf ++ crlf

/-- `cpp_output_t`; `trans` is its re-encoding of a comment. -/
def cppOutput (trans : Text → Text) : TargetOutput where
  extension := ".h".toList
  ending := crlf ++ "#endif".toList ++ crlf
  paramType := "static const unsigned int ".toList
  assign := " = ".toList
  rename := id
  header := cppHeader
  trans := trans

/-- `go_output_t::i_get_header`. -/
def goHeader (name _date : Text) : Text :=
  if name.isEmpty then []
  else "package Protocol".toList ++ crlf ++ crlf ++ "const (".toList ++ crlf

/-- `data[0] -= 32`. -/
def goName (name : Text) : Text :=
  name.modifyHead fun c => Char.ofNat ((c.toNat + 224) % 256)

/-- `go_output_t`. -/
def goOutput : TargetOutput where
  extension := ".go".toList
  ending := ")".toList
  paramType := []
  assign := " uint32 = ".toList
  rename := goName
  header := goHeader
  trans := id

/-! ## Files -/

/-- A file that was opened: its name, what was written, and how often it was closed. -/
structure OutFile where
  name : Text
  content : Text
  closed : ℕ
  deriving DecidableEq

/-- The two constants written for a command, with the bit range of its section. -/
structure Constant where
  range : Text
  name : Text
  request : BitVec 32
  response : BitVec 32
  deriving DecidableEq

/-- `file_`, every file opened so far, and every constant put on a line so far. -/
structure Writer where
  file : Option ℕ
  files : List OutFile
  emitted : List Constant
  deriving DecidableEq

/-- How a run ends early. -/
inductive Stop where
  | openError
  | outOfRange
  | undefined
  | outOfFuel
  deriving DecidableEq, Repr

structure Aborted where
  why : Stop
  writer : Writer
  deriving DecidableEq

abbrev Result (α : Type) := Except Aborted α

namespace Writer

/-- `new cpp_output_t`, `new go_output_t`. -/
def init : Writer := ⟨none, [], []⟩

/-- `fwrite` to `file_`. -/
def fwrite (w : Writer) (text : Text) : Result Writer :=
  match w.file with
  | none => .error ⟨.undefined, w⟩
  | some i =>
    if w.files[i]?.map OutFile.closed = some 0 then
      .ok { w with files := w.files.modify i fun f => { f with content := f.content ++ text } }
    else .error ⟨.undefined, w⟩

/-- `fclose` of `file_`. -/
def fclose (w : Writer) : Result Writer :=
  match w.file with
  | none => .error ⟨.undefined, w⟩
  | some i =>
    if w.files[i]?.map OutFile.closed = some 0 then
      .ok { w with files := w.files.modify i fun f => { f with closed := f.closed + 1 } }
    else .error ⟨.undefined, w⟩

/-- `fopen(name, "wb")` where it succeeds. -/
def fopen (w : Writer) (name : Text) : Writer :=
  { w with file := some w.files.length, files := w.files ++ [⟨name, [], 0⟩] }

/-- `OT_CREATE` for a file-name node with this text. -/
def create (env : Env) (tgt : TargetOutput) (w : Writer) (name : Text) : Result Writer :=
  if name.isEmpty then .ok w
  else if env.fopen (name ++ tgt.extension) then
    let header := tgt.header name (env.yearMonthDay w.files.length)
    let w := w.fopen (name ++ tgt.extension)
    if header.isEmpty then .ok w else w.fwrite header
  else .error ⟨.openError, w⟩

/-- The end of `OT_WRITE`: `file_` is tested, and a line is written. -/
def writeLine (w : Writer) (finLine : Text) : Result Writer := w.fwrite (finLine ++ crlf)

/-- An operator node without children: `file_` is tested, written to and closed. -/
def close (tgt : TargetOutput) (w : Writer) : Result Writer := (w.fwrite tgt.ending).bind fclose

end Writer

/-! ## The lines of a command -/

/-- `atoi` of a text that starts with a digit; it stops at `INT_MAX`. -/
def atoi (text : Text) : ℕ :=
  min ((text.takeWhile Char.isDigit).foldl (fun n c => 10 * n + (c.toNat - 48)) 0) 2147483647

/-- `1 << n`. -/
def shiftOne (n : ℤ) : BitVec 32 := 1#32 <<< (n % 32).toNat

/-- `while (right_int >= 0)`, from `right_int = n - 1`. -/
def endCmd : ℕ → BitVec 32 → BitVec 32
  | 0, acc => acc
  | n + 1, acc => endCmd n (acc ||| shiftOne n)

/-- `start_cmd` and `end_cmd` of a range; `none` where it has no `-`. -/
def cmdBounds (range : Text) : Option (BitVec 32 × BitVec 32) :=
  match range.findIdx? (· = '-') with
  | none => none
  | some pos =>
    let leftInt := atoi (range.take pos)
    let rightInt := atoi (range.drop (pos + 1))
    some (shiftOne ((leftInt : ℤ) - 1), endCmd rightInt 0)

/-- `cmd_id | 0x80000000`. -/
def responseId (cmdId : BitVec 32) : BitVec 32 := cmdId ||| 0x80000000#32

/-- `0x%x`. -/
def hex (id : BitVec 32) : Text := '0' :: 'x' :: Nat.toDigits 16 id.toNat

/-- The request line and the response line, which has no end of line yet. -/
def constantText (tgt : TargetOutput) (c : Constant) : Text :=
  tgt.paramType ++ c.name ++ "_request".toList ++ tgt.assign ++ hex c.request ++ [';'] ++ crlf ++
    (tgt.paramType ++ c.name ++ "_response".toList ++ tgt.assign ++ hex c.response ++ [';'])

/-- The constants of a command; `Stop.outOfRange` where its id is past the range. -/
def cmdConstant (tgt : TargetOutput) (range name : Text) (sid : BitVec 32)
    (bounds : BitVec 32 × BitVec 32) : Except Stop Constant :=
  let cmdId := bounds.1 + sid
  if bounds.2.slt cmdId then .error .outOfRange
  else .ok ⟨range, tgt.rename name, cmdId, responseId cmdId⟩

/-- What a command adds to the line. -/
def cmdText (tgt : TargetOutput) (range name : Text) (sid : BitVec 32) (finLine : Text)
    (w : Writer) : Result (Text × Writer) :=
  match cmdBounds range with
  | none => .ok (finLine, w)
  | some bounds =>
    match cmdConstant tgt range name sid bounds with
    | .error why => .error ⟨why, w⟩
    | .ok c => .ok (finLine ++ constantText tgt c, { w with emitted := w.emitted ++ [c] })

/-- What a comment adds to the line. -/
def cmtText (tgt : TargetOutput) (cmt finLine : Text) : Text :=
  finLine ++ ['\t'] ++ tgt.trans cmt

/-! ## The recursion -/

/-- The tree being emptied, `data_nodes_`, and the files. -/
structure Drain where
  nodes : List Node
  dataNodes : List Ptr
  writer : Writer

namespace Drain

/-- The loop of `OT_WRITE` over the popped data nodes. -/
def writeLoop (tgt : TargetOutput) (nodes : List Node) (range : Text) :
    List Ptr → Text → Writer → Result (Text × Writer)
  | [], finLine, w => .ok (finLine, w)
  | p :: ps, finLine, w =>
    match nodes[p]? with
    | none => .error ⟨.undefined, w⟩
    | some pnode =>
      if pnode.dataType = some .cmdName then
        match pnode.sid with
        | none => .error ⟨.undefined, w⟩
        | some sid =>
          (cmdText tgt range pnode.data sid finLine w).bind fun (finLine, w) =>
            writeLoop tgt nodes range ps finLine w
      else if pnode.dataType = some .cmt then
        writeLoop tgt nodes range ps (cmtText tgt pnode.data finLine) w
      else writeLoop tgt nodes range ps finLine w

/-- A node without children. -/
def leaf (tgt : TargetOutput) (p : Ptr) (node : Node) (s : Drain) : Result Drain :=
  match node.nodeType with
  | .data => .ok { s with dataNodes := s.dataNodes ++ [p] }
  | .oper => (s.writer.close tgt).map fun w => { s with writer := w }
  | .root => .ok s

/-- An operator node once its children are drained. -/
def operate (env : Env) (tgt : TargetOutput) (node : Node) (s : Drain) : Result Drain :=
  if node.nodeType ≠ .oper then .ok s
  else
    match node.operType with
    | some .create =>
      match s.dataNodes with
      | [] => .error ⟨.undefined, s.writer⟩
      | p :: rest =>
        match s.nodes[p]? with
        | none => .error ⟨.undefined, s.writer⟩
        | some pnode =>
          (s.writer.create env tgt pnode.data).map fun w =>
            { s with dataNodes := rest, writer := w }
    | some .write =>
      (writeLoop tgt s.nodes node.data s.dataNodes [] s.writer).bind fun (finLine, w) =>
        (w.writeLine finLine).map fun w => { s with dataNodes := [], writer := w }
    | _ => .ok s

/-- `child.pop_front()`. -/
def popChild (s : Drain) (p : Ptr) : Drain :=
  { s with nodes := s.nodes.modify p fun n => { n with child := n.child.tail } }

mutual

/-- `i_output`. -/
def iOutput (env : Env) (tgt : TargetOutput) : ℕ → Ptr → Drain → Result Drain
  | 0, _, s => .error ⟨.outOfFuel, s.writer⟩
  | fuel + 1, p, s =>
    match s.nodes[p]? with
    | none => .error ⟨.undefined, s.writer⟩
    | some node =>
      if node.child.isEmpty then leaf tgt p node s
      else (drainChildren env tgt fuel p s).bind (operate env tgt node)

/-- `while (!node->child.empty())`. -/
def drainChildren (env : Env) (tgt : TargetOutput) : ℕ → Ptr → Drain → Result Drain
  | 0, _, s => .error ⟨.outOfFuel, s.writer⟩
  | fuel + 1, p, s =>
    match s.nodes[p]? with
    | none => .error ⟨.undefined, s.writer⟩
    | some node =>
      match node.child with
      | [] => .ok s
      | child :: _ =>
        (iOutput env tgt fuel child (s.popChild p)).bind (drainChildren env tgt fuel p)

end

end Drain

/-- How many children there are to drain. -/
def childCount (nodes : List Node) : ℕ := (nodes.map fun n => n.child.length).sum

/-- `output`: an `OT_CLOSE` node is put last under the root, and the root is drained. Every call
but the first few pops a child, so the fuel is enough for every tree that the parser builds. -/
def output (env : Env) (tgt : TargetOutput) (p : JfCmdParser) : Result Drain :=
  let p := p.allocUnderRoot closeNode
  Drain.iOutput env tgt (childCount p.nodes + 4) root ⟨p.nodes, [], .init⟩

end DevFramework.CmdParser
