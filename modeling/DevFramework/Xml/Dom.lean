import Mathlib.Data.List.Nodup
import Mathlib.Tactic.Common

/-! # The document tree and `find_all` (utility/parser/src/xml.cpp)

The nodes of TinyXML live in memory and are linked by pointers to the parent, the first child and
the next sibling; `none` is the null pointer. `Forest` is the tree that such links draw: the first
of some siblings, what is below it, and the siblings behind it. `find_all` knows pointers only.
-/
namespace DevFramework.Xml
set_option autoImplicit false
set_option maxHeartbeats 250000

abbrev Text := List Char

/-- A `TiXmlNode*` that is not null. -/
abbrev Ptr := ℕ

/-- `TiXmlNode::NodeType`. -/
inductive NodeType where
  | document
  | element
  | comment
  | unknown
  | text
  | declaration
  deriving DecidableEq, Repr

/-- What `find_all` reads of a `TiXmlNode`. -/
structure TiXmlNode where
  type : NodeType
  value : Text
  parent : Option Ptr
  firstChild : Option Ptr
  next : Option Ptr
  deriving DecidableEq, Repr

abbrev Dom := Ptr → TiXmlNode

/-! ## Trees -/

inductive Forest where
  | nil
  | cons (node : Ptr) (kids rest : Forest)
  deriving DecidableEq, Repr

namespace Forest

/-- The first of the siblings. -/
def first : Forest → Option Ptr
  | nil => none
  | cons p _ _ => some p

def size : Forest → ℕ
  | nil => 0
  | cons _ kids rest => kids.size + rest.size + 1

/-- All nodes, in document order. -/
def nodes : Forest → List Ptr
  | nil => []
  | cons p kids rest => p :: (kids.nodes ++ rest.nodes)

/-- The elements, in document order. -/
def elements (dom : Dom) (f : Forest) : List Ptr :=
  f.nodes.filter fun p => (dom p).type = .element

/-- The links of the siblings and of everything below them; `q` is their parent. -/
def Linked (dom : Dom) (q : Ptr) : Forest → Prop
  | nil => True
  | cons p kids rest =>
    (dom p).parent = some q ∧ (dom p).firstChild = kids.first ∧ (dom p).next = rest.first ∧
      kids.Linked dom p ∧ rest.Linked dom q

/-- A single text. -/
def IsText (dom : Dom) : Forest → Prop
  | cons p nil nil => (dom p).type = .text
  | _ => False

/-- Elements only, each of which has no children, elements only, or a single text. -/
def Plain (dom : Dom) : Forest → Prop
  | nil => True
  | cons p kids rest =>
    (dom p).type = .element ∧ (kids.Plain dom ∨ kids.IsText dom) ∧ rest.Plain dom

end Forest

/-- `start` is the root of a tree: `f` are its children with everything below them. -/
structure Rooted (dom : Dom) (start : Ptr) (f : Forest) : Prop where
  child : (dom start).firstChild = f.first
  linked : f.Linked dom start
  distinct : (start :: f.nodes).Nodup

/-- The descendants with that name, in document order. -/
def named (dom : Dom) (nodeN : Text) (f : Forest) : List Ptr :=
  (f.elements dom).filter fun p => (dom p).value = nodeN

/-! ## `find_all` -/

inductive Fault where
  | nullDeref
  | spin
  deriving DecidableEq, Repr

/-- `*nodeS` and `*recovR`. -/
structure Cells where
  nodeS : Option Ptr
  recovR : Option Ptr
  deriving DecidableEq, Repr

/-- A node that is compared but not descended into: it has no children, or a text is the first. -/
def shallow (dom : Dom) (p : Ptr) : Bool :=
  match (dom p).firstChild with
  | none => true
  | some px => (dom px).type = .text

/-- The `for` loop, a turn for each unit of fuel. -/
def findLoop (dom : Dom) (nodeN : Text) : ℕ → Ptr → Option Ptr → Cells →
    Except Fault (Option Ptr × Cells)
  | 0, _, _, _ => .error .spin
  | n + 1, _, some iter, cells =>
    if shallow dom iter then
      if nodeN = (dom iter).value then .ok (some iter, cells)
      else findLoop dom nodeN n iter (dom iter).next cells
    else if nodeN = (dom iter).value then
      .ok (some iter, { cells with recovR := (dom iter).firstChild })
    else findLoop dom nodeN n iter (dom iter).firstChild cells
  | n + 1, iter, none, cells =>
    match (dom iter).parent with
    | none => .error .nullDeref
    | some up =>
      if cells.nodeS = some up then .ok (none, { nodeS := none, recovR := none })
      else findLoop dom nodeN n up (dom up).next cells

/-- `find_all`. -/
def findAll (dom : Dom) (fuel : ℕ) (node : Ptr) (nodeN : Text) (cells : Cells) :
    Except Fault (Option Ptr × Cells) :=
  match cells.nodeS with
  | none =>
    let cells := { cells with nodeS := some node }
    match (dom node).firstChild with
    | none => .error .nullDeref
    | some child =>
      if (dom child).type = .text then .ok (none, cells)
      else findLoop dom nodeN fuel node (some child) cells
  | some _ =>
    match cells.recovR with
    | some iter => findLoop dom nodeN fuel iter (some iter) { cells with recovR := none }
    | none => findLoop dom nodeN fuel node (dom node).next cells

/-- `find_all` again and again, the node returned last passed back, until it returns 0: the nodes
returned and the cells in the end. At most `calls` calls are made. -/
def findEach (dom : Dom) (fuel : ℕ) (nodeN : Text) : ℕ → Ptr → Cells →
    Except Fault (List Ptr × Cells)
  | 0, _, _ => .error .spin
  | calls + 1, node, cells =>
    match findAll dom fuel node nodeN cells with
    | .error e => .error e
    | .ok (none, cells) => .ok ([], cells)
    | .ok (some p, cells) =>
      (findEach dom fuel nodeN calls p cells).map fun (ps, cells) => (p :: ps, cells)

/-! ## `CXml` -/

/-- What `CXml::find_all` uses of a `CXml`. -/
structure CXml where
  curNode : Option Ptr
  cells : Cells
  deriving DecidableEq, Repr

/-- `CXml::find_all`. -/
def CXml.findAll (dom : Dom) (fuel : ℕ) (nodeN : Text) (x : CXml) : Except Fault (Bool × CXml) :=
  match x.curNode with
  | none => .ok (false, x)
  | some node =>
    match Xml.findAll dom fuel node nodeN x.cells with
    | .error e => .error e
    | .ok (some tmp, cells) => .ok (true, { curNode := some tmp, cells })
    | .ok (none, cells) => .ok (false, { x with cells })

/-- `while(xml.find_all(nodeN))`: where `cur_node_` stands in each turn, and the object in the end.
-/
def CXml.findEach (dom : Dom) (fuel : ℕ) (nodeN : Text) : ℕ → CXml →
    Except Fault (List Ptr × CXml)
  | 0, _ => .error .spin
  | calls + 1, x =>
    match x.findAll dom fuel nodeN with
    | .error e => .error e
    | .ok (false, x) => .ok ([], x)
    | .ok (true, x) =>
      (findEach dom fuel nodeN calls x).map fun (ps, x') => (x.curNode.toList ++ ps, x')

end DevFramework.Xml
