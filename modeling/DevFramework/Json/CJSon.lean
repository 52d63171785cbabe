import DevFramework.Json.Items

/-! # The cursor over a document (`CJSon`, utility/parser/src/json.h)

A `CJSon` has a shared document, the root, the current item and a stack of handles, whose back is
the head of a list here. `parse` stands for `cJSON_Parse`: from a text and the address of the next
item, the items it makes, the first of which is the root, or none for a text that is not valid.
`set_int32` and `set_int64` convert their number and call `set_double`.
-/
namespace DevFramework.Json
set_option autoImplicit false
set_option maxHeartbeats 250000

variable {ν : Type}

/-- `CJSon` without its document. -/
structure CJSon where
  root : Option ℕ
  ih : Option ℕ
  stack : List (Option ℕ)
  deriving DecidableEq, Repr

/-- What the constructor makes. -/
def CJSon.init : CJSon := ⟨none, none, []⟩

/-! ## Navigation -/

inductive Nav where
  | getNextItem
  | getPrevItem
  | getSubItem
  | getItemFromName (name : Option Text)
  | getArrayItemFromPos (pos : ℤ)
  | toUpperLevel
  | getRoot
  deriving DecidableEq, Repr

namespace CJSon

def getNextItem (h : Heap ν) (x : CJSon) : CJSon := { x with ih := h.getNextItem x.ih }

def getPrevItem (h : Heap ν) (x : CJSon) : CJSon := { x with ih := h.getPrevItem x.ih }

def getSubItem (h : Heap ν) (x : CJSon) : CJSon :=
  let stack := if x.ih.isSome then x.ih :: x.stack else x.stack
  { x with stack, ih := h.getSubItem x.ih }

def getItemFromName (h : Heap ν) (x : CJSon) (name : Option Text) : Option CJSon :=
  (h.getItemFromName x.ih name).map fun ih => { x with stack := x.ih :: x.stack, ih }

def getArrayItemFromPos (h : Heap ν) (x : CJSon) (pos : ℤ) : CJSon :=
  { x with stack := x.ih :: x.stack, ih := h.getArrayItemFromPos x.ih pos }

def toUpperLevel (x : CJSon) : CJSon :=
  match x.stack with
  | [] => x
  | ih :: stack => { x with ih, stack }

def getRoot (x : CJSon) : CJSon := { x with ih := x.root, stack := [] }

/-- A navigation call. -/
def go (h : Heap ν) (x : CJSon) : Nav → Option CJSon
  | .getNextItem => some (x.getNextItem h)
  | .getPrevItem => some (x.getPrevItem h)
  | .getSubItem => some (x.getSubItem h)
  | .getItemFromName name => x.getItemFromName h name
  | .getArrayItemFromPos pos => some (x.getArrayItemFromPos h pos)
  | .toUpperLevel => some x.toUpperLevel
  | .getRoot => some x.getRoot

end CJSon

/-! ## Building -/

/-- A document and a cursor over it. -/
structure Builder (ν : Type) where
  heap : Heap ν
  obj : CJSon

namespace Builder

def init : Builder ν := ⟨.empty, .init⟩

/-- `decode_from_stream`. -/
def decodeFromStream (parse : Text → ℕ → Option (List (Item ν))) (b : Builder ν)
    (str : Option Text) : Builder ν :=
  match str.bind fun str => parse str b.heap.fresh with
  | none => { b with obj := { b.obj with root := none, ih := none } }
  | some items =>
    let start := b.heap.fresh
    { heap := {
        mem := fun a => if start ≤ a then items[a - start]?.getD (b.heap.mem a) else b.heap.mem a
        fresh := start + items.length }
      obj := { b.obj with root := some start, ih := some start } }

def newRoot (b : Builder ν) : Builder ν :=
  match b.obj.root with
  | some _ => b
  | none =>
    let (ih, heap) := b.heap.createObject
    { heap, obj := { b.obj with root := some ih, ih := some ih } }

def newObject (b : Builder ν) (name : Text) : Option (Builder ν) :=
  let (ih, heap) := b.heap.createObject
  (heap.addItemToObject b.obj.ih name (some ih)).map fun heap =>
    { heap, obj := { b.obj with stack := b.obj.ih :: b.obj.stack, ih := some ih } }

def newArray (b : Builder ν) (name : Text) : Option (Builder ν) :=
  let (ih, heap) := b.heap.createArray
  (heap.addItemToObject b.obj.ih name (some ih)).map fun heap =>
    { heap, obj := { b.obj with ih := some ih } }

def attachObject (b : Builder ν) : Option (Builder ν) :=
  match b.obj.ih with
  | none =>
    let (ih, heap) := b.heap.createObject
    some { heap, obj := { b.obj with root := some ih, ih := some ih } }
  | some pa =>
    match (b.heap.mem pa).type with
    | .itArray =>
      let (ih, heap) := b.heap.createObject
      (heap.addItemToArray pa ih).map fun heap =>
        { heap, obj := { b.obj with stack := some pa :: b.obj.stack, ih := some ih } }
    | _ => some b

/-- What the `set_` functions have in common: an item is made and added to the current one. -/
def setItem (b : Builder ν) (name : Text) (item : ℕ × Heap ν) : Option (Builder ν) :=
  (item.2.addItemToObject b.obj.ih name (some item.1)).map fun heap => { b with heap }

def setDouble (b : Builder ν) (name : Text) (v : ν) : Option (Builder ν) :=
  b.setItem name (b.heap.createNumber v)

def setBool (b : Builder ν) (name : Text) (v : Bool) : Option (Builder ν) :=
  b.setItem name (b.heap.createBool v)

/-- A null string makes no item. -/
def setString (b : Builder ν) (name : Text) (v : Option Text) : Option (Builder ν) :=
  match v with
  | none => (b.heap.addItemToObject b.obj.ih name none).map fun heap => { b with heap }
  | some v => b.setItem name (b.heap.createString v)

/-- `set_int_group`, `set_double_group`. -/
def setNumberGroup (b : Builder ν) (name : Text) (group : List ν) : Option (Builder ν) :=
  b.setItem name (b.heap.createNumberArray group)

def setStringGroup (b : Builder ν) (name : Text) (group : List Text) : Option (Builder ν) :=
  b.setItem name (b.heap.createStringArray group)

end Builder

/-! ## Runs -/

inductive Call (ν : Type) where
  | nav (call : Nav)
  | decodeFromStream (str : Option Text)
  | newRoot
  | newObject (name : Text)
  | newArray (name : Text)
  | attachObject
  | setDouble (name : Text) (v : ν)
  | setBool (name : Text) (v : Bool)
  | setString (name : Text) (v : Option Text)
  | setNumberGroup (name : Text) (group : List ν)
  | setStringGroup (name : Text) (group : List Text)

def Builder.step (parse : Text → ℕ → Option (List (Item ν))) (b : Builder ν) :
    Call ν → Option (Builder ν)
  | .nav call => (b.obj.go b.heap call).map fun obj => { b with obj }
  | .decodeFromStream str => some (b.decodeFromStream parse str)
  | .newRoot => some b.newRoot
  | .newObject name => b.newObject name
  | .newArray name => b.newArray name
  | .attachObject => b.attachObject
  | .setDouble name v => b.setDouble name v
  | .setBool name v => b.setBool name v
  | .setString name v => b.setString name v
  | .setNumberGroup name group => b.setNumberGroup name group
  | .setStringGroup name group => b.setStringGroup name group

end DevFramework.Json
