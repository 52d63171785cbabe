import Mathlib.Logic.Function.Basic
import Mathlib.Data.Int.Notation
import Mathlib.Data.List.Basic
import Mathlib.Tactic.Common

/-! # The items of a document (utility/parser/src/cJSON.cpp, json.cpp)

Items live in memory at addresses, numbers handed out in order; `none` is the null pointer. `ν` is
the type of the numbers that an item can hold (`double`). A function returns `none` where the
source would read through a null pointer, or where its loop over `next` would not end.
-/
namespace DevFramework.Json
set_option autoImplicit false
set_option maxHeartbeats 250000

abbrev Text := List Char

/-- `JSON_ITEM_TYPE` without `IT_NONE`, which no item has. -/
inductive ItemType where
  | itFalse
  | itTrue
  | itNull
  | itNumber
  | itString
  | itArray
  | itObject
  deriving DecidableEq, Repr

/-- `cJSON`. -/
structure Item (ν : Type) where
  type : ItemType
  next : Option ℕ := none
  prev : Option ℕ := none
  child : Option ℕ := none
  string : Option Text := none
  valuestring : Option Text := none
  valuedouble : Option ν := none

/-- Memory: what is at an address, and the address of the next item. -/
structure Heap (ν : Type) where
  mem : ℕ → Item ν
  fresh : ℕ

namespace Heap
variable {ν : Type}

/-- No items. -/
def empty : Heap ν := { mem := fun _ => { type := .itNull }, fresh := 0 }

/-- Rewrite fields of the item at `p`. -/
def modify (h : Heap ν) (p : ℕ) (f : Item ν → Item ν) : Heap ν :=
  { h with mem := Function.update h.mem p (f (h.mem p)) }

@[simp] theorem modify_fresh (h : Heap ν) (p : ℕ) (f : Item ν → Item ν) :
    (h.modify p f).fresh = h.fresh := rfl

@[simp] theorem modify_mem_self (h : Heap ν) (p : ℕ) (f : Item ν → Item ν) :
    (h.modify p f).mem p = f (h.mem p) := by
  simp [modify]

theorem modify_mem_ne {h : Heap ν} {p a : ℕ} (f : Item ν → Item ν) (ha : a ≠ p) :
    (h.modify p f).mem a = h.mem a := by
  simp [modify, Function.update_of_ne ha]

/-- `cJSON_New_Item`, and the fields that its caller sets. -/
def newItem (h : Heap ν) (item : Item ν) : ℕ × Heap ν :=
  (h.fresh, { mem := Function.update h.mem h.fresh item, fresh := h.fresh + 1 })

def createObject (h : Heap ν) : ℕ × Heap ν := h.newItem { type := .itObject }

def createArray (h : Heap ν) : ℕ × Heap ν := h.newItem { type := .itArray }

def createBool (h : Heap ν) (b : Bool) : ℕ × Heap ν :=
  h.newItem { type := if b then .itTrue else .itFalse }

def createNumber (h : Heap ν) (num : ν) : ℕ × Heap ν :=
  h.newItem { type := .itNumber, valuedouble := some num }

def createString (h : Heap ν) (str : Text) : ℕ × Heap ν :=
  h.newItem { type := .itString, valuestring := some str }

/-- `suffix_object`. -/
def suffixObject (h : Heap ν) (prev item : ℕ) : Heap ν :=
  (h.modify prev fun i => { i with next := some item }).modify item fun i =>
    { i with prev := some prev }

/-- `if(!i)a->child=n;else suffix_object(p,n)`, where `p` is the item made last. -/
def linkItem (h : Heap ν) (a : ℕ) (p : Option ℕ) (n : ℕ) : Heap ν :=
  match p with
  | none => h.modify a fun i => { i with child := some n }
  | some p => h.suffixObject p n

/-- The loop that fills an array with items made from values. -/
def fillArray {α : Type} (create : Heap ν → α → ℕ × Heap ν) (a : ℕ) :
    Option ℕ → List α → Heap ν → Heap ν
  | _, [], h => h
  | p, v :: vs, h =>
    let (n, h) := create h v
    fillArray create a (some n) vs (h.linkItem a p n)

/-- `cJSON_CreateIntArray`, `cJSON_CreateDoubleArray`. -/
def createNumberArray (h : Heap ν) (numbers : List ν) : ℕ × Heap ν :=
  let (a, h) := h.createArray
  (a, fillArray createNumber a none numbers h)

/-- `cJSON_CreateStringArray`. -/
def createStringArray (h : Heap ν) (strings : List Text) : ℕ × Heap ν :=
  let (a, h) := h.createArray
  (a, fillArray createString a none strings h)

/-- `while (c && c->next) c = c->next`. -/
def lastOf (h : Heap ν) : ℕ → ℕ → Option ℕ
  | 0, _ => none
  | n + 1, c =>
    match (h.mem c).next with
    | none => some c
    | some c' => lastOf h n c'

/-- `cJSON_AddItemToArray`. -/
def addItemToArray (h : Heap ν) (array : ℕ) (item : ℕ) : Option (Heap ν) :=
  match (h.mem array).child with
  | none => some (h.modify array fun i => { i with child := some item })
  | some c => (h.lastOf h.fresh c).map fun last => h.suffixObject last item

/-- `add_item_to_object` of `json_t`. -/
def addItemToObject (h : Heap ν) (obj : Option ℕ) (name : Text) (item : Option ℕ) :
    Option (Heap ν) :=
  match item with
  | none => some h
  | some item =>
    match obj with
    | none => none
    | some obj => (h.modify item fun i => { i with string := some name }).addItemToArray obj item

/-- `cJSON_GetArrayItem`, from `c`. -/
def arrayItem (h : Heap ν) : ℕ → Option ℕ → Option ℕ
  | _, none => none
  | 0, some c => some c
  | n + 1, some c => arrayItem h n (h.mem c).next

/-- `cJSON_GetObjectItem`, from `c`; names are compared without regard to case. -/
def objectItem (h : Heap ν) (name : Text) : ℕ → Option ℕ → Option (Option ℕ)
  | _, none => some none
  | 0, some _ => none
  | n + 1, some c =>
    if ((h.mem c).string.map fun s => s.map Char.toLower) = some (name.map Char.toLower) then
      some (some c)
    else objectItem h name n (h.mem c).next

/-! ## `json_t` -/

def getNextItem (h : Heap ν) (ih : Option ℕ) : Option ℕ := ih.bind fun p => (h.mem p).next

def getPrevItem (h : Heap ν) (ih : Option ℕ) : Option ℕ := ih.bind fun p => (h.mem p).prev

def getSubItem (h : Heap ν) (ih : Option ℕ) : Option ℕ := ih.bind fun p => (h.mem p).child

def getItemFromName (h : Heap ν) (obj : Option ℕ) (name : Option Text) : Option (Option ℕ) :=
  match obj, name with
  | some p, some name => h.objectItem name h.fresh (h.mem p).child
  | _, _ => some none

def getArrayItemFromPos (h : Heap ν) (arr : Option ℕ) (pos : ℤ) : Option ℕ :=
  match arr with
  | none => none
  | some p => if pos < 0 then none else h.arrayItem pos.toNat (h.mem p).child

/-- The items from `c` on along `next`. -/
def chain (h : Heap ν) : ℕ → Option ℕ → List ℕ
  | _, none => []
  | 0, some _ => []
  | n + 1, some c => c :: chain h n (h.mem c).next

/-- The children of an item. -/
def children (h : Heap ν) (p : ℕ) : List ℕ := h.chain h.fresh (h.mem p).child

end Heap

end DevFramework.Json
