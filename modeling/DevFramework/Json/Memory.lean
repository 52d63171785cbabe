import DevFramework.Json.Document
import DevFramework.Json.RoundTrip

/-! # Items of a text in memory

`cJSON_Parse` makes the items of a text one after the other: an item, those below it, those behind
it. From there they are read as the tree that is printed.
-/
namespace DevFramework.Json
set_option autoImplicit false
set_option maxHeartbeats 250000

variable {ν : Type}

/-- An item that holds a value, without name and links. -/
def Value.item : Value ν → Item ν
  | .null => { type := .itNull }
  | .bool b => { type := if b then .itTrue else .itFalse }
  | .number n => { type := .itNumber, valuedouble := some n }
  | .string s => { type := .itString, valuestring := some s }
  | .array => { type := .itArray }
  | .object => { type := .itObject }

/-- The value of an item; `valuedouble` is 0 where it was not written. -/
def Item.value (D : Doubles ν) (i : Item ν) : Value ν :=
  match i.type with
  | .itFalse => .bool false
  | .itTrue => .bool true
  | .itNull => .null
  | .itNumber => .number (i.valuedouble.getD (D.ofInt 0))
  | .itString => .string (i.valuestring.getD [])
  | .itArray => .array
  | .itObject => .object

/-- The address of the first item, if there is one. -/
def Chain.first (a : ℕ) : Chain ν → Option ℕ
  | .nil => none
  | .cons _ _ _ _ => some a

/-- The items in memory from `start` on. -/
def Chain.layout : ℕ → Option ℕ → Chain ν → List (Item ν)
  | _, _, .nil => []
  | start, prev, .cons string value child next =>
    let below := child.layout (start + 1) none
    let behind := next.layout (start + 1 + below.length) (some start)
    { value.item with
      string
      prev
      child := child.first (start + 1)
      next := next.first (start + 1 + below.length) } :: (below ++ behind)

/-- The items from an address on, as a tree. -/
def Heap.tree (D : Doubles ν) (h : Heap ν) : ℕ → Option ℕ → Chain ν
  | _, none => .nil
  | 0, some _ => .nil
  | n + 1, some p =>
    .cons (h.mem p).string ((h.mem p).value D) (h.tree D n (h.mem p).child)
      (h.tree D n (h.mem p).next)

theorem first_lt {c : Chain ν} {a m : ℕ} {prev : Option ℕ}
    (hm : a + (c.layout a prev).length ≤ m) : ∀ n, c.first a = some n → n = a ∧ n < m := by
  intro n hn
  cases c with
  | nil => cases hn
  | cons string value child next =>
    obtain rfl : a = n := Option.some.inj hn
    refine ⟨rfl, ?_⟩
    simp only [Chain.layout, List.length_cons] at hm
    omega

/-- Items stand in memory from `start` on. -/
def Heap.Stored (h : Heap ν) (start : ℕ) (items : List (Item ν)) : Prop :=
  ∀ i item, items[i]? = some item → h.mem (start + i) = item

section Stored
variable {h : Heap ν} {start : ℕ} {item : Item ν} {items more : List (Item ν)}

theorem Heap.Stored.head (hs : h.Stored start (item :: items)) : h.mem start = item := hs 0 item rfl

theorem Heap.Stored.tail (hs : h.Stored start (item :: items)) : h.Stored (start + 1) items := by
  intro i x hx
  rw [Nat.add_assoc, Nat.add_comm 1 i]
  exact hs (i + 1) x hx

theorem Heap.Stored.left (hs : h.Stored start (items ++ more)) : h.Stored start items := by
  intro i x hx
  refine hs i x ?_
  rw [List.getElem?_append_left (List.getElem?_eq_some_iff.mp hx).1]
  exact hx

theorem Heap.Stored.right (hs : h.Stored start (items ++ more)) :
    h.Stored (start + items.length) more := by
  intro i x hx
  rw [Nat.add_assoc]
  refine hs _ x ?_
  rw [List.getElem?_append_right (Nat.le_add_right _ _), Nat.add_sub_cancel_left]
  exact hx

end Stored

end DevFramework.Json
