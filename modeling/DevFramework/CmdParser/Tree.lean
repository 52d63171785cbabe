import DevFramework.CmdParser.Sections
import Mathlib.Data.List.Forall2
import Mathlib.Data.List.Nodup

/-! # The tree in the heap

`Holds nodes p i` says that node `p` and its children are the item `i`, and `Tree` that the root's
children are a list of items. An operator node is changed only by a push to its own children, and a
data node never, so the items of the other children stay where they are.
-/
namespace DevFramework.CmdParser
set_option autoImplicit false
set_option maxHeartbeats 250000

theorem exists_of_forall₂ {α β : Type*} {R : α → β → Prop} {l : List α} {u : List β}
    (h : List.Forall₂ R l u) {a : α} (ha : a ∈ l) : ∃ b, R a b := by
  induction h with
  | nil => cases ha
  | cons hab _ ih =>
    rcases List.mem_cons.mp ha with rfl | ha
    · exact ⟨_, hab⟩
    · exact ih ha

/-- A comment's node, wherever the comment stands. -/
def HoldsCmt (nodes : List Node) (q : Ptr) (cmt : Text) : Prop :=
  ∃ line, nodes[q]? = some (cmtNode cmt line)

/-- Node `p` is the root of the item. -/
inductive Holds (nodes : List Node) (p : Ptr) : Item → Prop where
  | create {c : Ptr} {name : Text}
      (node : nodes[p]? = some { createNode with child := [c] })
      (child : nodes[c]? = some (fileNameNode name)) : Holds nodes p (.create name)
  | write {c : Ptr} {cs : List Ptr} {range name : Text} {line : ℕ} {sid : BitVec 32}
      {cmts : List Text}
      (node : nodes[p]? = some { writeNode range with child := c :: cs })
      (child : nodes[c]? = some (cmdNameNode name line sid))
      (rest : List.Forall₂ (HoldsCmt nodes) cs cmts) : Holds nodes p (.write range name sid cmts)
  | close (node : nodes[p]? = some closeNode) : Holds nodes p .close

structure Tree (nodes : List Node) (ps : List Ptr) (is : List Item) : Prop where
  root : nodes[root]? = some { nodeType := .root, child := ps }
  nodup : ps.Nodup
  holds : List.Forall₂ (Holds nodes) ps is

/-- Every data node of the first heap is in the second. -/
def KeepsData (nodes nodes' : List Node) : Prop :=
  ∀ (q : Ptr) (n : Node), nodes[q]? = some n → n.nodeType = .data → nodes'[q]? = some n

theorem KeepsData.append (nodes more : List Node) : KeepsData nodes (nodes ++ more) := by
  intro q n hq hdata
  rw [List.getElem?_append_left (List.getElem?_eq_some_iff.mp hq).1]
  exact hq

theorem KeepsData.modify {nodes : List Node} {p : Ptr} {n₀ : Node} (hp : nodes[p]? = some n₀)
    (htype : n₀.nodeType ≠ .data) (f : Node → Node) : KeepsData nodes (nodes.modify p f) := by
  intro q n hq hdata
  have hne : p ≠ q := by
    rintro rfl
    rw [hp] at hq
    obtain rfl := Option.some.inj hq
    exact htype hdata
  rw [List.getElem?_modify_ne f nodes hne]
  exact hq

theorem KeepsData.trans {nodes nodes' nodes'' : List Node} (h : KeepsData nodes nodes')
    (h' : KeepsData nodes' nodes'') : KeepsData nodes nodes'' :=
  fun q n hq hdata => h' q n (h q n hq hdata) hdata

section Frames
variable {nodes nodes' : List Node} {p : Ptr} {i : Item}

theorem KeepsData.cmts (h : KeepsData nodes nodes') {cs : List Ptr} {cmts : List Text}
    (hcs : List.Forall₂ (HoldsCmt nodes) cs cmts) : List.Forall₂ (HoldsCmt nodes') cs cmts := by
  refine List.Forall₂.imp ?_ hcs
  rintro q cmt ⟨line, hq⟩
  exact ⟨line, h q _ hq rfl⟩

theorem Holds.frame (h : Holds nodes p i) (hdata : KeepsData nodes nodes')
    (hp : nodes'[p]? = nodes[p]?) : Holds nodes' p i := by
  cases h with
  | create hnode hchild => exact .create (hp.trans hnode) (hdata _ _ hchild rfl)
  | write hnode hchild hrest =>
    exact .write (hp.trans hnode) (hdata _ _ hchild rfl) (hdata.cmts hrest)
  | close hnode => exact .close (hp.trans hnode)

/-- The node of an item is an operator node. -/
theorem Holds.oper (h : Holds nodes p i) : ∃ n, nodes[p]? = some n ∧ n.nodeType = .oper := by
  cases h with
  | create hnode _ => exact ⟨_, hnode, rfl⟩
  | write hnode _ _ => exact ⟨_, hnode, rfl⟩
  | close hnode => exact ⟨_, hnode, rfl⟩

theorem Holds.lt (h : Holds nodes p i) : p < nodes.length := by
  obtain ⟨n, hn, -⟩ := h.oper
  exact (List.getElem?_eq_some_iff.mp hn).1

end Frames

namespace Tree
variable {nodes nodes' : List Node} {ps : List Ptr} {is : List Item}

theorem item (h : Tree nodes ps is) {p : Ptr} (hp : p ∈ ps) : ∃ i, Holds nodes p i :=
  exists_of_forall₂ h.holds hp

theorem ne_root (h : Tree nodes ps is) {p : Ptr} (hp : p ∈ ps) : p ≠ CmdParser.root := by
  obtain ⟨i, hi⟩ := h.item hp
  obtain ⟨n, hn, htype⟩ := hi.oper
  rintro rfl
  rw [h.root] at hn
  obtain rfl := Option.some.inj hn
  cases htype

theorem lt (h : Tree nodes ps is) {p : Ptr} (hp : p ∈ ps) : p < nodes.length := by
  obtain ⟨i, hi⟩ := h.item hp
  exact hi.lt

theorem pos (h : Tree nodes ps is) : 0 < nodes.length := (List.getElem?_eq_some_iff.mp h.root).1

theorem nil_iff (h : Tree nodes ps is) : ps = [] ↔ is = [] := by
  rw [← List.length_eq_zero_iff, ← List.length_eq_zero_iff, h.holds.length_eq]

/-- A new item under the root. -/
theorem grow (h : Tree nodes ps is) {p : Ptr} {i : Item}
    (hroot : nodes'[CmdParser.root]? = some { nodeType := .root, child := ps ++ [p] })
    (hold : ∀ q, q ≠ CmdParser.root → q < nodes.length → nodes'[q]? = nodes[q]?)
    (hp : nodes.length ≤ p) (hi : Holds nodes' p i) : Tree nodes' (ps ++ [p]) (is ++ [i]) := by
  have hdata : KeepsData nodes nodes' := by
    intro q n hq hdata
    rw [hold q ?_ (List.getElem?_eq_some_iff.mp hq).1, hq]
    rintro rfl
    rw [h.root] at hq
    obtain rfl := Option.some.inj hq
    cases hdata
  refine ⟨hroot, ?_, ?_⟩
  · rw [List.nodup_append]
    refine ⟨h.nodup, List.nodup_singleton p, fun a ha b hb => ?_⟩
    obtain rfl := List.mem_singleton.mp hb
    exact Nat.ne_of_lt (Nat.lt_of_lt_of_le (h.lt ha) hp)
  · have hkept : List.Forall₂ (Holds nodes') ps is := by
      have hall := (List.forall₂_and_left ps is).mpr ⟨fun q hq => hq, h.holds⟩
      refine List.Forall₂.imp ?_ hall
      rintro q j ⟨hq, hj⟩
      exact hj.frame hdata (hold q (h.ne_root hq) (h.lt hq))
    exact List.rel_append hkept (.cons hi .nil)

end Tree

end DevFramework.CmdParser
