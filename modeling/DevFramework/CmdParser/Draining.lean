import DevFramework.CmdParser.Building
import Mathlib.Algebra.Order.BigOperators.Group.List
import Mathlib.Algebra.Order.Ring.Nat

/-! # Draining item by item

`itemStep` is what an item does to the files. The recursion over the heap pops every child it visits
and hands the data nodes over in a queue; the queue is empty before and after each child of the
root, so draining the tree of some items is `drainItems`, the items' steps one after the other.
-/
namespace DevFramework.CmdParser
set_option autoImplicit false
set_option maxHeartbeats 250000

/-! ## The items' own meaning -/

def itemStep (env : Env) (tgt : TargetOutput) (w : Writer) : Item → Result Writer
  | .create name => w.create env tgt name
  | .write range name sid cmts =>
    (cmdText tgt range name sid [] w).bind fun (finLine, w) =>
      w.writeLine (cmts.foldl (fun finLine cmt => cmtText tgt cmt finLine) finLine)
  | .close => w.close tgt

def drainItems (env : Env) (tgt : TargetOutput) : Writer → List Item → Result Writer
  | w, [] => .ok w
  | w, i :: is => (itemStep env tgt w i).bind fun w => drainItems env tgt w is

/-- How many children an item's node has. -/
def Item.width : Item → ℕ
  | .create _ => 1
  | .write _ _ _ cmts => cmts.length + 1
  | .close => 0

/-! ## Data nodes -/

section Leaves
variable (env : Env) (tgt : TargetOutput) {nodes : List Node}

/-- A data node: it has no children. -/
def DataLeaf (nodes : List Node) (c : Ptr) : Prop :=
  ∃ n, nodes[c]? = some n ∧ n.nodeType = .data ∧ n.child = []

theorem KeepsData.leaf {nodes' : List Node} (h : KeepsData nodes nodes') {c : Ptr}
    (hc : DataLeaf nodes c) : DataLeaf nodes' c := by
  obtain ⟨n, hn, htype, hchild⟩ := hc
  exact ⟨n, h c n hn htype, htype, hchild⟩

theorem iOutput_leaf (fuel : ℕ) {c : Ptr} {s : Drain} (hc : DataLeaf s.nodes c) :
    Drain.iOutput env tgt (fuel + 1) c s = .ok { s with dataNodes := s.dataNodes ++ [c] } := by
  obtain ⟨n, hn, htype, hchild⟩ := hc
  simp [Drain.iOutput, hn, hchild, Drain.leaf, htype]

/-- A node whose children are data nodes puts them into the queue, in order. -/
theorem drainChildren_leaves (fuel : ℕ) {p : Ptr} {n : Node} {cs : List Ptr} {s : Drain}
    (hp : s.nodes[p]? = some { n with child := cs }) (htype : n.nodeType ≠ .data)
    (hcs : ∀ c ∈ cs, DataLeaf s.nodes c) (hfuel : cs.length < fuel) :
    ∃ nodes', Drain.drainChildren env tgt fuel p s =
        .ok ⟨nodes', s.dataNodes ++ cs, s.writer⟩ ∧
      (∀ q, q ≠ p → nodes'[q]? = s.nodes[q]?) := by
  induction cs generalizing s fuel with
  | nil =>
    obtain ⟨fuel, rfl⟩ : ∃ k, fuel = k + 1 := ⟨fuel - 1, by simp at hfuel; omega⟩
    refine ⟨s.nodes, ?_, fun q _ => rfl⟩
    simp [Drain.drainChildren, hp]
  | cons c cs ih =>
    obtain ⟨fuel, rfl⟩ : ∃ k, fuel = k + 2 := ⟨fuel - 2, by simp at hfuel; omega⟩
    have hdata : KeepsData s.nodes (s.popChild p).nodes := .modify hp htype _
    have hleaf := hdata.leaf (hcs c List.mem_cons_self)
    have hp' : (s.popChild p).nodes[p]? = some { n with child := cs } := by
      simp [Drain.popChild, hp]
    obtain ⟨nodes', hrun, hframe⟩ := ih (fuel + 1)
      (s := { s.popChild p with dataNodes := (s.popChild p).dataNodes ++ [c] }) hp'
      (fun c' hc' => hdata.leaf (hcs c' (List.mem_cons_of_mem c hc')))
      (by simp at hfuel; omega)
    refine ⟨nodes', ?_, fun q hq => ?_⟩
    · rw [Drain.drainChildren, hp]
      simp only [iOutput_leaf env tgt fuel hleaf, Except.bind]
      rw [hrun]
      simp [Drain.popChild]
    · rw [hframe q hq]
      exact List.getElem?_modify_ne _ _ hq.symm

/-- The loop of `OT_WRITE` over comments. -/
theorem writeLoop_cmts {range : Text} {cs : List Ptr} {cmts : List Text} (finLine : Text)
    (w : Writer) (hcs : List.Forall₂ (HoldsCmt nodes) cs cmts) :
    Drain.writeLoop tgt nodes range cs finLine w =
      .ok (cmts.foldl (fun finLine cmt => cmtText tgt cmt finLine) finLine, w) := by
  induction hcs generalizing finLine with
  | nil => rfl
  | @cons q cmt cs cmts hq _ ih =>
    obtain ⟨line, hq⟩ := hq
    rw [Drain.writeLoop, hq]
    simpa [cmtNode] using ih (cmtText tgt cmt finLine)

end Leaves

/-! ## One item -/

section Item
variable (env : Env) (tgt : TargetOutput) {s : Drain} {p : Ptr}

theorem iOutput_children (fuel : ℕ) {n : Node} (hp : s.nodes[p]? = some n) (hchild : n.child ≠ []) :
    Drain.iOutput env tgt (fuel + 1) p s =
      (Drain.drainChildren env tgt fuel p s).bind (Drain.operate env tgt n) := by
  simp [Drain.iOutput, hp, hchild]

/-- The call of `i_output` for an item, with an empty queue before and after it. -/
theorem iOutput_item (fuel : ℕ) {i : Item} (h : Holds s.nodes p i) (hqueue : s.dataNodes = [])
    (hfuel : i.width + 1 < fuel) :
    ∃ nodes', Drain.iOutput env tgt fuel p s =
        (itemStep env tgt s.writer i).map (fun w => ⟨nodes', [], w⟩) ∧
      (∀ q, q ≠ p → nodes'[q]? = s.nodes[q]?) := by
  obtain ⟨fuel, rfl⟩ : ∃ k, fuel = k + 1 := ⟨fuel - 1, by omega⟩
  have hoper := h.oper
  cases h with
  | close hnode =>
    refine ⟨s.nodes, ?_, fun q _ => rfl⟩
    simp only [Drain.iOutput, hnode, closeNode, List.isEmpty_nil, if_true, Drain.leaf, itemStep]
    rw [← hqueue]
  | @create c name hnode hchild =>
    have hleaf : ∀ c' ∈ [c], DataLeaf s.nodes c' := by
      intro c' hc'
      rw [List.mem_singleton.mp hc']
      exact ⟨_, hchild, rfl, rfl⟩
    obtain ⟨nodes', hrun, hframe⟩ := drainChildren_leaves env tgt fuel
      hnode (by decide) hleaf (by simp [Item.width] at hfuel ⊢; omega)
    refine ⟨nodes', ?_, hframe⟩
    have hne : c ≠ p := by
      rintro rfl
      rw [hnode] at hchild
      cases hchild
    rw [iOutput_children env tgt fuel hnode (by simp), hrun, hqueue]
    simp [Except.bind, Drain.operate, createNode, hframe c hne, hchild, fileNameNode, itemStep]
  | @write c cs range name line sid cmts hnode hchild hrest =>
    have hleaf : ∀ c' ∈ c :: cs, DataLeaf s.nodes c' := by
      intro c' hc'
      rcases List.mem_cons.mp hc' with rfl | hc'
      · exact ⟨_, hchild, rfl, rfl⟩
      · obtain ⟨cmt, line', hcmt⟩ := exists_of_forall₂ hrest hc'
        exact ⟨_, hcmt, rfl, rfl⟩
    have hlen := hrest.length_eq
    obtain ⟨nodes', hrun, hframe⟩ := drainChildren_leaves env tgt fuel
      hnode (by simp [writeNode]) hleaf (by simp [Item.width] at hfuel ⊢; omega)
    have hdata : KeepsData s.nodes nodes' := by
      intro q n hq htype
      rw [hframe q ?_, hq]
      rintro rfl
      rw [hnode] at hq
      obtain rfl := Option.some.inj hq
      cases htype
    refine ⟨nodes', ?_, hframe⟩
    rw [iOutput_children env tgt fuel hnode (by simp), hrun, hqueue]
    simp only [Except.bind, Drain.operate, writeNode, List.nil_append, itemStep]
    rw [Drain.writeLoop, hdata c _ hchild rfl]
    simp only [cmdNameNode, if_true]
    cases cmdText tgt range name sid [] s.writer with
    | error e => rfl
    | ok v => simp [Except.bind, writeLoop_cmts tgt _ _ (hdata.cmts hrest)]

end Item

/-! ## The root -/

section Root
variable (env : Env) (tgt : TargetOutput)

theorem Tree.tail {nodes nodes' : List Node} {p : Ptr} {ps : List Ptr} {i : Item} {is : List Item}
    (h : Tree nodes (p :: ps) (i :: is))
    (hframe : ∀ q, q ≠ p → nodes'[q]? = (nodes.modify CmdParser.root fun n =>
      { n with child := n.child.tail })[q]?) : Tree nodes' ps is := by
  have hne : CmdParser.root ≠ p := (h.ne_root List.mem_cons_self).symm
  obtain ⟨hp, hnodup⟩ := List.nodup_cons.mp h.nodup
  cases h.holds with
  | cons hi his =>
    have hold : ∀ q, q ≠ CmdParser.root → q ≠ p → nodes'[q]? = nodes[q]? := fun q hq hqp =>
      (hframe q hqp).trans (List.getElem?_modify_ne _ _ hq.symm)
    have hdata : KeepsData nodes nodes' := by
      intro q n hq htype
      rw [hold q ?_ ?_, hq]
      · rintro rfl
        rw [h.root] at hq
        obtain rfl := Option.some.inj hq
        cases htype
      · rintro rfl
        obtain ⟨n', hn', htype'⟩ := hi.oper
        rw [hq] at hn'
        obtain rfl := Option.some.inj hn'
        rw [htype] at htype'
        cases htype'
    refine ⟨?_, hnodup, ?_⟩
    · rw [hframe _ hne]
      simp [h.root]
    · have hmem := (List.forall₂_and_left ps is).mpr ⟨fun q hq => hq, his⟩
      refine List.Forall₂.imp ?_ hmem
      rintro q j ⟨hq, hj⟩
      refine hj.frame hdata (hold q (h.ne_root (List.mem_cons_of_mem p hq)) ?_)
      rintro rfl
      exact hp hq

/-- Draining the root is running its items; the queue is empty in the end. -/
theorem drainChildren_root (fuel width : ℕ) {is : List Item} {ps : List Ptr} {s : Drain}
    (h : Tree s.nodes ps is) (hqueue : s.dataNodes = []) (hwidth : ∀ i ∈ is, i.width ≤ width)
    (hfuel : ps.length + width + 2 < fuel) :
    ∃ nodes', Drain.drainChildren env tgt fuel root s =
      (drainItems env tgt s.writer is).map (fun w => ⟨nodes', [], w⟩) := by
  induction is generalizing ps s fuel with
  | nil =>
    obtain ⟨fuel, rfl⟩ : ∃ k, fuel = k + 1 := ⟨fuel - 1, by omega⟩
    have hroot := h.root
    rw [h.nil_iff.mpr rfl] at hroot
    refine ⟨s.nodes, ?_⟩
    simp only [Drain.drainChildren, hroot, drainItems, Except.map]
    rw [← hqueue]
  | cons i is ih =>
    cases ps with
    | nil => cases h.holds
    | cons p ps =>
      obtain ⟨fuel, rfl⟩ : ∃ k, fuel = k + 1 := ⟨fuel - 1, by omega⟩
      have hwi := hwidth i List.mem_cons_self
      have hfuel' : ps.length + width + 2 < fuel := by
        simp only [List.length_cons] at hfuel
        omega
      cases hs : h.holds with
      | cons hi _ =>
        have hpop : Holds (s.popChild root).nodes p i :=
          hi.frame (.modify h.root (by simp) _)
            (List.getElem?_modify_ne _ _ (h.ne_root List.mem_cons_self).symm)
        obtain ⟨nodes₁, hrun, hframe⟩ := iOutput_item env tgt fuel hpop hqueue (by omega)
        have htail : Tree nodes₁ ps is := h.tail hframe
        rw [Drain.drainChildren, h.root]
        simp only [hrun, drainItems]
        cases hw : itemStep env tgt s.writer i with
        | error e =>
          refine ⟨nodes₁, ?_⟩
          simp [Drain.popChild, hw, Except.map, Except.bind]
        | ok w =>
          obtain ⟨nodes', hrest⟩ := ih fuel (s := ⟨nodes₁, [], w⟩) htail rfl
            (fun j hj => hwidth j (List.mem_cons_of_mem i hj)) hfuel'
          refine ⟨nodes', ?_⟩
          simpa [Drain.popChild, hw, Except.map, Except.bind] using hrest

end Root

/-! ## The whole tree -/

theorem childCount_ge_one {nodes : List Node} {a : Ptr} {n : Node} (ha : nodes[a]? = some n) :
    n.child.length ≤ childCount nodes := by
  apply List.single_le_sum fun _ _ => Nat.zero_le _
  exact List.mem_map.mpr ⟨n, List.mem_of_getElem? ha, rfl⟩

theorem childCount_ge_two {nodes : List Node} {a b : Ptr} {n m : Node}
    (ha : nodes[a]? = some n) (hb : nodes[b]? = some m) (hab : a ≠ b) :
    n.child.length + m.child.length ≤ childCount nodes := by
  induction nodes generalizing a b with
  | nil => cases ha
  | cons x nodes ih =>
    have hcount : childCount (x :: nodes) = x.child.length + childCount nodes := by
      simp [childCount]
    cases a with
    | zero =>
      cases b with
      | zero => exact absurd rfl hab
      | succ b =>
        obtain rfl : x = n := Option.some.inj ha
        have := childCount_ge_one (show nodes[b]? = some m from hb)
        omega
    | succ a =>
      cases b with
      | zero =>
        obtain rfl : x = m := Option.some.inj hb
        have := childCount_ge_one (show nodes[a]? = some n from ha)
        omega
      | succ b =>
        have := ih (show nodes[a]? = some n from ha) (show nodes[b]? = some m from hb)
          (fun h => hab (congrArg Nat.succ h))
        omega

theorem Holds.width {nodes : List Node} {p : Ptr} {i : Item} (h : Holds nodes p i) :
    ∃ n, nodes[p]? = some n ∧ n.child.length = i.width := by
  cases h with
  | create hnode _ => exact ⟨_, hnode, rfl⟩
  | write hnode _ hrest => exact ⟨_, hnode, congrArg Nat.succ hrest.length_eq⟩
  | close hnode => exact ⟨_, hnode, rfl⟩

theorem Tree.width {nodes : List Node} {ps : List Ptr} {is : List Item} (h : Tree nodes ps is)
    {i : Item} (hi : i ∈ is) : ps.length + i.width ≤ childCount nodes := by
  obtain ⟨k, hk, rfl⟩ := List.mem_iff_getElem.mp hi
  have hk' : k < ps.length := h.holds.length_eq ▸ hk
  have hp : ps[k] ∈ ps := List.getElem_mem hk'
  have hholds := (List.forall₂_iff_get.mp h.holds).2 k hk' hk
  obtain ⟨n, hn, hwidth⟩ := hholds.width
  have := childCount_ge_two h.root hn (h.ne_root hp).symm
  simp only [List.get_eq_getElem] at hwidth this
  omega

/-- The files of an accepted definition are those of its items; the fuel never runs out. -/
theorem output_eq {ts : List Token} {c : Compiler} (h : compile ts = some c) (env : Env)
    (tgt : TargetOutput) :
    ∃ nodes', output env tgt c.parser =
      (drainItems env tgt .init (items (sections ts) ++ [.close])).map
        (fun w => ⟨nodes', [], w⟩) := by
  obtain ⟨ps, htree, -⟩ := (built_compile h).tree
  have hclosed := JfCmdParser.tree_close htree
  unfold output
  generalize c.parser.allocUnderRoot closeNode = p at hclosed ⊢
  generalize hps : ps ++ [c.parser.nodes.length] = ps' at hclosed
  have hne : ps' ≠ [] := by
    rw [← hps]
    simp
  have hroom : ps'.length ≤ childCount p.nodes := childCount_ge_one hclosed.root
  obtain ⟨nodes', hrun⟩ := drainChildren_root env tgt (childCount p.nodes + 3)
    (childCount p.nodes - ps'.length) (s := ⟨p.nodes, [], .init⟩) hclosed rfl
    (fun i hi => by have := hclosed.width hi; omega) (by omega)
  refine ⟨nodes', ?_⟩
  rw [iOutput_children env tgt (childCount p.nodes + 3) hclosed.root hne, hrun]
  cases drainItems env tgt .init (items (sections ts) ++ [.close]) with
  | error e => rfl
  | ok w => rfl

end DevFramework.CmdParser
