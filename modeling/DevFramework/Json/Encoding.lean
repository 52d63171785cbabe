import DevFramework.Json.Memory
import DevFramework.Json.Proper
import DevFramework.Foundations.Transition

/-! # A document that was built is encoded and decoded

Items link to items made later, and entries of objects have names. The calls that build keep this:
an item that is added is the last one made, and a name is given to it wherever it can become the
entry of an object. So what `encode` prints is a document that `decode_from_stream` reads back.
-/
namespace DevFramework.Json
open Transition
set_option autoImplicit false
set_option maxHeartbeats 250000

variable {ν : Type}

def Item.Named (i : Item ν) : Prop := ∃ s, i.string = some s ∧ '\x00' ∉ s

namespace Heap
variable {D : Doubles ν} {h H H' : Heap ν} {inObject : ℕ → Prop} {lo mid hi p item : ℕ}

/-- Items from `lo` up to `hi`; `inObject` tells which of them are entries of objects. -/
structure Tidy (D : Doubles ν) (h : Heap ν) (inObject : ℕ → Prop) (lo hi : ℕ) : Prop where
  next : ∀ a n, lo ≤ a → a < hi → (h.mem a).next = some n →
    a < n ∧ n < hi ∧ (inObject n ↔ inObject a)
  child : ∀ a n, lo ≤ a → a < hi → (h.mem a).child = some n →
    a < n ∧ n < hi ∧ (inObject n ↔ (h.mem a).type = .itObject)
  named : ∀ a, lo ≤ a → a < hi → inObject a → (h.mem a).Named
  clean : ∀ a, lo ≤ a → a < hi → ((h.mem a).value D).Clean D

theorem Tidy.congr (ht : h.Tidy D inObject lo hi) {inObject' : ℕ → Prop}
    (hmem : ∀ a, lo ≤ a → a < hi → H.mem a = h.mem a)
    (hin : ∀ a, lo ≤ a → a < hi → (inObject' a ↔ inObject a)) : H.Tidy D inObject' lo hi where
  next a n ha ha' hn := by
    rw [hmem a ha ha'] at hn
    obtain ⟨hlt, hhi, hiff⟩ := ht.next a n ha ha' hn
    exact ⟨hlt, hhi, by rw [hin n (by omega) hhi, hin a ha ha']; exact hiff⟩
  child a n ha ha' hn := by
    rw [hmem a ha ha'] at hn ⊢
    obtain ⟨hlt, hhi, hiff⟩ := ht.child a n ha ha' hn
    exact ⟨hlt, hhi, by rw [hin n (by omega) hhi]; exact hiff⟩
  named a ha ha' hobj := by
    rw [hmem a ha ha']
    exact ht.named a ha ha' ((hin a ha ha').mp hobj)
  clean a ha ha' := by
    rw [hmem a ha ha']
    exact ht.clean a ha ha'

theorem Tidy.append (hl : h.Tidy D inObject lo mid) (hr : h.Tidy D inObject mid hi)
    (hle : mid ≤ hi) : h.Tidy D inObject lo hi where
  next a n ha ha' hn := by
    by_cases hlow : a < mid
    · obtain ⟨hlt, hhi, hiff⟩ := hl.next a n ha hlow hn
      exact ⟨hlt, by omega, hiff⟩
    · exact hr.next a n (by omega) ha' hn
  child a n ha ha' hn := by
    by_cases hlow : a < mid
    · obtain ⟨hlt, hhi, hiff⟩ := hl.child a n ha hlow hn
      exact ⟨hlt, by omega, hiff⟩
    · exact hr.child a n (by omega) ha' hn
  named a ha ha' hobj := by
    by_cases hlow : a < mid
    · exact hl.named a ha hlow hobj
    · exact hr.named a (by omega) ha' hobj
  clean a ha ha' := by
    by_cases hlow : a < mid
    · exact hl.clean a ha hlow
    · exact hr.clean a (by omega) ha'

/-- Another place for an item to which nothing links. -/
theorem Tidy.place (ht : h.Tidy D inObject 0 hi) (hfree : ∀ a < hi,
      (h.mem a).next ≠ some item ∧ (h.mem a).child ≠ some item)
    (hnext : (h.mem item).next = none) {q : Prop} (hq : q → (h.mem item).Named) :
    h.Tidy D (Function.update inObject item q) 0 hi := by
  have hother : ∀ a, a ≠ item → (Function.update inObject item q a ↔ inObject a) := fun a ha => by
    rw [Function.update_of_ne ha]
  refine ⟨fun a n ha ha' hn => ?_, fun a n ha ha' hn => ?_, fun a ha ha' hobj => ?_, ht.clean⟩
  · obtain ⟨hlt, hhi, hiff⟩ := ht.next a n ha ha' hn
    have hne : n ≠ item := fun h => (hfree a ha').1 (h ▸ hn)
    have hne' : a ≠ item := fun h => by
      rw [h, hnext] at hn
      cases hn
    rw [hother n hne, hother a hne']
    exact ⟨hlt, hhi, hiff⟩
  · obtain ⟨hlt, hhi, hiff⟩ := ht.child a n ha ha' hn
    have hne : n ≠ item := fun h => (hfree a ha').2 (h ▸ hn)
    rw [hother n hne]
    exact ⟨hlt, hhi, hiff⟩
  · by_cases heq : a = item
    · subst heq
      rw [Function.update_self] at hobj
      exact hq hobj
    · exact ht.named a ha ha' ((hother a heq).mp hobj)

theorem Tidy.setChild (ht : h.Tidy D inObject 0 hi) (hp : p < item) (hitem : item < hi)
    (hin : inObject item ↔ (h.mem p).type = .itObject) :
    (h.modify p fun i => { i with child := some item }).Tidy D inObject 0 hi := by
  have hmem : ∀ a, ((h.modify p fun i => { i with child := some item }).mem a) =
      { h.mem a with child := if a = p then some item else (h.mem a).child } := by
    intro a
    rw [modify_mem]
    split <;> simp_all
  refine ⟨fun a n ha ha' hn => ?_, fun a n ha ha' hn => ?_, fun a ha ha' hobj => ?_,
    fun a ha ha' => ?_⟩
  · rw [hmem] at hn
    exact ht.next a n ha ha' hn
  · rw [hmem] at hn ⊢
    simp only at hn ⊢
    split at hn
    · rename_i heq
      obtain rfl := Option.some.inj hn
      subst heq
      exact ⟨hp, hitem, hin⟩
    · exact ht.child a n ha ha' hn
  · rw [hmem]
    exact ht.named a ha ha' hobj
  · rw [hmem]
    exact ht.clean a ha ha'

theorem Tidy.suffix {last : ℕ} (ht : h.Tidy D inObject 0 hi) (hlast : last < item)
    (hitem : item < hi) (hin : inObject item ↔ inObject last) :
    (h.suffixObject last item).Tidy D inObject 0 hi := by
  refine ⟨fun a n ha ha' hn => ?_, fun a n ha ha' hn => ?_, fun a ha ha' hobj => ?_,
    fun a ha ha' => ?_⟩
  · rw [suffixObject_mem] at hn
    simp only at hn
    split at hn
    · rename_i heq
      obtain rfl := Option.some.inj hn
      subst heq
      exact ⟨hlast, hitem, hin⟩
    · exact ht.next a n ha ha' hn
  · rw [suffixObject_mem] at hn ⊢
    exact ht.child a n ha ha' hn
  · rw [suffixObject_mem]
    exact ht.named a ha ha' hobj
  · rw [suffixObject_mem]
    exact ht.clean a ha ha'

theorem Tidy.newItem (ht : h.Tidy D inObject 0 h.fresh) {i : Item ν} (hnext : i.next = none)
    (hchild : i.child = none) (hclean : (i.value D).Clean D) :
    (h.newItem i).2.Tidy D (Function.update inObject h.fresh False) 0 (h.fresh + 1) := by
  have hself : (h.newItem i).2.mem h.fresh = i := by simp [Heap.newItem]
  have hold : (h.newItem i).2.Tidy D (Function.update inObject h.fresh False) 0 h.fresh :=
    ht.congr (fun a _ ha => by simp [Heap.newItem, Function.update_of_ne (Nat.ne_of_lt ha)])
      fun a _ ha => by rw [Function.update_of_ne (Nat.ne_of_lt ha)]
  refine hold.append ⟨fun a n ha ha' hn => ?_, fun a n ha ha' hn => ?_, fun a ha ha' hobj => ?_,
    fun a ha ha' => ?_⟩ (Nat.le_succ _)
  all_goals
    obtain rfl : a = h.fresh := by omega
  · rw [hself, hnext] at hn
    cases hn
  · rw [hself, hchild] at hn
    cases hn
  · rw [Function.update_self] at hobj
    exact absurd hobj id
  · rw [hself]
    exact hclean

/-- What goes on along `next` holds of the last item. -/
theorem lastOf_keeps {P : ℕ → Prop} (hP : ∀ a n, P a → (h.mem a).next = some n → P n) {n c last : ℕ}
    (hc : P c) (hlast : h.lastOf n c = some last) : P last := by
  induction n generalizing c with
  | zero => cases hlast
  | succ n ih =>
    rw [lastOf] at hlast
    split at hlast
    · exact Option.some.inj hlast ▸ hc
    · rename_i c' hnext
      exact ih (hP c c' hc hnext) hlast

theorem Tidy.add (hold : ∃ before, h.Tidy D before 0 h.fresh) (ht : H.Tidy D inObject 0 H.fresh)
    (hgrows : h.fresh < H.fresh) (hkeeps : ∀ a < h.fresh, H.mem a = h.mem a)
    (hnext : (H.mem h.fresh).next = none) (hp : p < h.fresh)
    (hname : (H.mem p).type = .itObject → (H.mem h.fresh).Named)
    (hadd : H.addItemToArray p h.fresh = some H') :
    ∃ inObject, H'.Tidy D inObject 0 H'.fresh := by
  obtain ⟨before, hold⟩ := hold
  have hfree : ∀ a < H.fresh, (H.mem a).next ≠ some h.fresh ∧ (H.mem a).child ≠ some h.fresh := by
    intro a ha
    by_cases hlow : a < h.fresh
    · rw [hkeeps a hlow]
      refine ⟨fun hn => ?_, fun hn => ?_⟩
      · have hlt := (hold.next a _ (Nat.zero_le a) hlow hn).2.1
        omega
      · have hlt := (hold.child a _ (Nat.zero_le a) hlow hn).2.1
        omega
    · refine ⟨fun hn => ?_, fun hn => ?_⟩
      · have hlt := (ht.next a _ (Nat.zero_le a) ha hn).1
        omega
      · have hlt := (ht.child a _ (Nat.zero_le a) ha hn).1
        omega
  have hplaced := ht.place hfree hnext hname
  have hitem : Function.update inObject h.fresh ((H.mem p).type = .itObject) h.fresh ↔
      (H.mem p).type = .itObject := by rw [Function.update_self]
  unfold addItemToArray at hadd
  split at hadd
  · obtain rfl := Option.some.inj hadd
    exact ⟨_, hplaced.setChild hp hgrows hitem⟩
  · rename_i c hchild
    obtain ⟨last, hlast, rfl⟩ := Option.map_eq_some_iff.mp hadd
    have hfirst := hplaced.child p c (Nat.zero_le p) (by omega) hchild
    have hbelow : c < h.fresh :=
      (hold.child p c (Nat.zero_le p) hp (by rw [← hkeeps p hp]; exact hchild)).2.1
    obtain ⟨hlt, hiff⟩ := lastOf_keeps
      (P := fun a => a < h.fresh ∧
        (Function.update inObject h.fresh ((H.mem p).type = .itObject) a ↔
          (H.mem p).type = .itObject))
      (fun a n ha hn => ⟨(hold.next a n (Nat.zero_le a) ha.1 (by rw [← hkeeps a ha.1]; exact hn)).2.1,
        (hplaced.next a n (Nat.zero_le a) (by omega) hn).2.2.trans ha.2⟩)
      ⟨hbelow, hfirst.2.2⟩ hlast
    exact ⟨_, hplaced.suffix hlt hgrows (hitem.trans hiff.symm)⟩

theorem Tidy.fillArray {α : Type} {create : Heap ν → α → ℕ × Heap ν} {item : α → Item ν}
    (hcreate : ∀ h v, create h v = h.newItem (item v))
    (hlinks : ∀ v, (item v).next = none ∧ (item v).child = none) {a : ℕ} (vs : List α)
    (hclean : ∀ v ∈ vs, ((item v).value D).Clean D) {last : Option ℕ}
    (ht : h.Tidy D inObject 0 h.fresh) (ha : a < h.fresh) (htype : (h.mem a).type = .itArray)
    (hlast : ∀ q, last = some q → q < h.fresh ∧ ¬inObject q) :
    ∃ inObject, (Heap.fillArray create a last vs h).Tidy D inObject 0
      (Heap.fillArray create a last vs h).fresh := by
  induction vs generalizing h inObject last with
  | nil => exact ⟨inObject, ht⟩
  | cons v vs ih =>
    have hnew := ht.newItem (hlinks v).1 (hlinks v).2 (hclean v List.mem_cons_self)
    have hfresh : (h.newItem (item v)).2.fresh = h.fresh + 1 := rfl
    have hself : ¬Function.update inObject h.fresh False h.fresh := by
      rw [Function.update_self]
      exact id
    have htype' : ((h.newItem (item v)).2.mem a).type = .itArray := by
      simpa [Heap.newItem, Function.update_of_ne (Nat.ne_of_lt ha)] using htype
    rw [Heap.fillArray, hcreate]
    change ∃ inObject, (Heap.fillArray create a (some h.fresh) vs
      ((h.newItem (item v)).2.linkItem a last h.fresh)).Tidy D inObject 0
        (Heap.fillArray create a (some h.fresh) vs
          ((h.newItem (item v)).2.linkItem a last h.fresh)).fresh
    generalize (h.newItem (item v)).2 = H at hnew hfresh htype'
    rw [← hfresh] at hnew
    have hvs : ∀ v ∈ vs, ((item v).value D).Clean D := fun v hv =>
      hclean v (List.mem_cons_of_mem _ hv)
    have hmade : ∀ q, some h.fresh = some q →
        q < H.fresh ∧ ¬Function.update inObject h.fresh False q := fun q hq =>
      Option.some.inj hq ▸ ⟨by omega, hself⟩
    cases last with
    | none =>
      refine ih hvs (hnew.setChild ha (by omega) (iff_of_false hself fun hne => ?_)) ?_ ?_ hmade
      · rw [htype'] at hne
        cases hne
      · exact Nat.lt_trans ha (by rw [linkItem, modify_fresh]; omega)
      · rw [linkItem, modify_mem_self]
        exact htype'
    | some q =>
      obtain ⟨hq, hnot⟩ := hlast q rfl
      have hother : ¬Function.update inObject h.fresh False q := by
        rw [Function.update_of_ne (Nat.ne_of_lt hq)]
        exact hnot
      refine ih hvs (hnew.suffix hq (by omega) (iff_of_false hself hother)) ?_ ?_ hmade
      · exact Nat.lt_trans ha (by rw [linkItem, suffixObject_fresh]; omega)
      · rw [linkItem, suffixObject_mem]
        exact htype'

theorem Tidy.cons (ht : h.Tidy D inObject (lo + 1) hi)
    (hnext : ∀ n, (h.mem lo).next = some n → lo < n ∧ n < hi ∧ (inObject n ↔ inObject lo))
    (hchild : ∀ n, (h.mem lo).child = some n →
      lo < n ∧ n < hi ∧ (inObject n ↔ (h.mem lo).type = .itObject))
    (hnamed : inObject lo → (h.mem lo).Named) (hclean : ((h.mem lo).value D).Clean D) :
    h.Tidy D inObject lo hi := by
  refine ⟨fun a n ha ha' hn => ?_, fun a n ha ha' hn => ?_, fun a ha ha' hobj => ?_,
    fun a ha ha' => ?_⟩
  all_goals
    obtain rfl | hlt : lo = a ∨ lo < a := by omega
  · exact hnext n hn
  · exact ht.next a n hlt ha' hn
  · exact hchild n hn
  · exact ht.child a n hlt ha' hn
  · exact hnamed hobj
  · exact ht.named a hlt ha' hobj
  · exact hclean
  · exact ht.clean a hlt ha'

end Heap

/-! ## The calls -/

/-- What is passed in can be printed and read back: strings of the program, whole numbers, texts
that the parser does not go wrong on. -/
def Call.Clean (D : Doubles ν) : Call ν → Prop
  | .nav _ => True
  | .decodeFromStream str => ∀ t, str = some t → '\x00' ∉ t ∧ parse D t ≠ .error .fault ∧
      ∀ value child, parse D t = .ok (value, child) → (Chain.cons none value child .nil).Whole D
  | .newRoot => True
  | .newObject name => '\x00' ∉ name
  | .newArray name => '\x00' ∉ name
  | .attachObject => True
  | .setDouble name v => '\x00' ∉ name ∧ (Value.number v).Clean D
  | .setBool name _ => '\x00' ∉ name
  | .setString name v => '\x00' ∉ name ∧ ∀ s, v = some s → '\x00' ∉ s
  | .setNumberGroup name group => '\x00' ∉ name ∧ ∀ v ∈ group, (Value.number v).Clean D
  | .setStringGroup name group => '\x00' ∉ name ∧ ∀ s ∈ group, '\x00' ∉ s

section Calls
variable {D : Doubles ν} {b b' : Builder ν} {t : Text}

/-- All items of the document are tidy. -/
def Builder.Tidy (D : Doubles ν) (b : Builder ν) : Prop :=
  ∃ inObject, b.heap.Tidy D inObject 0 b.heap.fresh

/-- The fuel of `tree` does not cut anything off. -/
theorem Heap.Tidy.tree_enough {h : Heap ν} {inObject : ℕ → Prop} {hi : ℕ}
    (ht : h.Tidy D inObject 0 hi) {n : ℕ} {c : Option ℕ} (hc : ∀ p, c = some p → p < hi ∧ hi ≤ n + p) :
    h.tree D (n + 1) c = h.tree D n c := by
  induction n generalizing c with
  | zero =>
    cases c with
    | none => rfl
    | some p =>
      have h0 := hc p rfl
      omega
  | succ n ih =>
    cases c with
    | none => rfl
    | some p =>
      obtain ⟨hp, hn⟩ := hc p rfl
      have hchild : h.tree D (n + 1) (h.mem p).child = h.tree D n (h.mem p).child := ih fun q hq => by
        have hlt := ht.child p q (Nat.zero_le p) hp hq
        omega
      have hnext : h.tree D (n + 1) (h.mem p).next = h.tree D n (h.mem p).next := ih fun q hq => by
        have hlt := ht.next p q (Nat.zero_le p) hp hq
        omega
      rw [Heap.tree, hchild, hnext, Heap.tree]

end Calls

end DevFramework.Json
