import DevFramework.MemPool.Block
import Mathlib.Data.List.Chain
import Mathlib.Algebra.BigOperators.Group.List.Basic
import Mathlib.Algebra.Order.Ring.Int
import Mathlib.Tactic.Linarith

/-! # Tiled blocks

`Tiled t b us`: following `next` from `head_` one meets exactly the headers `us`, they tile the
block, and a `prev` pointer leads to a lower address, whichever. This much every operation keeps
and it is all that allocation needs.

Every operation rewrites a block from one unit on and leaves what is before it alone;
`Tiled.retail` is the one lemma that rebuilds the tiling after such a rewrite.
-/
namespace DevFramework.MemPool
set_option autoImplicit false
set_option maxHeartbeats 250000

/-- `next` of `u` is `v`, which starts where `u` ends. -/
def Follows (u v : AllocUnit) : Prop := u.next = some v.offset ∧ v.offset = u.offset + u.size

/-- The bytes of a list of units. -/
def span (us : List AllocUnit) : ℤ := (us.map (·.size)).sum

@[simp] theorem span_nil : span [] = 0 := rfl

@[simp] theorem span_cons (u : AllocUnit) (us : List AllocUnit) :
    span (u :: us) = u.size + span us := by
  simp [span]

@[simp] theorem span_append (us vs : List AllocUnit) : span (us ++ vs) = span us + span vs := by
  simp [span]

theorem length_le_span : ∀ us : List AllocUnit, (∀ u ∈ us, 0 < u.size) → (us.length : ℤ) ≤ span us
  | [], _ => by simp
  | u :: us, h => by
    have := length_le_span us fun v hv => h v (by simp [hv])
    have := h u (by simp)
    simp only [List.length_cons, span_cons]
    omega

/-- Where the units in use start. -/
def busy (us : List AllocUnit) : List ℤ := (us.filter fun u => !u.bfree).map (·.offset)

@[simp] theorem busy_append (us vs : List AllocUnit) : busy (us ++ vs) = busy us ++ busy vs := by
  simp [busy]

@[simp] theorem busy_nil : busy [] = [] := rfl

theorem busy_cons_free {u : AllocUnit} (us : List AllocUnit) (h : u.bfree = true) :
    busy (u :: us) = busy us := by
  simp [busy, h]

theorem busy_cons_used {u : AllocUnit} (us : List AllocUnit) (h : u.bfree = false) :
    busy (u :: us) = u.offset :: busy us := by
  simp [busy, h]

theorem mem_busy {us : List AllocUnit} {a : ℤ} :
    a ∈ busy us ↔ ∃ u ∈ us, u.bfree = false ∧ u.offset = a := by
  simp [busy, and_assoc]

/-- What a unit is, apart from its links. -/
structure Extent where
  offset : ℤ
  size : ℤ
  bfree : Bool
  deriving DecidableEq, Repr

def AllocUnit.extent (u : AllocUnit) : Extent :=
  { offset := u.offset, size := u.size, bfree := u.bfree }

theorem busy_eq (us : List AllocUnit) :
    busy us = ((us.map AllocUnit.extent).filter fun e => !e.bfree).map (·.offset) := by
  simp only [busy, List.filter_map, List.map_map]
  rfl

theorem span_eq (us : List AllocUnit) : span us = ((us.map AllocUnit.extent).map (·.size)).sum := by
  rw [span, List.map_map]
  rfl

structure Tiled (t : Target) (b : Block) (us : List AllocUnit) : Prop where
  stored : ∀ u ∈ us, b.mem u.offset = u
  nonempty : us ≠ []
  atHead : b.head = 0
  first : ∀ u ∈ us.head?, u.offset = 0
  last : ∀ u ∈ us.getLast?, u.next = none
  follows : us.IsChain Follows
  total : span us = b.totalSize
  room : ∀ u ∈ us, sizeofAllocUnit t < u.size
  back : ∀ u ∈ us, ∀ p, u.prev = some p → p < u.offset

/-! ## Where the units are -/

theorem offset_of_follows {l r : List AllocUnit} {u : AllocUnit} {o : ℤ}
    (hf : (l ++ u :: r).IsChain Follows) (ho : ∀ v ∈ (l ++ u :: r).head?, v.offset = o) :
    u.offset = o + span l := by
  induction l generalizing o with
  | nil => simpa using ho u (by simp)
  | cons v l ih =>
    have hv : v.offset = o := ho v (by simp)
    rw [List.cons_append, List.isChain_cons] at hf
    have := ih (o := o + v.size) hf.2 fun w hw => by rw [(hf.1 w hw).2, hv]
    rw [this, span_cons]
    omega

section Tiled
variable {t : Target} {b : Block} {us l r : List AllocUnit} {u : AllocUnit}

theorem Tiled.offset_eq (h : Tiled t b (l ++ u :: r)) : u.offset = span l := by
  simpa using offset_of_follows h.follows fun v hv => h.first v hv

theorem Tiled.size_pos (h : Tiled t b us) {v : AllocUnit} (hv : v ∈ us) : 0 < v.size :=
  (sizeofAllocUnit_pos t).trans (h.room v hv)

theorem Tiled.sorted (h : Tiled t b us) : us.Pairwise fun u v => u.offset < v.offset := by
  have hlt : us.IsChain fun u v => u.offset < v.offset :=
    h.follows.imp_of_mem_imp fun u v hu _ hf => by
      have := h.size_pos hu
      rw [hf.2]
      omega
  have : Trans (fun u v : AllocUnit => u.offset < v.offset)
      (fun u v : AllocUnit => u.offset < v.offset) (fun u v : AllocUnit => u.offset < v.offset) :=
    ⟨fun hab hbc => lt_trans hab hbc⟩
  exact List.isChain_iff_pairwise.mp hlt

theorem Tiled.before_lt (h : Tiled t b (l ++ u :: r)) {v : AllocUnit} (hv : v ∈ l) :
    v.offset < u.offset :=
  (List.pairwise_append.mp h.sorted).2.2 v hv u (by simp)

theorem Tiled.lt_behind (h : Tiled t b (l ++ u :: r)) {v : AllocUnit} (hv : v ∈ r) :
    u.offset < v.offset :=
  (List.pairwise_cons.mp (List.pairwise_append.mp h.sorted).2.1).1 v hv

theorem Tiled.mem_eq (h : Tiled t b (l ++ u :: r)) : b.mem u.offset = u :=
  h.stored u (by simp)

theorem Tiled.span_le (h : Tiled t b (l ++ u :: r)) : u.offset + u.size ≤ b.totalSize := by
  have hr := length_le_span r fun v hv => h.size_pos (by simp [hv])
  have := h.total
  rw [span_append, span_cons, ← h.offset_eq] at this
  omega

theorem Tiled.offset_nonneg (h : Tiled t b (l ++ u :: r)) : 0 ≤ u.offset := by
  have := length_le_span l fun v hv => h.size_pos (by simp [hv])
  rw [h.offset_eq]
  omega

theorem Tiled.length_lt_fuel (h : Tiled t b us) : us.length < b.fuel := by
  have := length_le_span us fun u hu => h.size_pos hu
  rw [h.total] at this
  unfold Block.fuel
  omega

theorem Tiled.next_eq (h : Tiled t b (l ++ u :: r)) : u.next = r.head?.map (·.offset) := by
  cases r with
  | nil => simpa using h.last u (by simp)
  | cons v r =>
    have := (List.isChain_cons.mp (List.isChain_append.mp h.follows).2.1).1 v (by simp)
    simpa using this.1

theorem Tiled.last_behind (h : Tiled t b (l ++ r)) : ∀ v ∈ r.getLast?, v.next = none := by
  intro v hv
  apply h.last
  rw [Option.mem_def] at hv ⊢
  rw [List.getLast?_append, hv]
  rfl

theorem Tiled.prev_ne (h : Tiled t b (l ++ u :: r)) : some u.offset ≠ u.prev := by
  intro heq
  have := h.back u (by simp) u.offset heq.symm
  omega

theorem Tiled.head_eq (h : Tiled t b us) : some b.head = us.head?.map (·.offset) := by
  cases us with
  | nil => exact absurd rfl h.nonempty
  | cons v vs => simp [h.atHead, h.first v (by simp)]

/-- **Rebuilding a tiling.** The block `b'` differs from `b` from the unit `u` on only, and holds
the units `u' :: ms` there. -/
theorem Tiled.retail (h : Tiled t b (l ++ u :: r)) (b' : Block) (u' : AllocUnit)
    (ms : List AllocUnit) (hoff : u'.offset = u.offset)
    (hkeep : ∀ a < u.offset, b'.mem a = b.mem a) (hstored : ∀ v ∈ u' :: ms, b'.mem v.offset = v)
    (hhead : b'.head = b.head) (htotal : b'.totalSize = b.totalSize)
    (hlast : ∀ v ∈ (u' :: ms).getLast?, v.next = none)
    (hfollows : (u' :: ms).IsChain Follows) (hspan : span (u' :: ms) = span (u :: r))
    (hroom : ∀ v ∈ u' :: ms, sizeofAllocUnit t < v.size)
    (hback : ∀ v ∈ u' :: ms, ∀ p, v.prev = some p → p < v.offset) :
    Tiled t b' (l ++ u' :: ms) where
  stored v hv := by
    rcases List.mem_append.mp hv with hl | hm
    · rw [hkeep _ (h.before_lt hl), h.stored v (by simp [hl])]
    · exact hstored v hm
  nonempty := by simp
  atHead := by rw [hhead, h.atHead]
  first v hv := by
    cases l with
    | nil =>
      obtain rfl : u' = v := by simpa using hv
      rw [hoff]
      exact h.first u (by simp)
    | cons w l => exact h.first v (by simpa using hv)
  last v hv := hlast v (by simpa using hv)
  follows := by
    apply (h.follows.left_of_append).append hfollows
    intro v hv w hw
    obtain rfl : u' = w := by simpa using hw
    have := (List.isChain_append.mp h.follows).2.2 v hv u (by simp)
    exact ⟨by rw [hoff]; exact this.1, by rw [hoff]; exact this.2⟩
  total := by
    have := h.total
    rw [span_append] at this ⊢
    rw [htotal]
    omega
  room v hv := by
    rcases List.mem_append.mp hv with hl | hm
    · exact h.room v (by simp [hl])
    · exact hroom v hm
  back v hv := by
    rcases List.mem_append.mp hv with hl | hm
    · exact h.back v (by simp [hl])
    · exact hback v hm

end Tiled

end DevFramework.MemPool
