import DevFramework.MemPool.Layout
import DevFramework.MemPool.Serving

/-! # What the operations do to a well-formed block

One lemma for each operation of `block_t`: from a well-formed block with the unit in question
singled out (`l ++ u :: r`) to the units after the call. `alloc_buffer` and `realloc_buffer` cut a
unit in two without telling the unit behind it, so their lemmas ask that there is none; the merge
of `free_buffer` mends every link it touches and asks for nothing.
-/
namespace DevFramework.MemPool
set_option autoImplicit false
set_option maxHeartbeats 250000

theorem fresh_wellFormed (t : Target) (junk : ℤ → AllocUnit) :
    WellFormed t (Block.fresh junk)
      [{ offset := 0, size := blockSize, bfree := true, prev := none, next := none }] where
  stored u hu := by
    obtain rfl := List.mem_singleton.mp hu
    simp [Block.fresh, Block.iWriteHeadInfo]
  nonempty := by simp
  atHead := rfl
  first u hu := by
    obtain rfl := Option.mem_some_iff.mp hu
    exact ⟨rfl, rfl⟩
  last u hu := by
    obtain rfl := Option.mem_some_iff.mp hu
    rfl
  follows := List.isChain_singleton _
  total := by simp [Block.fresh, Block.iWriteHeadInfo]
  back := List.isChain_singleton _
  room u hu := by
    obtain rfl := List.mem_singleton.mp hu
    exact sizeofAllocUnit_lt t
  count := by simp [Block.fresh, Block.iWriteHeadInfo]
  apart := List.isChain_singleton _

section Operations
variable {t : Target} {b : Block} {us l r : List AllocUnit} {u n : AllocUnit}

/-- A unit in use is apart from anything: what follows it may be anything apart. -/
theorem WellFormed.apart_retail (h : WellFormed t b (l ++ u :: r)) {u' : AllocUnit}
    {ms : List AllocUnit} (hu : u'.bfree = false) (hms : ms.IsChain Apart) :
    (l ++ u' :: ms).IsChain Apart := by
  refine h.apart.left_of_append.append (List.isChain_cons.mpr ⟨?_, hms⟩) ?_
  · intro v _ hboth
    simp [hu] at hboth
  · intro v _ w hw hboth
    obtain rfl : u' = w := by simpa using hw
    simp [hu] at hboth

/-! ## Marking a unit -/

/-- Changing the free flag of one unit, the counter with it, keeps the layout. -/
theorem Formed.mark (h : Formed t b (l ++ u :: r)) (b' : Block) (f : Bool)
    (hmem : b'.mem = Function.update b.mem u.offset { u with bfree := f })
    (hhead : b'.head = b.head) (htotal : b'.totalSize = b.totalSize)
    (hcount : b'.freeCount - b.freeCount = (if f then 1 else 0) - (if u.bfree then 1 else 0 : ℤ)) :
    Formed t b' (l ++ { u with bfree := f } :: r) := by
  apply h.retail (h.tiled.mark b' f hmem hhead htotal) rfl
  · have := List.isChain_cons.mp h.back.right_of_append
    exact List.isChain_cons.mpr ⟨fun v hv => this.1 v hv, this.2⟩
  · simp only [List.countP_cons, Nat.cast_add]
    rw [hcount]
    cases f <;> cases u.bfree <;> simp

/-! ## Cutting the end of the block -/

/-- The units from `u` on, one free unit among them, become a used and a free one. This is what
`alloc_buffer` and `realloc_buffer` write when nothing lies behind. -/
theorem Formed.cutTail (h : Formed t b (l ++ u :: r)) (s₁ s₂ : ℤ)
    (h₁ : sizeofAllocUnit t < s₁) (h₂ : sizeofAllocUnit t < s₂) (hspan : s₁ + s₂ = span (u :: r))
    (hcount : (u :: r).countP (·.bfree) = 1) :
    Formed t ((b.iWriteHeadInfo u.offset u.offset s₁ false u.prev
        (some (u.offset + s₁))).iWriteHeadInfo (u.offset + s₁) (u.offset + s₁) s₂ true
          (some u.offset) none)
      (l ++ [{ u with size := s₁, bfree := false, next := some (u.offset + s₁) },
             { offset := u.offset + s₁, size := s₂, bfree := true, prev := some u.offset,
               next := none }]) := by
  have hall : Tiled t b (l ++ u :: (r ++ [])) := by simpa using h.tiled
  apply h.retail (hall.cut s₁ s₂ h₁ h₂ hspan) rfl (List.isChain_pair.mpr rfl)
  rw [hcount]
  simp [Block.iWriteHeadInfo]

/-! ## `alloc_buffer` -/

theorem WellFormed.takeUnit_whole (h : WellFormed t b (l ++ u :: r)) (hfree : u.bfree = true)
    {size : ℤ} (hrest : u.size - (size + sizeofAllocUnit t) ≤ sizeofAllocUnit t) :
    WellFormed t (b.takeUnit t u.offset u.prev size) (l ++ { u with bfree := false } :: r) := by
  have hwrite := h.tiled.takeUnit_whole hrest
  refine { h.toFormed.mark _ false ?_ ?_ ?_ ?_ with apart := ?_ }
  · rw [hwrite]
    simp only [Block.iWriteHeadInfo, Block.modify, Block.addFree, if_neg h.tiled.prev_ne]
  · rw [hwrite]; rfl
  · rw [hwrite]; rfl
  · rw [hwrite]
    simp [Block.iWriteHeadInfo, hfree]
  · exact h.apart_retail rfl (List.isChain_cons.mp h.apart.right_of_append).2

theorem WellFormed.takeUnit_split (h : WellFormed t b (l ++ [u])) (hfree : u.bfree = true)
    {size : ℤ} (hsize : 0 < size)
    (hrest : sizeofAllocUnit t < u.size - (size + sizeofAllocUnit t)) :
    WellFormed t (b.takeUnit t u.offset u.prev size)
      (l ++ [{ u with size := size + sizeofAllocUnit t, bfree := false,
                      next := some (u.offset + (size + sizeofAllocUnit t)) },
             { offset := u.offset + (size + sizeofAllocUnit t),
               size := u.size - (size + sizeofAllocUnit t), bfree := true,
               prev := some u.offset, next := none }]) := by
  have hpos := sizeofAllocUnit_pos t
  have hnext : u.next = none := by simpa using h.tiled.next_eq
  have hcut := h.toFormed.cutTail (size + sizeofAllocUnit t)
    (u.size - (size + sizeofAllocUnit t)) (by omega) hrest (by simp) (by simp [hfree])
  rw [h.tiled.takeUnit_cut (not_le.mpr hrest), hnext]
  exact { hcut with apart := h.apart_retail rfl (List.isChain_singleton _) }

/-! ## `realloc_buffer` -/

/-- The last unit, free, joins the used unit in front of it. -/
theorem Formed.joinTail (h : Formed t b (l ++ [u, n])) (hu : u.bfree = false)
    (hn : n.bfree = true) :
    Formed t ((b.iWriteHeadInfo u.offset u.offset (u.size + n.size) false u.prev none).addFree (-1))
      (l ++ [{ u with size := u.size + n.size, next := none }]) := by
  have hall : Tiled t b (l ++ u :: ([n] ++ [])) := h.tiled
  have hspan : span (u :: [n]) = u.size + n.size := by simp
  have hjoin := hall.join ((b.iWriteHeadInfo u.offset u.offset (u.size + n.size) false u.prev
    none).addFree (-1)) false
    (by simp [Block.iWriteHeadInfo, Block.modify, if_neg h.tiled.prev_ne]) rfl rfl
  rw [hspan] at hjoin
  have hself : { u with size := u.size + n.size, bfree := false, next := none } =
      { u with size := u.size + n.size, next := none } := by rw [← hu]
  rw [List.head?_nil, Option.map_none, hself] at hjoin
  apply h.retail hjoin rfl (List.isChain_singleton _)
  simp [Block.iWriteHeadInfo, hu, hn]

/-- The buffer grows into the last unit of the block; what is left of that is free. -/
theorem WellFormed.realloc_grown (h : WellFormed t b (l ++ [u, n])) (hu : u.bfree = false)
    (hn : n.bfree = true) {newSize : ℤ} (hnew : 0 < newSize) (hgrow : u.size < newSize)
    (hroom : newSize ≤ u.size + n.size - sizeofAllocUnit t) :
    ∃ b' v rest, b.reallocBuffer t (u.offset + sizeofAllocUnit t) newSize =
        .ok (some (u.offset + sizeofAllocUnit t), b') ∧ WellFormed t b' (l ++ v :: rest) ∧
      v.bfree = false ∧ v.offset = u.offset ∧ newSize + sizeofAllocUnit t ≤ v.size ∧
      ∀ w ∈ rest, w.bfree = true := by
  have hnnext : n.next = none := h.last n (by simp)
  by_cases hrest : u.size + n.size - sizeofAllocUnit t - newSize ≤ sizeofAllocUnit t
  · -- the rest is too small for a unit of its own: the buffer takes all of the free unit
    have hrun := h.tiled.realloc_join hgrow hn hroom hrest
    rw [hnnext] at hrun
    refine ⟨_, { u with size := u.size + n.size, next := none }, [], hrun,
      { h.toFormed.joinTail hu hn with apart := ?_ }, hu, rfl, ?_, nofun⟩
    · exact h.apart_retail hu List.isChain_nil
    · simp only
      omega
  · have hrun := h.tiled.realloc_cut hgrow hn hroom hrest
    rw [hnnext] at hrun
    have hcut := h.toFormed.cutTail (newSize + sizeofAllocUnit t)
      (u.size + n.size - sizeofAllocUnit t - newSize) (by omega) (by omega)
      (by simp; omega) (by simp [hu, hn])
    refine ⟨_, _, _, hrun, { hcut with apart := ?_ }, rfl, rfl, le_rfl, ?_⟩
    · exact h.apart_retail rfl (List.isChain_singleton _)
    · intro w hw
      obtain rfl := List.mem_singleton.mp hw
      rfl

/-- The calls of `realloc_buffer` that leave the block well formed: the buffer is large enough as
it is, or cannot grow, or grows into the last unit of the block. -/
theorem WellFormed.realloc_spec (h : WellFormed t b (l ++ u :: r)) (hu : u.bfree = false)
    {newSize : ℤ} (hnew : 0 < newSize)
    (hok : newSize ≤ u.size ∨ ∃ n r', r = n :: r' ∧
      (n.bfree = false ∨ u.size + n.size - sizeofAllocUnit t < newSize ∨ r' = [])) :
    ∃ p b' us', b.reallocBuffer t (u.offset + sizeofAllocUnit t) newSize = .ok (p, b') ∧
      WellFormed t b' us' ∧ busy us' = busy (l ++ u :: r) := by
  by_cases hfit : newSize ≤ u.size
  · exact ⟨_, b, _, h.tiled.realloc_fit hfit, h, rfl⟩
  have hgrow : u.size < newSize := not_le.mp hfit
  obtain ⟨n, r', rfl, hn⟩ := hok.resolve_left hfit
  by_cases hstuck : n.bfree = false ∨ u.size + n.size - sizeofAllocUnit t < newSize
  · exact ⟨none, b, _, h.tiled.realloc_stuck hgrow hstuck, h, rfl⟩
  obtain rfl : r' = [] := (or_assoc.mpr hn).resolve_left hstuck
  obtain ⟨hnfree, hroom⟩ := not_or.mp hstuck
  have hnfree : n.bfree = true := by simpa using hnfree
  obtain ⟨b', v, rest, hrun, hwf, hv, hoff, -, hrest⟩ :=
    h.realloc_grown hu hnfree hnew hgrow (not_lt.mp hroom)
  refine ⟨_, b', _, hrun, hwf, ?_⟩
  have hnone : busy rest = [] := by
    rw [busy, List.filter_eq_nil_iff.mpr (by simpa using hrest), List.map_nil]
  rw [busy_append, busy_append, busy_cons_used _ hv, busy_cons_used _ hu, busy_cons_free _ hnfree,
    hnone, hoff, busy_nil]

end Operations

end DevFramework.MemPool
