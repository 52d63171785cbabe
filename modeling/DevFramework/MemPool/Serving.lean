import DevFramework.MemPool.Search
import DevFramework.MemPool.Upkeep

/-! # What the operations do to a tiled block

The branches of `block_t`'s functions at a unit singled out (`l ++ u :: r`), and from them what a
call does to the buffers of a tiled block: `alloc_buffer` adds one, `realloc_buffer` keeps them,
`free_buffer` removes one. The walk back of `free_buffer` follows `prev` pointers that may be out
of date, so it is asked to meet linked headers only (`Retraces`).
-/
namespace DevFramework.MemPool
set_option autoImplicit false
set_option maxHeartbeats 250000

section Serving
variable {t : Target} {b : Block} {us l r : List AllocUnit} {u n : AllocUnit}

theorem cur_of_buf (t : Target) (a : ℤ) : a + sizeofAllocUnit t - sizeofAllocUnit t = a := by
  omega

/-! ## `alloc_buffer` -/

theorem Tiled.takeUnit_whole (h : Tiled t b (l ++ u :: r)) {size : ℤ}
    (hrest : u.size - (size + sizeofAllocUnit t) ≤ sizeofAllocUnit t) :
    b.takeUnit t u.offset u.prev size =
      (b.iWriteHeadInfo u.offset u.offset u.size false u.prev u.next).addFree (-1) := by
  unfold Block.takeUnit
  simp only [h.mem_eq, hrest, and_true, if_true, ite_self, h.atHead, sub_zero]

theorem Tiled.takeUnit_cut (h : Tiled t b (l ++ u :: r)) {size : ℤ}
    (hrest : ¬ u.size - (size + sizeofAllocUnit t) ≤ sizeofAllocUnit t) :
    b.takeUnit t u.offset u.prev size =
      (b.iWriteHeadInfo u.offset u.offset (size + sizeofAllocUnit t) false u.prev
        (some (u.offset + (size + sizeofAllocUnit t)))).iWriteHeadInfo
        (u.offset + (size + sizeofAllocUnit t)) (u.offset + (size + sizeofAllocUnit t))
        (u.size - (size + sizeofAllocUnit t)) true (some u.offset) u.next := by
  unfold Block.takeUnit
  simp only [h.mem_eq, hrest, and_false, if_false, h.atHead, sub_zero]

theorem Tiled.offset_notMem_busy (h : Tiled t b (l ++ u :: r)) : u.offset ∉ busy (l ++ r) := by
  intro hmem
  obtain ⟨v, hv, -, hoff⟩ := mem_busy.mp hmem
  rcases List.mem_append.mp hv with hv | hv
  · have := h.before_lt hv
    omega
  · have := h.lt_behind hv
    omega

/-- What `alloc_buffer` makes of the unit `u` for a request of `size` bytes. -/
def carved (t : Target) (size : ℤ) (u : AllocUnit) : List AllocUnit :=
  let need := size + sizeofAllocUnit t
  if u.size - need ≤ sizeofAllocUnit t then [{ u with bfree := false }]
  else
    [{ u with size := need, bfree := false, next := some (u.offset + need) },
     { offset := u.offset + need, size := u.size - need, bfree := true, prev := some u.offset,
       next := u.next }]

theorem busy_carved (t : Target) (size : ℤ) (u : AllocUnit) : busy (carved t size u) = [u.offset] := by
  unfold carved
  simp only
  split
  · rw [busy_cons_used _ rfl, busy_nil]
  · rw [busy_cons_used _ rfl, busy_cons_free _ rfl, busy_nil]

theorem Tiled.takeUnit_tiled (h : Tiled t b (l ++ u :: r)) {size : ℤ} (hsize : 0 < size) :
    Tiled t (b.takeUnit t u.offset u.prev size) (l ++ (carved t size u ++ r)) := by
  by_cases hrest : u.size - (size + sizeofAllocUnit t) ≤ sizeofAllocUnit t
  · have hmark := h.mark (b.takeUnit t u.offset u.prev size) false
      (by rw [h.takeUnit_whole hrest]
          simp [Block.iWriteHeadInfo, Block.modify, Block.addFree, if_neg h.prev_ne])
      (by rw [h.takeUnit_whole hrest]; rfl) (by rw [h.takeUnit_whole hrest]; rfl)
    simpa [carved, hrest] using hmark
  · have hone : Tiled t b (l ++ u :: ([] ++ r)) := h
    have hpos := sizeofAllocUnit_pos t
    have hcut := hone.cut (size + sizeofAllocUnit t)
      (u.size - (size + sizeofAllocUnit t)) (by omega) (by omega) (by simp)
    rw [← h.next_eq, ← h.takeUnit_cut hrest] at hcut
    simpa [carved, hrest] using hcut

/-- The counter follows: one free unit less, and one more for the rest. -/
theorem Tiled.takeUnit_freeCount (h : Tiled t b (l ++ u :: r)) {size : ℤ} :
    (b.takeUnit t u.offset u.prev size).freeCount =
      b.freeCount - 1 + (carved t size u).countP (·.bfree) := by
  by_cases hrest : u.size - (size + sizeofAllocUnit t) ≤ sizeofAllocUnit t
  · rw [h.takeUnit_whole hrest]
    simp only [carved, hrest, if_true, Block.addFree_freeCount, Block.iWriteHeadInfo,
      Block.modify_freeCount, List.countP_singleton, Bool.false_eq_true, if_false]
    omega
  · rw [h.takeUnit_cut hrest]
    simp [carved, hrest, Block.iWriteHeadInfo]

/-- `alloc_buffer` hands out nothing and leaves the block, or hands out a new buffer. -/
theorem Tiled.alloc_spec (h : Tiled t b us) {size : ℤ} (hsize : 0 < size) :
    b.allocBuffer t size = .ok (none, b) ∨
    ∃ a b' us', b.allocBuffer t size = .ok (some (a + sizeofAllocUnit t), b') ∧ Tiled t b' us' ∧
      a ∉ busy us ∧ ∀ c, c ∈ busy us' ↔ c = a ∨ c ∈ busy us := by
  rcases h.bestMatch_spec size with hnone | ⟨l, u, r, rfl, hfind, hfree, -⟩
  · exact .inl (allocBuffer_none hnone)
  have hnew : u.offset ∉ busy (l ++ u :: r) := by
    rw [busy_append, busy_cons_free _ hfree, ← busy_append]
    exact h.offset_notMem_busy
  refine .inr ⟨u.offset, _, _, allocBuffer_found hfind, h.takeUnit_tiled hsize, hnew, fun c => ?_⟩
  rw [busy_append, busy_append, busy_carved, busy_append, busy_cons_free _ hfree, List.mem_append,
    List.mem_append, List.mem_append, List.mem_singleton]
  tauto

/-! ## `realloc_buffer` -/

theorem Tiled.realloc_fit (h : Tiled t b (l ++ u :: r)) {newSize : ℤ} (hfit : newSize ≤ u.size) :
    b.reallocBuffer t (u.offset + sizeofAllocUnit t) newSize =
      .ok (some (u.offset + sizeofAllocUnit t), b) := by
  simp only [Block.reallocBuffer, cur_of_buf, h.mem_eq, if_pos hfit]

theorem Tiled.realloc_last (h : Tiled t b (l ++ [u])) {newSize : ℤ} (hgrow : u.size < newSize) :
    b.reallocBuffer t (u.offset + sizeofAllocUnit t) newSize = .error .nullDeref := by
  have hnext : u.next = none := by simpa using h.next_eq
  simp only [Block.reallocBuffer, cur_of_buf, h.mem_eq, if_neg (not_le.mpr hgrow), hnext]

theorem Tiled.realloc_stuck (h : Tiled t b (l ++ u :: n :: r)) {newSize : ℤ}
    (hgrow : u.size < newSize)
    (hn : n.bfree = false ∨ u.size + n.size - sizeofAllocUnit t < newSize) :
    b.reallocBuffer t (u.offset + sizeofAllocUnit t) newSize = .ok (none, b) := by
  have hnext : u.next = some n.offset := by simpa using h.next_eq
  have hnmem : b.mem n.offset = n := h.stored n (by simp)
  simp only [Block.reallocBuffer, cur_of_buf, h.mem_eq, if_neg (not_le.mpr hgrow), hnext, hnmem]
  cases hfree : n.bfree with
  | false => simp
  | true =>
    have hroom := hn.resolve_left (by simp [hfree])
    rw [Bool.not_true, if_neg (by simp), if_neg (by omega)]

theorem Tiled.realloc_join (h : Tiled t b (l ++ u :: n :: r)) {newSize : ℤ}
    (hgrow : u.size < newSize) (hn : n.bfree = true)
    (hroom : newSize ≤ u.size + n.size - sizeofAllocUnit t)
    (hrest : u.size + n.size - sizeofAllocUnit t - newSize ≤ sizeofAllocUnit t) :
    b.reallocBuffer t (u.offset + sizeofAllocUnit t) newSize =
      .ok (some (u.offset + sizeofAllocUnit t),
        (b.iWriteHeadInfo u.offset u.offset (u.size + n.size) false u.prev n.next).addFree (-1)) := by
  have hnext : u.next = some n.offset := by simpa using h.next_eq
  have hnmem : b.mem n.offset = n := h.stored n (by simp)
  simp only [Block.reallocBuffer, cur_of_buf, h.mem_eq, if_neg (not_le.mpr hgrow), hnext, hnmem, hn,
    Bool.not_true, Bool.false_eq_true, if_false]
  rw [if_pos (by omega), if_pos hrest, sub_add_cancel]

theorem Tiled.realloc_cut (h : Tiled t b (l ++ u :: n :: r)) {newSize : ℤ}
    (hgrow : u.size < newSize) (hn : n.bfree = true)
    (hroom : newSize ≤ u.size + n.size - sizeofAllocUnit t)
    (hrest : ¬ u.size + n.size - sizeofAllocUnit t - newSize ≤ sizeofAllocUnit t) :
    b.reallocBuffer t (u.offset + sizeofAllocUnit t) newSize =
      .ok (some (u.offset + sizeofAllocUnit t),
        (b.iWriteHeadInfo u.offset u.offset (newSize + sizeofAllocUnit t) false u.prev
          (some (u.offset + (newSize + sizeofAllocUnit t)))).iWriteHeadInfo
          (u.offset + (newSize + sizeofAllocUnit t)) (u.offset + (newSize + sizeofAllocUnit t))
          (u.size + n.size - sizeofAllocUnit t - newSize) true (some u.offset) n.next) := by
  have hnext : u.next = some n.offset := by simpa using h.next_eq
  have hnmem : b.mem n.offset = n := h.stored n (by simp)
  simp only [Block.reallocBuffer, cur_of_buf, h.mem_eq, if_neg (not_le.mpr hgrow), hnext, hnmem, hn,
    Bool.not_true, Bool.false_eq_true, if_false]
  rw [if_pos (by omega), if_neg hrest, h.atHead, sub_zero, add_assoc]

theorem Tiled.fits_iff (h : Tiled t b (l ++ u :: r)) {newSize : ℤ} :
    b.Fits t (u.offset + sizeofAllocUnit t) newSize ↔
      newSize ≤ u.size ∨ ∃ n r', r = n :: r' ∧ n.bfree = true ∧
        newSize ≤ u.size + n.size - sizeofAllocUnit t := by
  simp only [Block.Fits, cur_of_buf, h.mem_eq, h.next_eq]
  apply or_congr_right
  constructor
  · rintro ⟨a, hnext, hcond⟩
    obtain ⟨n, hn, rfl⟩ := Option.map_eq_some_iff.mp hnext
    obtain ⟨r', rfl⟩ := List.head?_eq_some_iff.mp hn
    have hnmem : b.mem n.offset = n := h.stored n (by simp)
    rw [hnmem] at hcond
    exact ⟨n, r', rfl, hcond⟩
  · rintro ⟨n, r', rfl, hcond⟩
    have hnmem : b.mem n.offset = n := h.stored n (by simp)
    exact ⟨n.offset, rfl, by rwa [hnmem]⟩

/-- A buffer that fits where it is stays, and so does every other. -/
theorem Tiled.realloc_fits (h : Tiled t b (l ++ u :: r)) (hu : u.bfree = false) {newSize : ℤ}
    (hsize : 0 < newSize) (hfits : b.Fits t (u.offset + sizeofAllocUnit t) newSize) :
    ∃ b' us', b.reallocBuffer t (u.offset + sizeofAllocUnit t) newSize =
        .ok (some (u.offset + sizeofAllocUnit t), b') ∧
      Tiled t b' us' ∧ busy us' = busy (l ++ u :: r) := by
  by_cases hfit : newSize ≤ u.size
  · exact ⟨b, _, h.realloc_fit hfit, h, rfl⟩
  obtain ⟨n, r', rfl, hn, hroom⟩ := (h.fits_iff.mp hfits).resolve_left hfit
  have hgrow : u.size < newSize := not_le.mp hfit
  have hbusy : busy (l ++ u :: n :: r') = busy l ++ u.offset :: busy r' := by
    rw [busy_append, busy_cons_used _ hu, busy_cons_free _ hn]
  have hgone : Tiled t b (l ++ u :: ([n] ++ r')) := h
  have hnnext : n.next = r'.head?.map (·.offset) := by
    have hn' : Tiled t b ((l ++ [u]) ++ n :: r') := by simpa using h
    exact hn'.next_eq
  have hspan : span (u :: [n]) = u.size + n.size := by simp
  by_cases hrest : u.size + n.size - sizeofAllocUnit t - newSize ≤ sizeofAllocUnit t
  · have hjoin := hgone.join ((b.iWriteHeadInfo u.offset u.offset (u.size + n.size) false
      u.prev n.next).addFree (-1)) false
      (by rw [hspan, hnnext]
          simp [Block.iWriteHeadInfo, Block.modify, if_neg h.prev_ne]) rfl rfl
    refine ⟨_, _, h.realloc_join hgrow hn hroom hrest, hjoin, ?_⟩
    rw [hbusy, busy_append, busy_cons_used _ rfl]
  · have hroomu := h.room u (by simp)
    have hcut := hgone.cut (newSize + sizeofAllocUnit t)
      (u.size + n.size - sizeofAllocUnit t - newSize) (by omega) (by omega)
      (by rw [hspan]; omega)
    rw [← hnnext] at hcut
    refine ⟨_, _, h.realloc_cut hgrow hn hroom hrest, hcut, ?_⟩
    rw [hbusy, busy_append, busy_cons_used _ rfl, busy_cons_free _ rfl]

/-- A buffer that does not fit is not served, if the call is defined at all. -/
theorem Tiled.realloc_moves (h : Tiled t b (l ++ u :: r)) {newSize : ℤ}
    (hfits : ¬ b.Fits t (u.offset + sizeofAllocUnit t) newSize) :
    b.reallocBuffer t (u.offset + sizeofAllocUnit t) newSize = .error .nullDeref ∨
      b.reallocBuffer t (u.offset + sizeofAllocUnit t) newSize = .ok (none, b) := by
  rw [h.fits_iff, not_or, not_le] at hfits
  obtain ⟨hgrow, hfits⟩ := hfits
  cases r with
  | nil => exact .inl (h.realloc_last hgrow)
  | cons n r =>
    refine .inr (h.realloc_stuck hgrow ?_)
    cases hfree : n.bfree with
    | false => exact .inl rfl
    | true => exact .inr (not_le.mp fun hroom => hfits ⟨n, r, rfl, hfree, hroom⟩)

/-! ## `free_buffer` -/

theorem Tiled.absorb_last (h : Tiled t b (l ++ [u])) (k : ℕ) :
    Block.absorb (k + 1) b u.offset = .ok b := by
  have hnext : u.next = none := by simpa using h.next_eq
  simp only [Block.absorb, h.mem_eq, hnext]

theorem Tiled.absorb_used (h : Tiled t b (l ++ u :: n :: r)) (hn : n.bfree = false) (k : ℕ) :
    Block.absorb (k + 1) b u.offset = .ok b := by
  have hnext : u.next = some n.offset := by simpa using h.next_eq
  have hnmem : b.mem n.offset = n := h.stored n (by simp)
  simp only [Block.absorb, h.mem_eq, hnext, hnmem, hn, Bool.false_eq_true, if_false]

theorem Tiled.absorb_free (h : Tiled t b (l ++ u :: n :: r)) (hn : n.bfree = true) (k : ℕ) :
    Block.absorb (k + 1) b u.offset =
      Block.absorb k ((grown b u n).backLink u.offset) u.offset := by
  have hnext : u.next = some n.offset := by simpa using h.next_eq
  have hnmem : b.mem n.offset = n := h.stored n (by simp)
  have hne : n.offset ≠ u.offset := (h.lt_behind (by simp)).ne'
  simp only [Block.absorb, h.mem_eq, hnext, hnmem, hn, if_true, Block.addFree_mem,
    Block.modify_mem_ne _ _ _ _ hne]
  rfl

/-- `absorb` removes free units only. The induction is on the turns left, of which each unit
behind `u` takes one at most. -/
theorem Tiled.absorb_spec {k : ℕ} (h : Tiled t b (l ++ u :: r)) (hlen : r.length < k)
    (hu : u.bfree = true) :
    ∃ b' u' r', Block.absorb k b u.offset = .ok b' ∧ Tiled t b' (l ++ u' :: r') ∧
      u'.offset = u.offset ∧ u'.bfree = true ∧ busy r' = busy r := by
  induction k generalizing b u r with
  | zero => omega
  | succ k ih =>
    cases r with
    | nil => exact ⟨b, u, [], h.absorb_last k, h, rfl, hu, rfl⟩
    | cons n r =>
      cases hn : n.bfree with
      | false => exact ⟨b, u, n :: r, h.absorb_used hn k, h, rfl, hu, rfl⟩
      | true =>
        have hgrow := h.grow
        obtain ⟨b', u', r', hrun, htiled, hoff, hfree, hbusy⟩ := ih hgrow (by simpa using hlen) hu
        refine ⟨b', u', r', ?_, htiled, hoff, hfree, ?_⟩
        · rw [h.absorb_free hn]
          exact hrun
        · rw [hbusy, busy_relink, busy_cons_free _ hn]

theorem Tiled.linkedFrom_eq (h : Tiled t b (l ++ r)) {k : ℕ} (hlen : r.length ≤ k) :
    b.linkedFrom k (r.head?.map (·.offset)) = r.map (·.offset) := by
  induction r generalizing l k with
  | nil => cases k <;> rfl
  | cons u r ih =>
    obtain ⟨k, rfl⟩ : ∃ k', k = k' + 1 := ⟨k - 1, by simp only [List.length_cons] at hlen; omega⟩
    have hrest : Tiled t b ((l ++ [u]) ++ r) := by simpa using h
    simp only [List.head?_cons, Option.map_some, Block.linkedFrom, h.mem_eq, h.next_eq,
      List.map_cons]
    rw [ih hrest (by simpa using hlen)]

theorem Tiled.linked_eq (h : Tiled t b us) : b.linked = us.map (·.offset) := by
  have hall : Tiled t b ([] ++ us) := h
  rw [Block.linked, h.head_eq, hall.linkedFrom_eq h.length_lt_fuel.le]

theorem Tiled.overwrite (h : Tiled t b us) (bytes : ℤ → AllocUnit) :
    Tiled t (b.overwrite bytes) us :=
  { h with
    stored := fun v hv => by
      have hlinked : v.offset ∈ b.linked := by
        rw [h.linked_eq]
        exact List.mem_map_of_mem hv
      show (if v.offset ∈ b.linked then b.mem v.offset else bytes v.offset) = v
      rw [if_pos hlinked, h.stored v hv] }

/-- Walking back over linked headers ends at a free unit, if it starts at one. Every step goes to
a lower address, so there are no more steps than units in front of `u`. -/
theorem Tiled.rewind_spec (h : Tiled t b us) {k : ℕ} : ∀ {l r : List AllocUnit} {u : AllocUnit},
    us = l ++ u :: r → l.length < k → u.bfree = true → (∀ p ∈ b.trail k u.offset, p ∈ b.linked) →
    ∃ c ∈ us, c.bfree = true ∧ b.rewind k u.offset = .ok c.offset := by
  induction k with
  | zero => intro _ _ _ _ hlen; omega
  | succ k ih =>
    rintro l r u rfl hlen hu htrail
    have hmem := h.mem_eq
    cases hprev : u.prev with
    | none => exact ⟨u, by simp, hu, by simp only [Block.rewind, hmem, hprev]⟩
    | some p =>
      simp only [Block.rewind, Block.trail, hmem, hprev] at htrail ⊢
      by_cases hfree : (b.mem p).bfree = true
      · simp only [if_pos hfree] at htrail ⊢
        have hp : p ∈ b.linked := htrail p List.mem_cons_self
        rw [h.linked_eq] at hp
        obtain ⟨v, hv, rfl⟩ := List.mem_map.mp hp
        have hlt : v.offset < u.offset := h.back u (by simp) _ hprev
        have hvl : v ∈ l := by
          rcases List.mem_append.mp hv with hv | hv
          · exact hv
          · rcases List.mem_cons.mp hv with rfl | hv
            · omega
            · have := h.lt_behind hv
              omega
        obtain ⟨l₁, l₂, rfl⟩ := List.append_of_mem hvl
        have hvfree : v.bfree = true := by rwa [h.stored v hv] at hfree
        apply ih (l := l₁) (r := l₂ ++ u :: r) (u := v) (by simp) _ hvfree
        · exact fun q hq => htrail q (List.mem_cons_of_mem _ hq)
        · simp only [List.length_append, List.length_cons] at hlen
          omega
      · exact ⟨u, by simp, hu, by simp only [if_neg hfree]⟩

theorem Tiled.merge_spec (h : Tiled t b (l ++ u :: r)) (hu : u.bfree = true)
    (htrail : ∀ p ∈ b.trail b.fuel u.offset, p ∈ b.linked) :
    ∃ b' us', b.iMergeUnit u.offset = .ok b' ∧ Tiled t b' us' ∧ busy us' = busy (l ++ u :: r) := by
  by_cases halone : u.prev = none ∧ u.next = none
  · refine ⟨b, _, ?_, h, rfl⟩
    simp only [Block.iMergeUnit, h.mem_eq, halone, and_self, if_true]
  have hlen := h.length_lt_fuel
  obtain ⟨c, hc, hcfree, hrewind⟩ := h.rewind_spec rfl (by simp at hlen; omega) hu htrail
  obtain ⟨l', r', hus⟩ := List.append_of_mem hc
  rw [hus] at h hlen ⊢
  obtain ⟨b', c', r'', hrun, htiled, hoff, hfree', hbusy⟩ :=
    h.absorb_spec (k := b.fuel) (by simp at hlen; omega) hcfree
  refine ⟨b'.backLink c.offset, _, ?_, hoff ▸ htiled.backLink, ?_⟩
  · have hmem : b.mem u.offset = u := h.stored u (by rw [← hus]; simp)
    simp only [Block.iMergeUnit, hmem, halone, hu, Bool.true_eq_false, if_false, hrewind]
    show (do let b₁ ← Block.absorb b.fuel b c.offset; pure (b₁.backLink c.offset)) = _
    rw [hrun]
    rfl
  · simp only [busy_append, busy_cons_free _ hfree', busy_cons_free _ hcfree, busy_relink, hbusy]

theorem Tiled.inside (h : Tiled t b (l ++ u :: r)) :
    ¬(u.offset + sizeofAllocUnit t < b.head + sizeofAllocUnit t ∨
      b.head + b.totalSize < u.offset + sizeofAllocUnit t) := by
  have hspan := h.span_le
  have hroom := h.room u (by simp)
  have h0 := h.offset_nonneg
  rw [h.atHead]
  omega

/-- Freeing a buffer whose merge walks back over linked headers removes it and no other. -/
theorem Tiled.free_spec (h : Tiled t b (l ++ u :: r))
    (hback : b.Retraces t (u.offset + sizeofAllocUnit t)) :
    ∃ b' us', b.freeBuffer t (u.offset + sizeofAllocUnit t) = .ok b' ∧ Tiled t b' us' ∧
      busy us' = busy (l ++ r) := by
  have hmark := h.mark ((b.modify u.offset fun w => { w with bfree := true }).addFree 1) true
    (by simp [Block.modify, h.mem_eq]) rfl rfl
  simp only [Block.Retraces, cur_of_buf] at hback
  obtain ⟨b', us', hrun, htiled, hbusy⟩ := hmark.merge_spec rfl hback
  refine ⟨b', us', ?_, htiled, ?_⟩
  · simp only [Block.freeBuffer, h.inside, if_false, cur_of_buf]
    exact hrun
  · rw [hbusy, busy_append, busy_append, busy_cons_free _ rfl]

end Serving

end DevFramework.MemPool
