import DevFramework.MemPool.Sessions

/-! # What a call does to a well-formed block

For any well-formed block, and unit by unit: `alloc_buffer` takes the best fit and cuts off what is
more than a header; `free_buffer` makes one unit of the freed one and its free neighbours;
`realloc_buffer` keeps its promise in some cases only. It compares the payload asked for with the
size of a unit, header and all, so the last bytes it grants may belong to the next unit; it reads
through a null `next` at the end of the block; and a unit behind the rest keeps its old `prev`.
-/
namespace DevFramework.MemPool
set_option autoImplicit false
set_option maxHeartbeats 250000

section Outcomes
variable {t : Target} {b : Block} {us l r : List AllocUnit} {u n : AllocUnit} {p size newSize : ℤ}

/-! ## `alloc_buffer` -/

/-- A unit of `size` bytes behind a header, and the rest as a free unit if it is more than a
header. -/
def Extent.carved (t : Target) (size : ℤ) (e : Extent) : List Extent :=
  let need := size + sizeofAllocUnit t
  if sizeofAllocUnit t < e.size - need then
    [{ offset := e.offset, size := need, bfree := false },
     { offset := e.offset + need, size := e.size - need, bfree := true }]
  else [{ offset := e.offset, size := e.size, bfree := false }]

theorem carved_extent (t : Target) (size : ℤ) (u : AllocUnit) :
    (carved t size u).map AllocUnit.extent = u.extent.carved t size := by
  unfold carved Extent.carved
  by_cases hrest : u.size - (size + sizeofAllocUnit t) ≤ sizeofAllocUnit t
  · have hle : ¬ sizeofAllocUnit t < u.extent.size - (size + sizeofAllocUnit t) := not_lt.mpr hrest
    simp only [hrest, hle, if_true, if_false]
    rfl
  · have hlt : sizeofAllocUnit t < u.extent.size - (size + sizeofAllocUnit t) := not_le.mp hrest
    simp only [hrest, hlt, if_true, if_false]
    rfl

/-- The buffer `p` was cut from the best of the units `us`, and `b'` is the block with it: the
other units are as they were, and the counter is exact. -/
def Grants (t : Target) (us : List AllocUnit) (size p : ℤ) (b' : Block) : Prop :=
  ∃ l u r us', us = l ++ u :: r ∧ BestFit t size l u r ∧ p = u.offset + sizeofAllocUnit t ∧
    Tiled t b' us' ∧ us'.map AllocUnit.extent =
      l.map AllocUnit.extent ++ (u.extent.carved t size ++ r.map AllocUnit.extent) ∧
    b'.freeCount = us'.countP (·.bfree) ∧
    ∃ v ∈ us', v.bfree = false ∧ v.offset + sizeofAllocUnit t = p ∧
      size ≤ v.size - sizeofAllocUnit t

theorem carved_usable (hsuits : Suits t size u) : ∃ v ∈ carved t size u, v.bfree = false ∧
    v.offset = u.offset ∧ size ≤ v.size - sizeofAllocUnit t := by
  have hfit := hsuits.2
  unfold carved
  simp only
  split
  · exact ⟨_, List.mem_cons_self, rfl, rfl, by simp only; omega⟩
  · exact ⟨_, List.mem_cons_self, rfl, rfl, by simp only; omega⟩

theorem Formed.grants (h : Formed t b (l ++ u :: r)) (hsize : 0 < size)
    (hbest : BestFit t size l u r) :
    Grants t (l ++ u :: r) size (u.offset + sizeofAllocUnit t)
      (b.takeUnit t u.offset u.prev size) := by
  refine ⟨l, u, r, l ++ (carved t size u ++ r), rfl, hbest, rfl, h.tiled.takeUnit_tiled hsize,
    ?_, ?_, ?_⟩
  · rw [List.map_append, List.map_append, carved_extent]
  · have hcount := h.count
    rw [h.tiled.takeUnit_freeCount, hcount]
    simp only [List.countP_append, List.countP_cons, hbest.suits.1, if_true, Nat.cast_add]
    omega
  · obtain ⟨v, hv, hused, hoff, hroom⟩ := carved_usable hbest.suits
    exact ⟨v, by simp [hv], hused, by rw [hoff], hroom⟩

/-- **Best fit.** In a well-formed block, whose size is an `int`, a request is refused exactly when
no free unit is large enough, and then nothing changes; otherwise it is cut from the first of the
smallest units that are. -/
theorem alloc_best_fit (h : WellFormed t b us) (htotal : b.totalSize ≤ intMax) (hsize : 0 < size) :
    ∃ buf b', b.allocBuffer t size = .ok (buf, b') ∧
      (buf = none ↔ ∀ u ∈ us, ¬ Suits t size u) ∧ (buf = none → b' = b) ∧
      ∀ p, buf = some p → Grants t us size p b' := by
  rcases h.tiled.bestMatch_fit htotal hsize with ⟨hnone, hall⟩ | ⟨l, u, r, rfl, hfind, hbest⟩
  · exact ⟨none, b, allocBuffer_none hnone, ⟨fun _ => hall, fun _ => rfl⟩, fun _ => rfl, nofun⟩
  · refine ⟨_, _, allocBuffer_found hfind, ?_, nofun, fun p hp => ?_⟩
    · exact ⟨nofun, fun hnot => absurd hbest.suits (hnot u (by simp))⟩
    · obtain rfl := Option.some.inj hp
      exact h.toFormed.grants hsize hbest

theorem alloc_best_fit_fresh : ∃ b', (Block.fresh fun _ => blank).allocBuffer .x86 100 =
      .ok (some 20, b') ∧ Grants .x86
        [{ offset := 0, size := blockSize, bfree := true, prev := none, next := none }] 100 20 b' := by
  obtain ⟨buf, b', hrun, -, -, hgrants⟩ := alloc_best_fit (fresh_wellFormed .x86 fun _ => blank)
    (by decide) (by decide : (0 : ℤ) < 100)
  obtain rfl : some 20 = buf := (Prod.mk.inj (Except.ok.inj hrun)).1
  exact ⟨b', hrun, hgrants 20 rfl⟩

/-! ## `free_buffer` -/

/-- **Merging.** A buffer that is out is freed: its unit and its free neighbours become one free
unit, the others stay as they are, and so do the bytes of the block. -/
theorem free_merges_neighbours (h : WellFormed t b us) (hp : p - sizeofAllocUnit t ∈ busy us) :
    ∃ l u r b' us', us = l ++ u :: r ∧ u.bfree = false ∧ p = u.offset + sizeofAllocUnit t ∧
      b.freeBuffer t p = .ok b' ∧ WellFormed t b' us' ∧
      Coalesces (l.map AllocUnit.extent) u.extent (r.map AllocUnit.extent)
        (us'.map AllocUnit.extent) ∧ span us' = span us := by
  obtain ⟨l, u, r, rfl, hused, rfl⟩ := h.split_live hp
  obtain ⟨b', us', hrun, hwf, hcoalesces⟩ := h.free_coalesces hused
  refine ⟨l, u, r, b', us', rfl, hused, rfl, hrun, hwf, hcoalesces, ?_⟩
  rw [span_eq, span_eq, hcoalesces.total]
  simp

/-- The block below has one buffer; freeing it gives one free unit. -/
theorem free_merges_neighbours_one : ∃ b' us',
    ((Block.fresh fun _ => blank).takeUnit .x86 0 none 100).freeBuffer .x86 20 = .ok b' ∧
      WellFormed .x86 b' us' ∧ span us' = blockSize := by
  have hwf := (fresh_wellFormed .x86 fun _ => blank).takeUnit_split (l := []) rfl
    (by decide : (0 : ℤ) < 100) (by decide)
  obtain ⟨l, u, r, b', us', -, -, -, hrun, hwf', -, hspan⟩ :=
    free_merges_neighbours (p := 20) hwf (by decide)
  exact ⟨b', us', hrun, hwf', by rw [hspan]; decide⟩

/-! ## `realloc_buffer` -/

/-- The call is refused and nothing changes, or the buffer has room for `newSize` bytes where it
is, in a block whose links and counter are right, and the other buffers are as they were. -/
def ResizesInPlace (t : Target) (b : Block) (us : List AllocUnit) (p newSize : ℤ) : Prop :=
  b.reallocBuffer t p newSize = .ok (none, b) ∨
  ∃ b' us' v, b.reallocBuffer t p newSize = .ok (some p, b') ∧ Formed t b' us' ∧ v ∈ us' ∧
    v.bfree = false ∧ v.offset + sizeofAllocUnit t = p ∧ newSize ≤ v.size - sizeofAllocUnit t ∧
    ∀ w ∈ us, w.bfree = false → w.offset + sizeofAllocUnit t ≠ p →
      w.extent ∈ us'.map AllocUnit.extent

/-- The payload fits into the unit; or `newSize` is larger than the unit, header and all, there is
a unit behind it, and that is in use, or too small, or the last one. -/
def Block.GrowsCleanly (t : Target) (b : Block) (buf newSize : ℤ) : Prop :=
  let u := b.mem (buf - sizeofAllocUnit t)
  newSize + sizeofAllocUnit t ≤ u.size ∨
  u.size < newSize ∧ ∃ next, u.next = some next ∧
    ((b.mem next).bfree = false ∨ u.size + (b.mem next).size - sizeofAllocUnit t < newSize ∨
      (b.mem next).next = none)

theorem WellFormed.grows_cleanly (h : WellFormed t b (l ++ u :: r)) (hu : u.bfree = false)
    (hnew : 0 < newSize) (hgrows : b.GrowsCleanly t (u.offset + sizeofAllocUnit t) newSize) :
    ResizesInPlace t b (l ++ u :: r) (u.offset + sizeofAllocUnit t) newSize := by
  have hpos := sizeofAllocUnit_pos t
  simp only [Block.GrowsCleanly, cur_of_buf, h.tiled.mem_eq, h.tiled.next_eq] at hgrows
  obtain hfit | ⟨hgrow, a, hnext, hcond⟩ := hgrows
  · refine .inr ⟨b, l ++ u :: r, u, h.tiled.realloc_fit (by omega), h.toFormed, by simp, hu, rfl,
      by omega, fun w hw _ _ => List.mem_map_of_mem hw⟩
  cases r with
  | nil => cases hnext
  | cons n r =>
    obtain rfl : n.offset = a := Option.some.inj hnext
    have hn : Tiled t b ((l ++ [u]) ++ n :: r) := by simpa using h.tiled
    rw [hn.mem_eq, hn.next_eq] at hcond
    by_cases hstuck : n.bfree = false ∨ u.size + n.size - sizeofAllocUnit t < newSize
    · exact .inl (h.tiled.realloc_stuck hgrow hstuck)
    -- what is left: the unit behind is free, large enough and the last
    obtain rfl : r = [] := by simpa using (or_assoc.mpr hcond).resolve_left hstuck
    obtain ⟨hnfree, hroom⟩ := not_or.mp hstuck
    have hnfree : n.bfree = true := by simpa using hnfree
    obtain ⟨b', v, rest, hrun, hwf, hv, hoff, hsize, -⟩ :=
      h.realloc_grown hu hnfree hnew hgrow (not_lt.mp hroom)
    refine .inr ⟨b', l ++ v :: rest, v, hrun, hwf.toFormed, by simp, hv, by rw [hoff], by omega, ?_⟩
    intro w hw hused hne
    have hwl : w ∈ l := by
      rcases List.mem_append.mp hw with hw | hw
      · exact hw
      rcases List.mem_cons.mp hw with rfl | hw
      · exact absurd rfl hne
      · rw [List.mem_singleton.mp hw, hnfree] at hused
        cases hused
    exact List.mem_map_of_mem (List.mem_append_left _ hwl)

/-- A well-formed block with all its buffers out. -/
theorem WellFormed.session_good (h : WellFormed t b us) :
    Session.Good t { block := b, live := (busy us).map (· + sizeofAllocUnit t) } := by
  refine ⟨us, h, fun q => ⟨fun hq => ?_, fun hq => ?_⟩⟩
  · obtain ⟨a, ha, rfl⟩ := List.mem_map.mp hq
    rwa [cur_of_buf]
  · exact List.mem_map.mpr ⟨_, hq, by omega⟩

/-- **Resizing in place.** In a well-formed block `realloc_buffer` keeps its promise for a buffer
that is out exactly when it grows cleanly. -/
theorem realloc_in_place_iff (h : WellFormed t b us) (hp : p - sizeofAllocUnit t ∈ busy us)
    (hnew : 0 < newSize) : ResizesInPlace t b us p newSize ↔ b.GrowsCleanly t p newSize := by
  obtain ⟨l, u, r, rfl, hused, rfl⟩ := h.split_live hp
  refine ⟨fun hkeeps => ?_, h.grows_cleanly hused hnew⟩
  by_contra hbad
  have hmem : b.mem (u.offset + sizeofAllocUnit t - sizeofAllocUnit t) = u := by
    rw [cur_of_buf, h.tiled.mem_eq]
  simp only [Block.GrowsCleanly, hmem, not_or, not_le, not_and] at hbad
  obtain ⟨hshort, hbad⟩ := hbad
  by_cases hgrow : u.size < newSize
  · -- the call is undefined, or a link is out of date after it
    have hlive : u.offset + sizeofAllocUnit t ∈
        (busy (l ++ u :: r)).map (· + sizeofAllocUnit t) := by
      rw [cur_of_buf] at hp
      exact List.mem_map_of_mem hp
    have hcuts : ¬ Session.CutsLast t
        { block := b, live := (busy (l ++ u :: r)).map (· + sizeofAllocUnit t) }
        (.realloc (u.offset + sizeofAllocUnit t) newSize) := by
      simp only [Session.CutsLast, hmem, not_or]
      exact ⟨not_le.mpr hgrow, hbad hgrow⟩
    have hbreaks : ∀ buf b', b.reallocBuffer t (u.offset + sizeofAllocUnit t) newSize =
        .ok (buf, b') → ∀ us', ¬ Formed t b' us' := by
      intro buf b' hrun
      apply realloc_breaks h.session_good hlive hnew hcuts
        { block := b', live := (busy (l ++ u :: r)).map (· + sizeofAllocUnit t) }
      simp only [Session.exec, hrun]
    obtain hrun | ⟨b', us', v, hrun, hform, -⟩ := hkeeps
    · exact hbreaks none b hrun _ h.toFormed
    · exact hbreaks _ b' hrun us' hform
  · -- the call grants what is the unit with its header
    have hsame := h.tiled.realloc_fit (not_lt.mp hgrow)
    obtain hrun | ⟨b', us', v, hrun, hform, hv, -, hoff, hroom, -⟩ := hkeeps
    · rw [hrun] at hsame
      cases hsame
    · rw [hrun] at hsame
      obtain rfl : b' = b := (Prod.mk.inj (Except.ok.inj hsame)).2
      have hvu : v = u := by
        rw [← hform.stored v hv, ← h.tiled.mem_eq]
        congr 1
        omega
      rw [hvu] at hroom
      omega

/-- One buffer of 100 bytes at the start of a block. -/
def oneBuffer : Block := (Block.fresh fun _ => blank).takeUnit .x86 0 none 100

theorem oneBuffer_wellFormed : WellFormed .x86 oneBuffer
    [{ offset := 0, size := 120, bfree := false, prev := none, next := some 120 },
     { offset := 120, size := blockSize - 120, bfree := true, prev := some 0, next := none }] :=
  (fresh_wellFormed .x86 fun _ => blank).takeUnit_split (l := []) rfl
    (by decide : (0 : ℤ) < 100) (by decide)

theorem realloc_in_place_iff_grown : ∃ us, WellFormed .x86 oneBuffer us ∧
    ResizesInPlace .x86 oneBuffer us 20 200 := by
  refine ⟨_, oneBuffer_wellFormed, (realloc_in_place_iff oneBuffer_wellFormed (by decide)
    (by decide)).mpr (.inr ⟨by decide, 120, rfl, .inr (.inr rfl)⟩)⟩

/-- 110 bytes are granted where the next header starts behind 100. -/
theorem realloc_overruns : ∃ us, WellFormed .x86 oneBuffer us ∧
    20 - sizeofAllocUnit .x86 ∈ busy us ∧ ¬ ResizesInPlace .x86 oneBuffer us 20 110 := by
  refine ⟨_, oneBuffer_wellFormed, by decide, fun hkeeps => ?_⟩
  have hrun : oneBuffer.reallocBuffer .x86 20 110 = .ok (some 20, oneBuffer) := rfl
  obtain hnone | ⟨b', us', v, hsome, hform, hv, -, hoff, hroom, -⟩ := hkeeps
  · rw [hrun] at hnone
    cases hnone
  · rw [hrun] at hsome
    obtain rfl : oneBuffer = b' := (Prod.mk.inj (Except.ok.inj hsome)).2
    have h0 : v.offset = 0 := by
      have : sizeofAllocUnit .x86 = 20 := rfl
      omega
    have hsize : v.size = 120 := by
      rw [← hform.stored v hv, h0]
      rfl
    have : sizeofAllocUnit .x86 = 20 := rfl
    omega

end Outcomes

end DevFramework.MemPool
