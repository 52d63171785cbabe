import DevFramework.MemPool.Tiling

/-! # Well-formed blocks

`Formed t b us`: the units `us` tile the block, `prev` undoes `next`, and `free_count` counts the
free ones. `WellFormed` adds that no two neighbours are both free, which `free_buffer` restores by
merging.
-/
namespace DevFramework.MemPool
set_option autoImplicit false
set_option maxHeartbeats 250000

/-- `prev` of `v` is `u`. -/
def PointsBack (u v : AllocUnit) : Prop := v.prev = some u.offset

/-- Not both free. -/
def Apart (u v : AllocUnit) : Prop := ¬(u.bfree = true ∧ v.bfree = true)

structure Formed (t : Target) (b : Block) (us : List AllocUnit) : Prop where
  stored : ∀ u ∈ us, b.mem u.offset = u
  nonempty : us ≠ []
  atHead : b.head = 0
  first : ∀ u ∈ us.head?, u.offset = 0 ∧ u.prev = none
  last : ∀ u ∈ us.getLast?, u.next = none
  follows : us.IsChain Follows
  total : span us = b.totalSize
  back : us.IsChain PointsBack
  room : ∀ u ∈ us, sizeofAllocUnit t < u.size
  count : b.freeCount = us.countP (·.bfree)

structure WellFormed (t : Target) (b : Block) (us : List AllocUnit) : Prop extends
    Formed t b us where
  apart : us.IsChain Apart

/-! ## Where the units are -/

theorem lower_of_pointsBack {us : List AllocUnit} (hback : us.IsChain PointsBack)
    (hfollows : us.IsChain Follows) (hpos : ∀ u ∈ us, 0 < u.size)
    (hfirst : ∀ u ∈ us.head?, ∀ p, u.prev = some p → p < u.offset) :
    ∀ v ∈ us, ∀ p, v.prev = some p → p < v.offset := by
  induction us with
  | nil => nofun
  | cons u us ih =>
    obtain ⟨hu, hback⟩ := List.isChain_cons.mp hback
    obtain ⟨hu', hfollows⟩ := List.isChain_cons.mp hfollows
    have hsize := hpos u (by simp)
    have hrest := ih hback hfollows (fun v hv => hpos v (by simp [hv])) fun v hv p hp => by
      have hprev := hu v hv
      have hoff := (hu' v hv).2
      unfold PointsBack at hprev
      rw [hprev] at hp
      obtain rfl := Option.some.inj hp
      omega
    intro v hv
    rcases List.mem_cons.mp hv with rfl | hv
    · exact hfirst v (by simp)
    · exact hrest v hv

theorem Formed.tiled {t : Target} {b : Block} {us : List AllocUnit} (h : Formed t b us) :
    Tiled t b us where
  stored := h.stored
  nonempty := h.nonempty
  atHead := h.atHead
  first u hu := (h.first u hu).1
  last := h.last
  follows := h.follows
  total := h.total
  room := h.room
  back := by
    apply lower_of_pointsBack h.back h.follows
    · exact fun u hu => (sizeofAllocUnit_pos t).trans (h.room u hu)
    · intro u hu p hp
      rw [(h.first u hu).2] at hp
      cases hp

section Formed
variable {t : Target} {b : Block} {us l r : List AllocUnit} {u : AllocUnit}

theorem Formed.prev_eq (h : Formed t b (l ++ u :: r)) : u.prev = l.getLast?.map (·.offset) := by
  rcases List.eq_nil_or_concat l with rfl | ⟨l', v, rfl⟩
  · simpa using (h.first u (by simp)).2
  · have := (List.isChain_append.mp h.back).2.2 v (by simp) u (by simp)
    simpa [PointsBack] using this

/-- **Rebuilding a layout.** The units from `u` on are replaced by `u' :: ms`, with `u'` in the
place of `u` and the tiling rebuilt. -/
theorem Formed.retail (h : Formed t b (l ++ u :: r)) {b' : Block} {u' : AllocUnit}
    {ms : List AllocUnit} (htiled : Tiled t b' (l ++ u' :: ms))
    (hprev : u'.prev = u.prev) (hback : (u' :: ms).IsChain PointsBack)
    (hcount : b'.freeCount - b.freeCount =
      (u' :: ms).countP (·.bfree) - ((u :: r).countP (·.bfree) : ℤ)) :
    Formed t b' (l ++ u' :: ms) where
  stored := htiled.stored
  nonempty := htiled.nonempty
  atHead := htiled.atHead
  first v hv := ⟨htiled.first v hv, by
    cases l with
    | nil =>
      obtain rfl : u' = v := by simpa using hv
      rw [hprev]
      exact (h.first u (by simp)).2
    | cons w l => exact (h.first v (by simpa using hv)).2⟩
  last := htiled.last
  follows := htiled.follows
  total := htiled.total
  room := htiled.room
  back := by
    apply (h.back.left_of_append).append hback
    intro v hv w hw
    obtain rfl : u' = w := by simpa using hw
    have hvu : u.prev = some v.offset := (List.isChain_append.mp h.back).2.2 v hv u (by simp)
    exact hprev.trans hvu
  count := by
    have := h.count
    simp only [List.countP_append, Nat.cast_add] at this ⊢
    omega

end Formed

end DevFramework.MemPool
