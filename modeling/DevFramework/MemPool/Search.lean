import DevFramework.MemPool.Tiling

/-! # Best fit

`best_match` runs once along the units and keeps the smallest gap seen so far. Its early exit at a
gap of zero is never taken: a unit that suits is larger than the request by a header at least. What
it returns is the first of the smallest units that suit.
-/
namespace DevFramework.MemPool
set_option autoImplicit false
set_option maxHeartbeats 250000

/-- The unit can serve a request for `size` bytes. -/
def Suits (t : Target) (size : ℤ) (u : AllocUnit) : Prop :=
  u.bfree = true ∧ size + sizeofAllocUnit t ≤ u.size

instance (t : Target) (size : ℤ) (u : AllocUnit) : Decidable (Suits t size u) :=
  inferInstanceAs (Decidable (_ ∧ _))

/-- Of the units `l ++ u :: r`, `u` is the first of the smallest that suit. -/
structure BestFit (t : Target) (size : ℤ) (l : List AllocUnit) (u : AllocUnit)
    (r : List AllocUnit) : Prop where
  suits : Suits t size u
  first : ∀ v ∈ l, Suits t size v → u.size < v.size
  best : ∀ v ∈ r, Suits t size v → u.size ≤ v.size

theorem BestFit.le {t : Target} {size : ℤ} {l r : List AllocUnit} {u v : AllocUnit}
    (h : BestFit t size l u r) (hv : v ∈ l ++ u :: r) (hsuits : Suits t size v) :
    u.size ≤ v.size := by
  rcases List.mem_append.mp hv with hv | hv
  · exact (h.first v hv hsuits).le
  rcases List.mem_cons.mp hv with rfl | hv
  · exact le_rfl
  · exact h.best v hv hsuits

/-! ## The loop -/

/-- What the loop knows when it has seen the units `us`: `gap` is the smallest gap below `cap`,
and `best` is the first unit with that gap. -/
def Found (t : Target) (size cap : ℤ) (us : List AllocUnit) (gap : ℤ) (best : Option ℤ) : Prop :=
  (best = none ∧ gap = cap ∧ ∀ v ∈ us, Suits t size v → cap ≤ v.size - size) ∨
  ∃ l u r, us = l ++ u :: r ∧ best = some u.offset ∧ gap = u.size - size ∧ gap < cap ∧
    BestFit t size l u r

section Found
variable {t : Target} {size cap gap : ℤ} {best : Option ℤ} {us : List AllocUnit} {u : AllocUnit}

theorem Found.gap_pos (h : Found t size cap us gap best) (hcap : 0 < cap) : 0 < gap := by
  obtain ⟨-, rfl, -⟩ | ⟨l, u, r, -, -, rfl, -, hbest⟩ := h
  · exact hcap
  · have hpos := sizeofAllocUnit_pos t
    have hfit := hbest.suits.2
    omega

/-- A unit that does not suit, or has no smaller gap, is passed over. -/
theorem Found.pass (h : Found t size cap us gap best)
    (hu : Suits t size u → gap ≤ u.size - size) : Found t size cap (us ++ [u]) gap best := by
  obtain ⟨hnone, hgap, hall⟩ | ⟨l, w, r, rfl, hsome, hgap, hlt, hbest⟩ := h
  · refine .inl ⟨hnone, hgap, fun v hv hsuits => ?_⟩
    rcases List.mem_append.mp hv with hv | hv
    · exact hall v hv hsuits
    · rw [List.mem_singleton.mp hv] at hsuits ⊢
      exact hgap ▸ hu hsuits
  · refine .inr ⟨l, w, r ++ [u], by simp, hsome, hgap, hlt, hbest.suits, hbest.first, ?_⟩
    intro v hv hsuits
    rcases List.mem_append.mp hv with hv | hv
    · exact hbest.best v hv hsuits
    · rw [List.mem_singleton.mp hv] at hsuits ⊢
      have hle := hu hsuits
      omega

theorem Found.smaller (h : Found t size cap us gap best) (hu : Suits t size u)
    (hlt : u.size - size < gap) :
    Found t size cap (us ++ [u]) (u.size - size) (some u.offset) := by
  refine .inr ⟨us, u, [], rfl, rfl, rfl, ?_, hu, ?_, by simp⟩
  · obtain ⟨-, rfl, -⟩ | ⟨-, -, -, -, -, -, hgap, -⟩ := h
    · exact hlt
    · exact hlt.trans hgap
  · intro v hv hsuits
    obtain ⟨-, rfl, hall⟩ | ⟨l, w, r, rfl, -, rfl, -, hbest⟩ := h
    · have := hall v hv hsuits
      omega
    · have := hbest.le hv hsuits
      omega

end Found

section Search
variable {t : Target} {b : Block} {us : List AllocUnit}

/-- The induction is on the units `r` still ahead. -/
theorem Tiled.bestMatchLoop_found (h : Tiled t b us) {size cap : ℤ} (hcap : 0 < cap)
    (r : List AllocUnit) :
    ∀ (pre : List AllocUnit) (k : ℕ) (gap : ℤ) (best : Option ℤ), us = pre ++ r → r.length < k →
      Found t size cap pre gap best →
      ∃ gap' bm, b.bestMatchLoop t size k (r.head?.map (·.offset)) gap best = .ok bm ∧
        Found t size cap us gap' bm := by
  induction r with
  | nil =>
    intro pre k gap best hus _ hfound
    rw [List.append_nil] at hus
    exact ⟨gap, best, by cases k <;> rfl, hus ▸ hfound⟩
  | cons u r ih =>
    intro pre k gap best hus hk hfound
    obtain ⟨k, rfl⟩ : ∃ k', k = k' + 1 := ⟨k - 1, by simp only [List.length_cons] at hk; omega⟩
    have hu : Tiled t b (pre ++ u :: r) := hus ▸ h
    have hk : r.length < k := by simpa using hk
    have hus : us = (pre ++ [u]) ++ r := by simp [hus]
    simp only [List.head?_cons, Option.map_some, Block.bestMatchLoop, hu.mem_eq, hu.next_eq]
    by_cases hfit : u.bfree = true ∧ size + sizeofAllocUnit t ≤ u.size
    · rw [if_pos hfit]
      have hnext : Found t size cap (pre ++ [u]) (if u.size - size < gap then u.size - size else gap)
          (if u.size - size < gap then some u.offset else best) := by
        split
        · next hlt => exact hfound.smaller hfit hlt
        · next hle => exact hfound.pass fun _ => not_lt.mp hle
      rw [if_neg (hnext.gap_pos hcap).ne']
      exact ih _ k _ _ hus hk hnext
    · rw [if_neg hfit]
      exact ih _ k _ _ hus hk (hfound.pass fun hsuits => absurd hsuits hfit)

/-- `best_match` finds the best fit, unless every unit that suits is out of the reach of `alpha`. -/
theorem Tiled.bestMatch_best (h : Tiled t b us) (size : ℤ) :
    (b.bestMatch t size = .ok none ∧ ∀ u ∈ us, Suits t size u → intMax ≤ u.size - size) ∨
    ∃ l u r, us = l ++ u :: r ∧ b.bestMatch t size = .ok (some (u.offset, u.prev)) ∧
      BestFit t size l u r := by
  obtain ⟨gap, bm, hrun, hfound⟩ : ∃ gap bm, b.bestMatchLoop t size b.fuel
      (us.head?.map (·.offset)) intMax none = .ok bm ∧ Found t size intMax us gap bm :=
    h.bestMatchLoop_found (by decide) us [] b.fuel intMax none rfl h.length_lt_fuel
      (.inl ⟨rfl, rfl, by simp⟩)
  rw [← h.head_eq] at hrun
  obtain ⟨rfl, -, hall⟩ | ⟨l, u, r, rfl, rfl, -, -, hbest⟩ := hfound
  · exact .inl ⟨by simp [Block.bestMatch, hrun, Except.map], hall⟩
  · exact .inr ⟨l, u, r, rfl, by simp [Block.bestMatch, hrun, Except.map, h.mem_eq], hbest⟩

/-- In a block whose size is an `int` nothing is out of that reach. -/
theorem Tiled.bestMatch_fit (h : Tiled t b us) (htotal : b.totalSize ≤ intMax) {size : ℤ}
    (hsize : 0 < size) :
    (b.bestMatch t size = .ok none ∧ ∀ u ∈ us, ¬ Suits t size u) ∨
    ∃ l u r, us = l ++ u :: r ∧ b.bestMatch t size = .ok (some (u.offset, u.prev)) ∧
      BestFit t size l u r := by
  refine (h.bestMatch_best size).imp_left fun ⟨hnone, hall⟩ => ⟨hnone, fun u hu hsuits => ?_⟩
  have hfar := hall u hu hsuits
  obtain ⟨l, r, rfl⟩ := List.append_of_mem hu
  have hspan := h.span_le
  have hoff := h.offset_nonneg
  omega

theorem Tiled.bestMatch_spec (h : Tiled t b us) (size : ℤ) :
    b.bestMatch t size = .ok none ∨
    ∃ l u r, us = l ++ u :: r ∧ b.bestMatch t size = .ok (some (u.offset, u.prev)) ∧
      u.bfree = true ∧ size + sizeofAllocUnit t ≤ u.size := by
  obtain ⟨hnone, -⟩ | ⟨l, u, r, hus, hrun, hbest⟩ := h.bestMatch_best size
  · exact .inl hnone
  · exact .inr ⟨l, u, r, hus, hrun, hbest.suits⟩

/-! ## The request -/

theorem allocBuffer_none {size : ℤ} (h : b.bestMatch t size = .ok none) :
    b.allocBuffer t size = .ok (none, b) := by
  simp only [Block.allocBuffer, h]

theorem allocBuffer_found {size cur : ℤ} {prev : Option ℤ}
    (h : b.bestMatch t size = .ok (some (cur, prev))) :
    b.allocBuffer t size =
      .ok (some (cur + sizeofAllocUnit t), b.takeUnit t cur prev size) := by
  simp only [Block.allocBuffer, h]

end Search

end DevFramework.MemPool
