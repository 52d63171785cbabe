import DevFramework.MemPool.Outcomes
import DevFramework.MemPool.Stock

/-! # When the pool cannot serve a request

The two failures of `alloc`: a request that the block it asks refuses gets a new block, whatever
the other blocks could do; and a request that no block can hold leaves a new block behind. A
`realloc` of such a size gives the old buffer up.
-/
namespace DevFramework.MemPool
open Transition OrderedMap
set_option autoImplicit false
set_option maxHeartbeats 250000

/-! ## What a block can serve -/

/-- A unit of the block suits the request. -/
def Block.CanServe (t : Target) (b : Block) (size : ℤ) : Prop :=
  ∃ a ∈ b.linked, Suits t size (b.mem a)

section CanServe
variable {t : Target} {b : Block} {us : List AllocUnit} {size : ℤ}

theorem Tiled.canServe_iff (h : Tiled t b us) :
    b.CanServe t size ↔ ∃ u ∈ us, Suits t size u := by
  unfold Block.CanServe
  rw [h.linked_eq]
  constructor
  · rintro ⟨a, ha, hsuits⟩
    obtain ⟨u, hu, rfl⟩ := List.mem_map.mp ha
    rw [h.stored u hu] at hsuits
    exact ⟨u, hu, hsuits⟩
  · rintro ⟨u, hu, hsuits⟩
    refine ⟨u.offset, List.mem_map_of_mem hu, ?_⟩
    rwa [h.stored u hu]

theorem Tiled.allocBuffer_cases (h : Tiled t b us) (htotal : b.totalSize = blockSize)
    (hsize : 0 < size) :
    (¬ b.CanServe t size ∧ b.allocBuffer t size = .ok (none, b)) ∨
    (b.CanServe t size ∧ ∃ a b', b.allocBuffer t size = .ok (some a, b')) := by
  have hint : b.totalSize ≤ intMax := by
    rw [htotal]
    decide
  rw [h.canServe_iff]
  rcases h.bestMatch_fit hint hsize with ⟨hnone, hall⟩ | ⟨l, u, r, rfl, hfind, hbest⟩
  · refine .inl ⟨?_, allocBuffer_none hnone⟩
    rintro ⟨u, hu, hsuits⟩
    exact hall u hu hsuits
  · exact .inr ⟨⟨u, by simp, hbest.suits⟩, _, _, allocBuffer_found hfind⟩

theorem Tiled.not_canServe (h : Tiled t b us) (htotal : b.totalSize = blockSize)
    (hsize : blockSize < size + sizeofAllocUnit t) : ¬ b.CanServe t size := by
  rw [h.canServe_iff]
  rintro ⟨u, hu, -, hfit⟩
  obtain ⟨l, r, rfl⟩ := List.append_of_mem hu
  have hspan := h.span_le
  have hoff := h.offset_nonneg
  omega

end CanServe

/-! ## The search of `alloc` -/

section Search
variable {t : Target} {m m' : MemPoolManager} {live : List Ptr} {i size : ℕ} {b : Block}
  {buf : Option Ptr} {p : Ptr} {junk : ℤ → AllocUnit}

theorem Stocked.allocIn_cases (h : Stocked t m live) (hi : m.blockList[i]? = some b)
    (hsize : size ≠ 0) :
    (¬ b.CanServe t size ∧ m.allocIn t i size = some (none, m)) ∨
    (b.CanServe t size ∧ ∃ p m', m.allocIn t i size = some (some p, m') ∧ p.block = i ∧
      m'.blockList.length = m.blockList.length) := by
  obtain ⟨us, htiled, -⟩ := h.serves.tiled i b hi
  have htotal := h.fullSize b (List.mem_of_getElem? hi)
  have hpos : (0 : ℤ) < size := by omega
  rcases htiled.allocBuffer_cases htotal hpos with ⟨hno, hrun⟩ | ⟨hyes, a, b', hrun⟩
  · refine .inl ⟨hno, ?_⟩
    simp only [MemPoolManager.allocIn, hi, hrun, Option.bind_eq_bind, Option.bind_some,
      Option.map_none, set_eq_self hi]
  · refine .inr ⟨hyes, ⟨i, a⟩, { m with blockList := m.blockList.set i b' }, ?_, rfl, ?_⟩
    · simp only [MemPoolManager.allocIn, hi, hrun, Option.bind_eq_bind, Option.bind_some,
        Option.map_some]
    · rw [List.length_set]

theorem allocIn_length (h : m.allocIn t i size = some (buf, m')) :
    m'.blockList.length = m.blockList.length := by
  obtain ⟨b, -, h⟩ := Option.bind_eq_some_iff.mp h
  split at h
  · cases h
  · obtain rfl := (Prod.mk.inj (Option.some.inj h)).2
    rw [List.length_set]

theorem alloc_of_first (hsize : size ≠ 0) (h : m.allocFirst t size = some (some p, m')) :
    m.alloc t size junk = some (some p, m'.enter p p.block) := by
  simp [MemPoolManager.alloc, hsize, h]

theorem allocFirst_length (h : m.allocFirst t size = some (buf, m')) :
    m'.blockList.length = m.blockList.length := by
  unfold MemPoolManager.allocFirst at h
  cases hfind : m.blockList.findIdx? fun b => b.freeCount ≠ 0 with
  | none =>
    rw [hfind] at h
    obtain rfl := (Prod.mk.inj (Option.some.inj h)).2
    rfl
  | some i =>
    rw [hfind] at h
    exact allocIn_length h

/-- None was found: there is one block more in the end. -/
theorem length_of_first_none {m₀ : MemPoolManager} (hsize : size ≠ 0)
    (h : m.allocFirst t size = some (none, m₀)) (hrun : m.alloc t size junk = some (buf, m')) :
    m'.blockList.length = m.blockList.length + 1 := by
  simp only [MemPoolManager.alloc, if_neg hsize, h, Option.bind_eq_bind, Option.bind_some] at hrun
  obtain ⟨⟨buf₁, m₁⟩, hin, hrun⟩ := Option.bind_eq_some_iff.mp hrun
  have hlen : m₁.blockList.length = m.blockList.length + 1 := by
    rw [allocIn_length hin, ← allocFirst_length h]
    simp [MemPoolManager.init]
  cases buf₁ with
  | none =>
    obtain rfl := (Prod.mk.inj (Option.some.inj hrun)).2
    exact hlen
  | some q =>
    obtain rfl := (Prod.mk.inj (Option.some.inj hrun)).2
    rw [enter_blockList]
    exact hlen

theorem length_of_refused (hsize : size ≠ 0) (hrun : m.alloc t size junk = some (none, m')) :
    m'.blockList.length = m.blockList.length + 1 := by
  cases hfirst : m.allocFirst t size with
  | none =>
    simp [MemPoolManager.alloc, hsize, hfirst] at hrun
  | some r =>
    obtain ⟨buf, m₀⟩ := r
    cases buf with
    | none => exact length_of_first_none hsize hfirst hrun
    | some p =>
      rw [alloc_of_first hsize hfirst] at hrun
      cases (Prod.mk.inj (Option.some.inj hrun)).1

end Search

/-! ## Thrift -/

/-- A request that some block can serve is served from the blocks there are; a block is added only
for a request that none of them can serve. -/
structure Thrifty (t : Target) (m : MemPoolManager) (size : ℕ) : Prop where
  served : (∃ b ∈ m.blockList, b.CanServe t size) → ∀ junk, ∃ p m',
    m.alloc t size junk = some (some p, m') ∧ p.block < m.blockList.length ∧
      m'.blockList.length = m.blockList.length
  grown : ∀ junk buf m', m.alloc t size junk = some (buf, m') →
    m.blockList.length < m'.blockList.length → ∀ b ∈ m.blockList, ¬ b.CanServe t size

/-- If some block can serve the request, so can the first with a free unit. -/
def AsksRight (t : Target) (m : MemPoolManager) (size : ℕ) : Prop :=
  (∃ b ∈ m.blockList, b.CanServe t size) →
    ∃ i b, (m.blockList.findIdx? fun b => b.freeCount ≠ 0) = some i ∧ m.blockList[i]? = some b ∧
      b.CanServe t size

section Thrift
variable {t : Target} {m m' : MemPoolManager} {live : List Ptr} {size : ℕ} {p : Ptr}

theorem Stocked.allocFirst_cases (h : Stocked t m live) (hsize : size ≠ 0) :
    (∃ i b p m', (m.blockList.findIdx? fun b => b.freeCount ≠ 0) = some i ∧
      m.blockList[i]? = some b ∧ b.CanServe t size ∧ m.allocFirst t size = some (some p, m') ∧
      p.block < m.blockList.length ∧ m'.blockList.length = m.blockList.length) ∨
    (m.allocFirst t size = some (none, m) ∧
      ∀ i b, (m.blockList.findIdx? fun b => b.freeCount ≠ 0) = some i → m.blockList[i]? = some b →
        ¬ b.CanServe t size) := by
  unfold MemPoolManager.allocFirst
  cases hfind : m.blockList.findIdx? fun b => b.freeCount ≠ 0 with
  | none => exact .inr ⟨rfl, nofun⟩
  | some i =>
    have hlt := (List.findIdx?_eq_some_iff_getElem.mp hfind).1
    have hi := List.getElem?_eq_getElem hlt
    rcases h.allocIn_cases hi hsize with ⟨hno, hrun⟩ | ⟨hyes, p, m', hrun, rfl, hlen⟩
    · refine .inr ⟨hrun, fun j b hj hb => ?_⟩
      obtain rfl := Option.some.inj hj
      obtain rfl := Option.some.inj (hi.symm.trans hb)
      exact hno
    · exact .inl ⟨_, _, p, m', rfl, hi, hyes, hrun, hlt, hlen⟩

theorem Stocked.thrifty_iff (h : Stocked t m live) (hsize : size ≠ 0) :
    Thrifty t m size ↔ AsksRight t m size := by
  rcases h.allocFirst_cases hsize with ⟨i, b, p, m', hfind, hi, hyes, hrun, hlt, hlen⟩ | ⟨hrun, hno⟩
  · refine ⟨fun _ _ => ⟨i, b, hfind, hi, hyes⟩, fun _ => ⟨fun _ junk => ?_, ?_⟩⟩
    · exact ⟨p, _, alloc_of_first hsize hrun, hlt, by rw [enter_blockList, hlen]⟩
    · intro junk buf m₁ halloc hgrown
      rw [alloc_of_first hsize hrun] at halloc
      obtain rfl := (Prod.mk.inj (Option.some.inj halloc)).2
      rw [enter_blockList] at hgrown
      omega
  · constructor
    · intro hthrifty hserves
      obtain ⟨p, m', halloc, -, hlen⟩ := hthrifty.served hserves fun _ => blank
      have hmore := length_of_first_none hsize hrun halloc
      omega
    · intro hright
      have hnone : ¬ ∃ b ∈ m.blockList, b.CanServe t size := by
        intro hserves
        obtain ⟨i, b, hfind, hi, hyes⟩ := hright hserves
        exact hno i b hfind hi hyes
      exact ⟨fun hserves => absurd hserves hnone, fun _ _ _ _ _ b hb hyes => hnone ⟨b, hb, hyes⟩⟩

end Thrift

/-- **Thrift.** In every state reached, the pool is thrifty about a request exactly when the first
block with a free unit can serve it or no block can. -/
theorem alloc_thrifty_iff (t : Target) (u : Usage)
    (h : Reach (Usage.step t) (Usage.Orderly t) Usage.start u) (size : ℕ) (hsize : size ≠ 0) :
    Thrifty t u.manager size ↔ AsksRight t u.manager size :=
  (reach_stocked h).thrifty_iff hsize

theorem alloc_thrifty_iff_one : ∃ u, run (Usage.step .x86) Usage.start
    [.alloc 100 fun _ => blank] = some u ∧ Thrifty .x86 u.manager 200 := by
  have hreach : Reach (Usage.step .x86) (Usage.Orderly .x86) Usage.start _ :=
    Reach.refl.tail (a := .alloc 100 fun _ => blank) trivial rfl
  refine ⟨_, rfl, (alloc_thrifty_iff .x86 _ hreach 200 (by decide)).mpr fun _ => ?_⟩
  exact ⟨0, oneBuffer, rfl, rfl, 120, by decide, rfl, by decide⟩

/-- The first block has a small free unit left and the second a large one; the third request of the
kind below gets a third block. -/
theorem block_wasted : ∃ u, run (Usage.step .x86) Usage.start
    [.alloc 10000000 fun _ => blank, .alloc 1000000 fun _ => blank] = some u ∧
      ¬ Thrifty .x86 u.manager 1000000 := by
  refine ⟨_, rfl, fun h => ?_⟩
  apply h.grown (fun _ => blank) _ _ rfl (by decide) _ (List.mem_cons_of_mem _ List.mem_cons_self)
  exact ⟨1000020, by decide, rfl, by decide⟩

/-! ## Requests that no block can hold -/

/-- The buffer is there: its header is linked and in use. -/
def MemPoolManager.Holds (t : Target) (m : MemPoolManager) (p : Ptr) : Prop :=
  ∃ b, m.blockList[p.block]? = some b ∧ p.offset - sizeofAllocUnit t ∈ b.linked ∧
    (b.mem (p.offset - sizeofAllocUnit t)).bfree = false

/-- A refused request leaves the pool as it is, and a refused `realloc` leaves the buffer. -/
structure FailsAtomically (t : Target) (u : Usage) (size : ℕ) : Prop where
  alloc : ∀ junk, u.manager.alloc t size junk = some (none, u.manager)
  realloc : ∀ p ∈ u.live, ∀ junk copied m',
    u.manager.realloc t (some p) size junk copied = some (none, m') → m'.Holds t p

section Refused
variable {t : Target} {m m' : MemPoolManager} {live : List Ptr} {size : ℕ} {p : Ptr}
  {junk copied : ℤ → AllocUnit}

theorem Stocked.refuses (h : Stocked t m live) (hsize : blockSize < size + sizeofAllocUnit t)
    {i : ℕ} (hi : i < m.blockList.length) : m.allocIn t i size = some (none, m) := by
  have hpos : size ≠ 0 := by
    have := sizeofAllocUnit_lt t
    omega
  have hb := List.getElem?_eq_getElem hi
  rcases h.allocIn_cases hb hpos with ⟨-, hrun⟩ | ⟨hyes, -⟩
  · exact hrun
  · obtain ⟨us, htiled, -⟩ := h.serves.tiled i _ hb
    exact absurd hyes (htiled.not_canServe (h.fullSize _ (List.getElem_mem hi)) hsize)

theorem Stocked.alloc_refused (h : Stocked t m live)
    (hsize : blockSize < size + sizeofAllocUnit t) (junk : ℤ → AllocUnit) :
    m.alloc t size junk = some (none, m.init junk) := by
  have hpos : size ≠ 0 := by
    have := sizeofAllocUnit_lt t
    omega
  have hfirst : m.allocFirst t size = some (none, m) := by
    unfold MemPoolManager.allocFirst
    cases hfind : m.blockList.findIdx? fun b => b.freeCount ≠ 0 with
    | none => rfl
    | some i => exact h.refuses hsize (List.findIdx?_eq_some_iff_getElem.mp hfind).1
  have hlast : m.blockList.length < (m.init junk).blockList.length := by
    simp [MemPoolManager.init]
  have hrefused := (h.init junk).refuses hsize hlast
  simp [MemPoolManager.alloc, hpos, hfirst, hrefused]

theorem Serves.freeIn_gone (h : Serves t m.blockList live) (hp : p ∈ live)
    (hrun : m.freeIn t p.block p = some m') : ¬ m'.Holds t p := by
  obtain ⟨b, l, u, r, hb, htiled, -, hoff, -⟩ := h.unit hp
  simp only [MemPoolManager.freeIn, hb, Ptr.within_self, Option.bind_eq_bind,
    Option.bind_some] at hrun
  split at hrun
  · cases hrun
  · next b' hcall =>
    obtain rfl := Option.some.inj hrun
    rintro ⟨c, hc, -, hused⟩
    rw [List.getElem?_set_self (List.getElem?_eq_some_iff.mp hb).1] at hc
    obtain rfl := Option.some.inj hc
    have hin := htiled.inside
    rw [← hoff] at hin
    rw [freeBuffer_frees hcall hin] at hused
    cases hused

theorem Stocked.realloc_refused (h : Stocked t m live) (hp : p ∈ live)
    (hsize : blockSize < size + sizeofAllocUnit t)
    (hrun : m.realloc t (some p) size junk copied = some (none, m')) : ¬ m'.Holds t p := by
  have hpos : size ≠ 0 := by
    have := sizeofAllocUnit_lt t
    omega
  simp only [MemPoolManager.realloc, if_neg hpos, h.entered p hp, Option.bind_eq_bind] at hrun
  by_cases hfits : Usage.Fits t { manager := m, live := live } p size
  · obtain ⟨m₁, hcall, -⟩ := h.serves.reallocIn_fits hp hpos hfits
    rw [hcall, Option.bind_some] at hrun
    cases hrun
  rcases h.serves.reallocIn_moves hp hfits with herr | hnone
  · rw [herr, Option.bind_none] at hrun
    cases hrun
  rw [hnone, Option.bind_some, h.alloc_refused hsize junk, Option.bind_some] at hrun
  obtain ⟨m₂, hfree, hrun⟩ := Option.bind_eq_some_iff.mp hrun
  obtain rfl := (Prod.mk.inj (Option.some.inj hrun)).2
  exact (h.init junk).serves.freeIn_gone hp hfree

end Refused

/-- **Refused requests.** In no state does a request that no block can hold fail and change nothing.
In every state reached it is refused but leaves a new block in the list; and a `realloc` to such a
size that returns null has freed the buffer, which was there before. -/
theorem refused_not_atomic (t : Target) (size : ℕ)
    (hsize : blockSize < size + sizeofAllocUnit t) :
    (∀ u, ¬ FailsAtomically t u size) ∧
    ∀ u, Reach (Usage.step t) (Usage.Orderly t) Usage.start u →
      (∀ junk, u.manager.alloc t size junk =
        some (none, { u.manager with blockList := u.manager.blockList ++ [Block.fresh junk] })) ∧
      ∀ p ∈ u.live, u.manager.Holds t p ∧ ∀ junk copied m',
        u.manager.realloc t (some p) size junk copied = some (none, m') → ¬ m'.Holds t p := by
  have hpos : size ≠ 0 := by
    have := sizeofAllocUnit_lt t
    omega
  refine ⟨fun u hatomic => ?_, fun u h => ?_⟩
  · have hmore := length_of_refused hpos (hatomic.alloc fun _ => blank)
    omega
  have hs := reach_stocked h
  refine ⟨hs.alloc_refused hsize, fun p hp => ⟨?_, ?_⟩⟩
  · obtain ⟨b, l, w, r, hb, htiled, hused, hoff, -⟩ := hs.serves.unit hp
    have hcur : p.offset - sizeofAllocUnit t = w.offset := by omega
    refine ⟨b, hb, ?_, ?_⟩
    · rw [hcur, htiled.linked_eq]
      exact List.mem_map_of_mem (by simp)
    · rw [hcur, htiled.mem_eq]
      exact hused
  · exact fun junk copied m' hrun => hs.realloc_refused hp hsize hrun

theorem refused_not_atomic_one : ∃ u, run (Usage.step .x86) Usage.start
    [.alloc 100 fun _ => blank] = some u ∧ ¬ FailsAtomically .x86 u 20000000 ∧
      u.manager.alloc .x86 20000000 (fun _ => blank) =
        some (none, { u.manager with
          blockList := u.manager.blockList ++ [Block.fresh fun _ => blank] }) := by
  have hreach : Reach (Usage.step .x86) (Usage.Orderly .x86) Usage.start _ :=
    Reach.refl.tail (a := .alloc 100 fun _ => blank) trivial rfl
  have hrefused := refused_not_atomic .x86 20000000 (by decide)
  exact ⟨_, rfl, hrefused.1 _, (hrefused.2 _ hreach).1 _⟩

/-- The buffer of the pool above is lost to a `realloc` that returns null. -/
theorem refused_loses_buffer : ∃ u m', run (Usage.step .x86) Usage.start
    [.alloc 100 fun _ => blank] = some u ∧ u.live = [⟨0, 20⟩] ∧ ¬ FailsAtomically .x86 u 20000000 ∧
      u.manager.realloc .x86 (some ⟨0, 20⟩) 20000000 (fun _ => blank) (fun _ => blank) =
        some (none, m') ∧ ¬ m'.Holds .x86 ⟨0, 20⟩ := by
  refine ⟨_, _, rfl, rfl, fun hatomic => ?_, rfl, ?_⟩
  · obtain ⟨b, hb, -, hused⟩ := hatomic.realloc ⟨0, 20⟩ (by decide) (fun _ => blank)
      (fun _ => blank) _ rfl
    obtain rfl := Option.some.inj hb
    cases hused
  · rintro ⟨b, hb, -, hused⟩
    obtain rfl := Option.some.inj hb
    cases hused

end DevFramework.MemPool
