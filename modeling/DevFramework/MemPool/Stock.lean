import DevFramework.MemPool.Handed

/-! # Running short

`alloc` asks the first block that has a free unit at all, and adds a block when that one refuses;
so a request may cost a new block while an older one could serve it, and a request that no block
can hold adds one each time and is still refused. `realloc` frees the old buffer whatever the new
one is, null included.

The runs are those in which every buffer that is freed is out, or is unknown to the map, and no
merge follows a link that is out of date. A buffer may move.
-/
namespace DevFramework.MemPool
open Transition OrderedMap
set_option autoImplicit false
set_option maxHeartbeats 250000

/-! ## The size of a block -/

section TotalSize
variable {t : Target} {b b' : Block} {buf : Option ℤ}

theorem takeUnit_totalSize (t : Target) (b : Block) (cur : ℤ) (prev : Option ℤ) (size : ℤ) :
    (b.takeUnit t cur prev size).totalSize = b.totalSize := by
  unfold Block.takeUnit
  simp only
  split
  · rfl
  · split <;> rfl

theorem allocBuffer_totalSize {size : ℤ} (h : b.allocBuffer t size = .ok (buf, b')) :
    b'.totalSize = b.totalSize := by
  unfold Block.allocBuffer at h
  split at h
  · cases h
  · obtain rfl := (Prod.mk.inj (Except.ok.inj h)).2
    rfl
  · obtain rfl := (Prod.mk.inj (Except.ok.inj h)).2
    exact takeUnit_totalSize t b _ _ size

theorem reallocBuffer_totalSize {oldBuf newSize : ℤ}
    (h : b.reallocBuffer t oldBuf newSize = .ok (buf, b')) : b'.totalSize = b.totalSize := by
  unfold Block.reallocBuffer at h
  simp only at h
  split_ifs at h
  · obtain rfl := (Prod.mk.inj (Except.ok.inj h)).2
    rfl
  · split at h
    · cases h
    · split_ifs at h
      all_goals
        obtain rfl := (Prod.mk.inj (Except.ok.inj h)).2
        rfl

/-- `b'` has the size and the free flags of `b`. -/
def SameFlags (b b' : Block) : Prop :=
  b'.totalSize = b.totalSize ∧ ∀ a, (b'.mem a).bfree = (b.mem a).bfree

theorem SameFlags.trans {b₁ b₂ b₃ : Block} (h : SameFlags b₁ b₂) (h' : SameFlags b₂ b₃) :
    SameFlags b₁ b₃ :=
  ⟨h'.1.trans h.1, fun a => (h'.2 a).trans (h.2 a)⟩

theorem SameFlags.addFree (h : SameFlags b b') (d : ℤ) : SameFlags b (b'.addFree d) := h

theorem modify_sameFlags (b : Block) (p : ℤ) {f : AllocUnit → AllocUnit}
    (hf : ∀ u, (f u).bfree = u.bfree) : SameFlags b (b.modify p f) := by
  refine ⟨rfl, fun a => ?_⟩
  by_cases ha : a = p
  · rw [ha, Block.modify_mem_self, hf]
  · rw [Block.modify_mem_ne _ _ _ _ ha]

theorem backLink_sameFlags (b : Block) (p : ℤ) : SameFlags b (b.backLink p) := by
  unfold Block.backLink
  split
  · exact ⟨rfl, fun _ => rfl⟩
  · apply modify_sameFlags
    exact fun _ => rfl

/-- The merge changes sizes, links and the counter. -/
theorem absorb_sameFlags {k : ℕ} {cur : ℤ} (h : Block.absorb k b cur = .ok b') :
    SameFlags b b' := by
  induction k generalizing b with
  | zero => cases h
  | succ k ih =>
    rw [Block.absorb] at h
    split at h
    · obtain rfl := Except.ok.inj h
      exact ⟨rfl, fun _ => rfl⟩
    · next m _ =>
      split at h
      · apply SameFlags.trans _ (ih h)
        apply SameFlags.trans _ (backLink_sameFlags _ cur)
        refine SameFlags.trans (SameFlags.addFree (modify_sameFlags b cur ?_) (-1))
          (modify_sameFlags _ cur ?_)
        · exact fun _ => rfl
        · exact fun _ => rfl
      · obtain rfl := Except.ok.inj h
        exact ⟨rfl, fun _ => rfl⟩

theorem iMergeUnit_sameFlags {cur : ℤ} (h : b.iMergeUnit cur = .ok b') : SameFlags b b' := by
  unfold Block.iMergeUnit at h
  split_ifs at h
  · obtain rfl := Except.ok.inj h
    exact ⟨rfl, fun _ => rfl⟩
  · obtain rfl := Except.ok.inj h
    exact ⟨rfl, fun _ => rfl⟩
  · cases hrewind : b.rewind b.fuel cur with
    | error e => simp [hrewind, bind, Except.bind] at h
    | ok c =>
      cases habsorb : Block.absorb b.fuel b c with
      | error e => simp [hrewind, habsorb, bind, Except.bind] at h
      | ok b₁ =>
        have hlink : b₁.backLink c = b' := by
          simpa [hrewind, habsorb, bind, Except.bind, pure, Except.pure] using h
        rw [← hlink]
        exact (absorb_sameFlags habsorb).trans (backLink_sameFlags b₁ c)

theorem freeBuffer_totalSize {a : ℤ} (h : b.freeBuffer t a = .ok b') :
    b'.totalSize = b.totalSize := by
  unfold Block.freeBuffer at h
  split_ifs at h
  · obtain rfl := Except.ok.inj h
    rfl
  · exact (iMergeUnit_sameFlags h).1

/-- What is freed is free, whatever it is merged with. -/
theorem freeBuffer_frees {a : ℤ} (h : b.freeBuffer t a = .ok b')
    (hin : ¬(a < b.head + sizeofAllocUnit t ∨ b.head + b.totalSize < a)) :
    (b'.mem (a - sizeofAllocUnit t)).bfree = true := by
  unfold Block.freeBuffer at h
  rw [if_neg hin] at h
  rw [(iMergeUnit_sameFlags h).2, Block.addFree_mem, Block.modify_mem_self]

end TotalSize

def FullSize (bs : List Block) : Prop := ∀ b ∈ bs, b.totalSize = blockSize

section FullSize
variable {t : Target} {m m' : MemPoolManager} {i : ℕ} {b b' : Block} {size newSize : ℕ}
  {buf : Option Ptr} {p : Ptr} {junk copied : ℤ → AllocUnit}

theorem FullSize.set {bs : List Block} (h : FullSize bs) (hi : bs[i]? = some b)
    (hsize : b'.totalSize = b.totalSize) : FullSize (bs.set i b') := by
  intro c hc
  rcases List.mem_or_eq_of_mem_set hc with hc | rfl
  · exact h c hc
  · rw [hsize]
    exact h b (List.mem_of_getElem? hi)

theorem FullSize.init (h : FullSize m.blockList) (junk : ℤ → AllocUnit) :
    FullSize (m.init junk).blockList := by
  intro c hc
  rcases List.mem_append.mp hc with hc | hc
  · exact h c hc
  · rw [List.mem_singleton.mp hc]
    rfl

theorem FullSize.overwriteIn (h : FullSize m.blockList) (i : ℕ) (bytes : ℤ → AllocUnit) :
    FullSize (m.overwriteIn i bytes).blockList := by
  intro c hc
  obtain ⟨j, hj⟩ := List.mem_iff_getElem?.mp hc
  rw [MemPoolManager.overwriteIn, List.getElem?_modify] at hj
  obtain ⟨b, hb, rfl⟩ := Option.map_eq_some_iff.mp hj
  have hsize := h b (List.mem_of_getElem? hb)
  split
  · exact hsize
  · exact hsize

theorem FullSize.allocIn (h : FullSize m.blockList)
    (hrun : m.allocIn t i size = some (buf, m')) : FullSize m'.blockList := by
  obtain ⟨b, hb, hrun⟩ := Option.bind_eq_some_iff.mp hrun
  split at hrun
  · cases hrun
  · next hcall =>
    obtain rfl := (Prod.mk.inj (Option.some.inj hrun)).2
    exact h.set hb (allocBuffer_totalSize hcall)

theorem FullSize.alloc (h : FullSize m.blockList)
    (hrun : m.alloc t size junk = some (buf, m')) : FullSize m'.blockList := by
  unfold MemPoolManager.alloc at hrun
  split_ifs at hrun
  · obtain rfl := (Prod.mk.inj (Option.some.inj hrun)).2
    exact h
  obtain ⟨⟨buf₁, m₁⟩, hfirst, hrun⟩ := Option.bind_eq_some_iff.mp hrun
  have h₁ : FullSize m₁.blockList := by
    unfold MemPoolManager.allocFirst at hfirst
    split at hfirst
    · obtain rfl := (Prod.mk.inj (Option.some.inj hfirst)).2
      exact h
    · exact h.allocIn hfirst
  cases buf₁ with
  | some q =>
    obtain rfl := (Prod.mk.inj (Option.some.inj hrun)).2
    rwa [enter_blockList]
  | none =>
    obtain ⟨⟨buf₂, m₂⟩, hnext, hrun⟩ := Option.bind_eq_some_iff.mp hrun
    have h₂ : FullSize m₂.blockList := (h₁.init junk).allocIn hnext
    cases buf₂ with
    | some q =>
      obtain rfl := (Prod.mk.inj (Option.some.inj hrun)).2
      rwa [enter_blockList]
    | none =>
      obtain rfl := (Prod.mk.inj (Option.some.inj hrun)).2
      exact h₂

theorem FullSize.freeIn (h : FullSize m.blockList) (hrun : m.freeIn t i p = some m') :
    FullSize m'.blockList := by
  obtain ⟨b, hb, hrun⟩ := Option.bind_eq_some_iff.mp hrun
  split at hrun
  · obtain rfl := Option.some.inj hrun
    exact h
  · split at hrun
    · cases hrun
    · next hcall =>
      obtain rfl := Option.some.inj hrun
      exact h.set hb (freeBuffer_totalSize hcall)

theorem FullSize.reallocIn (h : FullSize m.blockList)
    (hrun : m.reallocIn t i p newSize = some (buf, m')) : FullSize m'.blockList := by
  obtain ⟨b, hb, hrun⟩ := Option.bind_eq_some_iff.mp hrun
  obtain ⟨a, -, hrun⟩ := Option.bind_eq_some_iff.mp hrun
  split at hrun
  · cases hrun
  · next hcall =>
    obtain rfl := (Prod.mk.inj (Option.some.inj hrun)).2
    exact h.set hb (reallocBuffer_totalSize hcall)

end FullSize

/-! ## The runs -/

/-- What `memmove` writes, if there is a new buffer. -/
def MemPoolManager.copyTo (m : MemPoolManager) (buf : Option Ptr) (copied : ℤ → AllocUnit) :
    MemPoolManager :=
  match buf with
  | some q => m.overwriteIn q.block copied
  | none => m

/-- The pointer is a buffer that is out, or has no key in the map. -/
def Usage.Known (u : Usage) (p : Ptr) : Prop := p ∉ u.live → p ∉ u.manager.bufBlockMap

/-- No call is given a buffer that was moved away, and no merge follows a link that is out of
date. -/
def Usage.Orderly (t : Target) (u : Usage) : PoolCall → Prop
  | .free (some p) => u.Known p ∧ u.Retraces t p
  | .realloc (some p) newSize junk copied =>
    u.Known p ∧
      if newSize = 0 then u.Retraces t p
      else u.Fits t p newSize ∨ ∀ buf m, u.manager.alloc t newSize junk = some (buf, m) →
        Usage.Retraces t { u with manager := m.copyTo buf copied } p
  | _ => True

/-- The blocks serve the buffers that are out, and the map has these; it may also have the keys of
buffers that were moved away. -/
structure Stocked (t : Target) (m : MemPoolManager) (live : List Ptr) : Prop where
  serves : Serves t m.blockList live
  entered : ∀ p ∈ live, m.bufBlockMap.lookup p = some p.block
  home : ∀ p i, m.bufBlockMap.lookup p = some i → i = p.block
  fullSize : FullSize m.blockList

section Stocked
variable {t : Target} {m m' : MemPoolManager} {live : List Ptr} {p q : Ptr} {buf : Option Ptr}
  {size newSize : ℕ} {junk copied : ℤ → AllocUnit}

theorem lookup_enter {i : ℕ} (h : ∀ j, m.bufBlockMap.lookup p = some j → j = i) (q : Ptr) :
    (m.enter p i).bufBlockMap.lookup q =
      if q = p then some i else m.bufBlockMap.lookup q := by
  unfold MemPoolManager.enter
  by_cases hmem : p ∈ m.bufBlockMap
  · rw [if_pos hmem]
    split
    · next hq =>
      obtain ⟨j, hj⟩ := Option.isSome_iff_exists.mp (AList.lookup_isSome.mpr hmem)
      rw [hq, hj, h j hj]
    · rfl
  · rw [if_neg hmem]
    split
    · next hq => rw [hq, AList.lookup_insert]
    · next hq => rw [AList.lookup_insert_ne hq]

theorem Stocked.init (h : Stocked t m live) (junk : ℤ → AllocUnit) :
    Stocked t (m.init junk) live :=
  ⟨h.serves.fresh junk, h.entered, h.home, h.fullSize.init junk⟩

theorem Stocked.alloc (h : Stocked t m live) (size : ℕ) (junk : ℤ → AllocUnit) :
    ∃ buf m', m.alloc t size junk = some (buf, m') ∧ Stocked t m' (handOver live none buf) ∧
      ∀ p ∈ buf, p ∉ live := by
  obtain ⟨buf, m₁, hrun, hmap, hserves, hnew⟩ := h.serves.alloc size junk
  have hfull := h.fullSize.alloc hrun
  refine ⟨buf, _, hrun, ?_, hnew⟩
  cases buf with
  | none =>
    rw [Option.elim_none] at hfull ⊢
    exact ⟨hserves, by rw [hmap]; exact h.entered, by rw [hmap]; exact h.home, hfull⟩
  | some p =>
    rw [Option.elim_some] at hfull ⊢
    have hlookup := lookup_enter (m := m₁) (p := p) (i := p.block) fun j hj => by
      rw [hmap] at hj
      exact h.home p j hj
    refine ⟨by rwa [enter_blockList], fun q hq => ?_, fun q i hq => ?_, hfull⟩
    · rw [hlookup, hmap]
      split
      · next heq => rw [heq]
      · next hne => exact h.entered q ((List.mem_cons.mp hq).resolve_left hne)
    · rw [hlookup, hmap] at hq
      split at hq
      · next heq => rw [heq, Option.some.inj hq]
      · exact h.home q i hq

theorem Stocked.fewer {m₁ : MemPoolManager} {live' : List Ptr} (h : Stocked t m live)
    (hserves : Serves t m₁.blockList live') (hsub : ∀ q ∈ live', q ∈ live)
    (hmap : m₁.bufBlockMap = m.bufBlockMap) (hfull : FullSize m₁.blockList) :
    Stocked t m₁ live' where
  serves := hserves
  entered q hq := by
    rw [hmap]
    exact h.entered q (hsub q hq)
  home q i hq := by
    rw [hmap] at hq
    exact h.home q i hq
  fullSize := hfull

theorem Stocked.freeIn (h : Stocked t m live) (hp : p ∈ live)
    (hback : Usage.Retraces t { manager := m, live := live } p)
    (hrun : m.freeIn t p.block p = some m') : Stocked t m' (live.erase p) := by
  obtain ⟨m₁, hrun₁, hserves, hmap⟩ := h.serves.freeIn hp hback
  obtain rfl : m₁ = m' := Option.some.inj (hrun₁.symm.trans hrun)
  exact h.fewer hserves (fun q hq => List.mem_of_mem_erase hq) hmap (h.fullSize.freeIn hrun)

theorem Stocked.free {b : Bool} (h : Stocked t m live)
    (hknown : Usage.Known { manager := m, live := live } p)
    (hback : Usage.Retraces t { manager := m, live := live } p)
    (hrun : m.free t (some p) = some (b, m')) : Stocked t m' (live.erase p) := by
  by_cases hp : p ∈ live
  · simp only [MemPoolManager.free, h.entered p hp] at hrun
    obtain ⟨m₁, hfree, hrun⟩ := Option.bind_eq_some_iff.mp hrun
    obtain rfl := (Prod.mk.inj (Option.some.inj hrun)).2
    have hstocked := h.freeIn hp hback hfree
    refine ⟨hstocked.serves, fun q hq => ?_, fun q i hq => ?_, hstocked.fullSize⟩
    · have hne : q ≠ p := fun heq => (h.serves.nodup.mem_erase_iff.mp hq).1 heq
      rw [AList.lookup_erase_ne hne]
      exact hstocked.entered q hq
    · by_cases hne : q = p
      · rw [hne, AList.lookup_erase] at hq
        cases hq
      · rw [AList.lookup_erase_ne hne] at hq
        exact hstocked.home q i hq
  · have hnone : m.bufBlockMap.lookup p = none := AList.lookup_eq_none.mpr (hknown hp)
    simp only [MemPoolManager.free, hnone] at hrun
    obtain rfl := (Prod.mk.inj (Option.some.inj hrun)).2
    rwa [List.erase_of_not_mem hp]

theorem Stocked.copyTo (h : Stocked t m live) (buf : Option Ptr) (copied : ℤ → AllocUnit) :
    Stocked t (m.copyTo buf copied) live := by
  cases buf with
  | none => exact h
  | some q =>
    exact h.fewer (h.serves.overwrite q.block copied) (fun _ hr => hr) rfl
      (h.fullSize.overwriteIn q.block copied)

theorem Stocked.realloc (h : Stocked t m live) (hsize : newSize ≠ 0)
    (hknown : Usage.Known { manager := m, live := live } p)
    (hback : Usage.Fits t { manager := m, live := live } p newSize ∨
      ∀ buf m₁, m.alloc t newSize junk = some (buf, m₁) →
        Usage.Retraces t { manager := m₁.copyTo buf copied, live := live } p)
    (hrun : m.realloc t (some p) newSize junk copied = some (buf, m')) :
    Stocked t m' (handOver live (some p) buf) := by
  by_cases hp : p ∈ live
  swap
  · have hnone : m.bufBlockMap.lookup p = none := AList.lookup_eq_none.mpr (hknown hp)
    simp only [MemPoolManager.realloc, if_neg hsize, hnone] at hrun
    cases hrun
  simp only [MemPoolManager.realloc, if_neg hsize, h.entered p hp, Option.bind_eq_bind] at hrun
  by_cases hfits : Usage.Fits t { manager := m, live := live } p newSize
  · obtain ⟨m₁, hcall, hserves, hmap⟩ := h.serves.reallocIn_fits hp hsize hfits
    rw [hcall, Option.bind_some] at hrun
    obtain ⟨rfl, rfl⟩ := Prod.mk.inj (Option.some.inj hrun)
    exact h.fewer hserves (fun q => (mem_handOver_self h.serves.nodup hp).mp) hmap
      (h.fullSize.reallocIn hcall)
  · rcases h.serves.reallocIn_moves hp hfits with herr | hnone
    · rw [herr, Option.bind_none] at hrun
      cases hrun
    rw [hnone, Option.bind_some] at hrun
    obtain ⟨q, m₁, halloc, hstocked, hnew⟩ := h.alloc newSize junk
    rw [halloc, Option.bind_some] at hrun
    obtain ⟨m₂, hfree, hrun⟩ := Option.bind_eq_some_iff.mp hrun
    obtain ⟨rfl, rfl⟩ := Prod.mk.inj (Option.some.inj hrun)
    have hmoved := hstocked.copyTo q copied
    have hretraces := (hback.resolve_left hfits) q m₁ halloc
    have hpq : p ∈ handOver live none q := List.mem_append_right _ hp
    have hdone := hmoved.freeIn hpq (fun _ => hretraces hp) hfree
    cases q with
    | none => exact hdone
    | some q =>
      have hqp : q ≠ p := fun heq => hnew q rfl (heq ▸ hp)
      have herase : (handOver live none (some q)).erase p = q :: live.erase p := by
        simp [handOver, hqp]
      rw [herase] at hdone
      exact hdone

theorem step_stocked {u u' : Usage} {c : PoolCall} (h : Stocked t u.manager u.live)
    (hok : u.Orderly t c) (hstep : u.step t c = some u') : Stocked t u'.manager u'.live := by
  cases c with
  | init junk =>
    obtain rfl := Option.some.inj hstep
    exact h.init junk
  | write i bytes =>
    obtain rfl := Option.some.inj hstep
    exact h.copyTo (some ⟨i, 0⟩) bytes
  | alloc size junk =>
    obtain ⟨⟨buf, m'⟩, hrun, hstep⟩ := Option.bind_eq_some_iff.mp hstep
    obtain rfl := Option.some.inj hstep
    obtain ⟨buf', m₁, hrun', hstocked, -⟩ := h.alloc size junk
    obtain ⟨rfl, rfl⟩ := Prod.mk.inj (Option.some.inj (hrun'.symm.trans hrun))
    exact hstocked
  | free buf =>
    obtain ⟨⟨b, m'⟩, hrun, hstep⟩ := Option.bind_eq_some_iff.mp hstep
    obtain rfl := Option.some.inj hstep
    cases buf with
    | none =>
      obtain rfl := (Prod.mk.inj (Option.some.inj hrun)).2
      exact h
    | some p => exact h.free hok.1 hok.2 hrun
  | realloc buf newSize junk copied =>
    obtain ⟨⟨new, m'⟩, hrun, hstep⟩ := Option.bind_eq_some_iff.mp hstep
    obtain rfl := Option.some.inj hstep
    cases buf with
    | none =>
      obtain ⟨buf', m₁, hrun', hstocked, -⟩ := h.alloc newSize junk
      obtain ⟨rfl, rfl⟩ := Prod.mk.inj (Option.some.inj (hrun'.symm.trans hrun))
      exact hstocked
    | some p =>
      obtain ⟨hknown, hok⟩ := hok
      by_cases hsize : newSize = 0
      · rw [if_pos hsize] at hok
        simp only [MemPoolManager.realloc, if_pos hsize] at hrun
        obtain ⟨⟨b, m₁⟩, hfree, hrun⟩ := Option.map_eq_some_iff.mp hrun
        obtain ⟨rfl, rfl⟩ := Prod.mk.inj hrun
        exact h.free hknown hok hfree
      · rw [if_neg hsize] at hok
        exact h.realloc hsize hknown hok hrun

theorem reach_stocked {u : Usage} (h : Reach (Usage.step t) (Usage.Orderly t) Usage.start u) :
    Stocked t u.manager u.live := by
  refine h.invariant ?_ fun _ _ _ hv hok hstep => step_stocked hv hok hstep
  have hstart := start_sound t
  exact ⟨hstart.serves, by nofun, fun p i hp => ((hstart.keys p i).mp hp).2, by nofun⟩

end Stocked

end DevFramework.MemPool
