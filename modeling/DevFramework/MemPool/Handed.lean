import DevFramework.MemPool.Manager
import DevFramework.MemPool.Operations

/-! # The map of buffers

`MapAgrees` is what `buf_block_map_` is for: its keys are the buffers that are out, each with the
block it lies in. `alloc` and `free` keep it. `realloc` keeps it as long as the buffer stays where
it is; a buffer that moves is freed in its block and never erased from the map.
-/
namespace DevFramework.MemPool
open Transition OrderedMap
set_option autoImplicit false
set_option maxHeartbeats 250000

/-- The keys of the map are the buffers that are out, each mapped to the block it lies in. -/
structure MapAgrees (t : Target) (u : Usage) : Prop where
  nodup : u.live.Nodup
  keys : ∀ p, p ∈ u.manager.bufBlockMap ↔ p ∈ u.live
  home : ∀ p i, u.manager.bufBlockMap.lookup p = some i →
    ∃ b a, u.manager.blockList[i]? = some b ∧ p.within i = some a ∧ b.Contains t a

/-- The buffer, if it is out, can be freed without following a link that is out of date. -/
def Usage.Retraces (t : Target) (u : Usage) (p : Ptr) : Prop :=
  p ∈ u.live → ∀ b, u.manager.blockList[p.block]? = some b → b.Retraces t p.offset

/-- The buffer can be resized where it is. -/
def Usage.Fits (t : Target) (u : Usage) (p : Ptr) (newSize : ℕ) : Prop :=
  ∀ b, u.manager.blockList[p.block]? = some b → b.Fits t p.offset newSize

/-- No buffer has to move, and no merge follows a link that is out of date. -/
def Usage.StaysPut (t : Target) (u : Usage) : PoolCall → Prop
  | .realloc (some p) newSize _ _ => if newSize = 0 then u.Retraces t p else u.Fits t p newSize
  | .free (some p) => u.Retraces t p
  | _ => True

theorem mem_handOver_self {live : List Ptr} {p q : Ptr} (hnodup : live.Nodup) (hp : p ∈ live) :
    q ∈ handOver live (some p) (some p) ↔ q ∈ live := by
  simp only [handOver, Option.toList_some, List.singleton_append, List.mem_cons,
    hnodup.mem_erase_iff]
  by_cases hq : q = p <;> simp [hq, hp]

/-! ## The blocks -/

/-- Every block is tiled, and its units in use are the buffers that are out. -/
structure Serves (t : Target) (bs : List Block) (live : List Ptr) : Prop where
  nodup : live.Nodup
  inList : ∀ p ∈ live, p.block < bs.length
  tiled : ∀ i b, bs[i]? = some b →
    ∃ us, Tiled t b us ∧ ∀ a, Ptr.mk i (a + sizeofAllocUnit t) ∈ live ↔ a ∈ busy us

section Serves
variable {t : Target} {bs : List Block} {live live' : List Ptr} {i : ℕ} {b b' : Block}
  {us : List AllocUnit} {p : Ptr}

/-- One block changes, and with it the buffers in that block. -/
theorem Serves.set (h : Serves t bs live) (hi : bs[i]? = some b) (htiled : Tiled t b' us)
    (hbusy : ∀ a, Ptr.mk i (a + sizeofAllocUnit t) ∈ live' ↔ a ∈ busy us)
    (hother : ∀ q : Ptr, q.block ≠ i → (q ∈ live' ↔ q ∈ live)) (hnodup : live'.Nodup) :
    Serves t (bs.set i b') live' where
  nodup := hnodup
  inList q hq := by
    rw [List.length_set]
    by_cases hqi : q.block = i
    · rw [hqi]
      exact (List.getElem?_eq_some_iff.mp hi).1
    · exact h.inList q ((hother q hqi).mp hq)
  tiled j c hj := by
    by_cases hij : i = j
    · subst hij
      rw [List.getElem?_set_self (List.getElem?_eq_some_iff.mp hi).1] at hj
      obtain rfl := Option.some.inj hj
      exact ⟨us, htiled, hbusy⟩
    · rw [List.getElem?_set_ne hij] at hj
      obtain ⟨vs, hvs, hout⟩ := h.tiled j c hj
      exact ⟨vs, hvs, fun a => (hother _ (Ne.symm hij)).trans (hout a)⟩

theorem Serves.fresh (h : Serves t bs live) (junk : ℤ → AllocUnit) :
    Serves t (bs ++ [Block.fresh junk]) live where
  nodup := h.nodup
  inList q hq := by
    have := h.inList q hq
    rw [List.length_append]
    omega
  tiled j c hj := by
    by_cases hlt : j < bs.length
    · rw [List.getElem?_append_left hlt] at hj
      exact h.tiled j c hj
    · have hjlen : j = bs.length := by
        have := (List.getElem?_eq_some_iff.mp hj).1
        simp only [List.length_append, List.length_singleton] at this
        omega
      subst hjlen
      obtain rfl : Block.fresh junk = c := by simpa using hj
      refine ⟨_, (fresh_wellFormed t junk).tiled, fun a => ⟨fun ha => ?_, fun ha => ?_⟩⟩
      · exact absurd (h.inList _ ha) (lt_irrefl _)
      · rw [busy_cons_free _ rfl] at ha
        cases ha

/-- The unit of a buffer that is out. -/
theorem Serves.unit (h : Serves t bs live) (hp : p ∈ live) :
    ∃ b l u r, bs[p.block]? = some b ∧ Tiled t b (l ++ u :: r) ∧ u.bfree = false ∧
      p.offset = u.offset + sizeofAllocUnit t ∧
      ∀ a, Ptr.mk p.block (a + sizeofAllocUnit t) ∈ live ↔ a ∈ busy (l ++ u :: r) := by
  have hlt := h.inList p hp
  obtain ⟨us, htiled, hout⟩ := h.tiled p.block _ (List.getElem?_eq_getElem hlt)
  have hmem : Ptr.mk p.block (p.offset - sizeofAllocUnit t + sizeofAllocUnit t) ∈ live := by
    rwa [sub_add_cancel]
  obtain ⟨u, hu, hused, hoff⟩ := mem_busy.mp ((hout _).mp hmem)
  obtain ⟨l, r, rfl⟩ := List.append_of_mem hu
  exact ⟨_, l, u, r, List.getElem?_eq_getElem hlt, htiled, hused, by omega, hout⟩

theorem Serves.contains (h : Serves t bs live) (hp : p ∈ live) :
    ∃ b, bs[p.block]? = some b ∧ b.Contains t p.offset := by
  obtain ⟨b, l, u, r, hb, htiled, -, hoff, -⟩ := h.unit hp
  refine ⟨b, hb, ?_⟩
  have hroom := htiled.room u (by simp)
  have hspan := htiled.span_le
  have h0 := htiled.offset_nonneg
  simp only [Block.Contains, hoff, cur_of_buf, htiled.mem_eq, htiled.atHead]
  omega

theorem Serves.overwrite (h : Serves t bs live) (i : ℕ) (bytes : ℤ → AllocUnit) :
    Serves t (bs.modify i fun b => b.overwrite bytes) live where
  nodup := h.nodup
  inList q hq := by
    rw [List.length_modify]
    exact h.inList q hq
  tiled j c hj := by
    rw [List.getElem?_modify] at hj
    obtain ⟨b, hb, hc⟩ := Option.map_eq_some_iff.mp hj
    obtain ⟨us, htiled, hout⟩ := h.tiled j b hb
    refine ⟨us, ?_, hout⟩
    subst hc
    split
    · exact htiled.overwrite bytes
    · exact htiled

end Serves

/-! ## The calls -/

/-- The blocks serve the buffers that are out, and the map has these and their blocks. -/
structure Kept (t : Target) (m : MemPoolManager) (live : List Ptr) : Prop where
  serves : Serves t m.blockList live
  keys : ∀ p i, m.bufBlockMap.lookup p = some i ↔ p ∈ live ∧ i = p.block

section Calls
variable {t : Target} {m m' : MemPoolManager} {live : List Ptr} {i : ℕ} {b : Block} {p : Ptr}
  {size newSize : ℕ}

theorem Kept.mem_map (h : Kept t m live) : p ∈ m.bufBlockMap ↔ p ∈ live := by
  rw [← AList.lookup_isSome, Option.isSome_iff_exists]
  simp [h.keys]

theorem Kept.agrees (h : Kept t m live) : MapAgrees t { manager := m, live := live } where
  nodup := h.serves.nodup
  keys p := h.mem_map
  home p i hi := by
    obtain ⟨hp, rfl⟩ := (h.keys p i).mp hi
    obtain ⟨b, hb, hin⟩ := h.serves.contains hp
    exact ⟨b, p.offset, hb, p.within_self, hin⟩

theorem Kept.init (h : Kept t m live) (junk : ℤ → AllocUnit) : Kept t (m.init junk) live where
  serves := h.serves.fresh junk
  keys := h.keys

theorem Kept.overwriteIn (h : Kept t m live) (i : ℕ) (bytes : ℤ → AllocUnit) :
    Kept t (m.overwriteIn i bytes) live where
  serves := h.serves.overwrite i bytes
  keys := h.keys

theorem set_eq_self {bs : List Block} (hi : bs[i]? = some b) : bs.set i b = bs := by
  obtain ⟨hlt, rfl⟩ := List.getElem?_eq_some_iff.mp hi
  exact List.set_getElem_self hlt

/-- A block that is asked hands out nothing, or a buffer that was not out. -/
theorem Serves.allocIn (h : Serves t m.blockList live) (hi : m.blockList[i]? = some b)
    (hsize : size ≠ 0) :
    m.allocIn t i size = some (none, m) ∨
    ∃ p m', m.allocIn t i size = some (some p, m') ∧ p ∉ live ∧
      Serves t m'.blockList (p :: live) ∧ m'.bufBlockMap = m.bufBlockMap := by
  obtain ⟨us, htiled, hout⟩ := h.tiled i b hi
  have hpos : (0 : ℤ) < size := by omega
  rcases htiled.alloc_spec hpos with hnone | ⟨a, b', us', hrun, htiled', hnew, hbusy⟩
  · refine .inl ?_
    simp only [MemPoolManager.allocIn, hi, hnone, Option.bind_eq_bind, Option.bind_some,
      Option.map_none, set_eq_self hi]
  · have hp : Ptr.mk i (a + sizeofAllocUnit t) ∉ live := fun hp => hnew ((hout a).mp hp)
    refine .inr ⟨⟨i, a + sizeofAllocUnit t⟩, { m with blockList := m.blockList.set i b' }, ?_, hp,
      ?_, rfl⟩
    · simp only [MemPoolManager.allocIn, hi, hrun, Option.bind_eq_bind, Option.bind_some,
        Option.map_some]
    · apply h.set hi htiled'
      · intro c
        rw [hbusy, List.mem_cons, hout]
        simp
      · intro q hq
        rw [List.mem_cons]
        exact or_iff_right fun heq => hq (by rw [heq])
      · exact List.nodup_cons.mpr ⟨hp, h.nodup⟩

theorem enter_blockList (m : MemPoolManager) (p : Ptr) (i : ℕ) :
    (m.enter p i).blockList = m.blockList := by
  unfold MemPoolManager.enter
  split <;> rfl

/-- `alloc` is defined, and hands out a buffer that was not out or nothing; `m₁` is the manager
before the buffer is entered in the map. -/
theorem Serves.alloc (h : Serves t m.blockList live) (size : ℕ) (junk : ℤ → AllocUnit) :
    ∃ r m₁, m.alloc t size junk = some (r, r.elim m₁ fun p => m₁.enter p p.block) ∧
      m₁.bufBlockMap = m.bufBlockMap ∧ Serves t m₁.blockList (handOver live none r) ∧
      ∀ p ∈ r, p ∉ live := by
  by_cases hsize : size = 0
  · refine ⟨none, m, ?_, rfl, h, by simp⟩
    simp only [MemPoolManager.alloc, if_pos hsize, Option.elim_none]
  -- the first block with a free unit, if there is one
  have hfirst : m.allocFirst t size = some (none, m) ∨
      ∃ p m', m.allocFirst t size = some (some p, m') ∧ p ∉ live ∧
        Serves t m'.blockList (p :: live) ∧ m'.bufBlockMap = m.bufBlockMap := by
    unfold MemPoolManager.allocFirst
    cases hfind : m.blockList.findIdx? fun b => b.freeCount ≠ 0 with
    | none => exact .inl rfl
    | some i =>
      have hlt := (List.findIdx?_eq_some_iff_getElem.mp hfind).1
      exact h.allocIn (List.getElem?_eq_getElem hlt) hsize
  rcases hfirst with hnone | ⟨p, m', hrun, hp, hserves, hmap⟩
  · have hlast : (m.init junk).blockList[m.blockList.length]? = some (Block.fresh junk) := by
      simp [MemPoolManager.init]
    have hinit : Serves t (m.init junk).blockList live := h.fresh junk
    rcases hinit.allocIn hlast hsize with hnone' | ⟨p, m', hrun, hp, hserves, hmap⟩
    · refine ⟨none, m.init junk, ?_, rfl, hinit, by simp⟩
      simp [MemPoolManager.alloc, hsize, hnone, hnone']
    · refine ⟨some p, m', ?_, hmap, hserves, by simpa using hp⟩
      simp [MemPoolManager.alloc, hsize, hnone, hrun]
  · refine ⟨some p, m', ?_, hmap, hserves, by simpa using hp⟩
    simp [MemPoolManager.alloc, hsize, hrun]

theorem Kept.enter (h : Kept t m live) (hp : p ∉ live) (hmap : m'.bufBlockMap = m.bufBlockMap)
    (hserves : Serves t m'.blockList (p :: live)) : Kept t (m'.enter p p.block) (p :: live) := by
  have hnew : p ∉ m'.bufBlockMap := by
    rw [hmap, h.mem_map]
    exact hp
  rw [MemPoolManager.enter, if_neg hnew]
  refine ⟨hserves, fun q j => ?_⟩
  rw [hmap, List.mem_cons]
  by_cases hq : q = p
  · subst hq
    rw [AList.lookup_insert, Option.some.injEq]
    tauto
  · rw [AList.lookup_insert_ne hq, h.keys]
    tauto

/-- `alloc` is defined, and hands out a buffer that was not out or nothing. -/
theorem Kept.alloc (h : Kept t m live) (size : ℕ) (junk : ℤ → AllocUnit) :
    ∃ r m', m.alloc t size junk = some (r, m') ∧ Kept t m' (handOver live none r) ∧
      ∀ p ∈ r, p ∉ live := by
  obtain ⟨r, m₁, hrun, hmap, hserves, hnew⟩ := h.serves.alloc size junk
  refine ⟨r, _, hrun, ?_, hnew⟩
  cases r with
  | none => exact ⟨hserves, fun p i => by rw [Option.elim_none, hmap]; exact h.keys p i⟩
  | some p => exact h.enter (hnew p rfl) hmap hserves

/-- A pointer that is not out is rejected, and nothing is touched. -/
theorem Kept.free_stale (h : Kept t m live) (hp : p ∉ live) :
    m.free t (some p) = some (false, m) := by
  have hnone : m.bufBlockMap.lookup p = none := by
    rw [AList.lookup_eq_none, h.mem_map]
    exact hp
  simp only [MemPoolManager.free, hnone]

theorem Serves.freeIn (h : Serves t m.blockList live) (hp : p ∈ live)
    (hback : Usage.Retraces t { manager := m, live := live } p) :
    ∃ m', m.freeIn t p.block p = some m' ∧ Serves t m'.blockList (live.erase p) ∧
      m'.bufBlockMap = m.bufBlockMap := by
  obtain ⟨b, l, u, r, hb, htiled, hused, hoff, hout⟩ := h.unit hp
  have htrail : b.Retraces t (u.offset + sizeofAllocUnit t) := hoff ▸ hback hp b hb
  obtain ⟨b', us', hrun, htiled', hbusy⟩ := htiled.free_spec htrail
  refine ⟨{ m with blockList := m.blockList.set p.block b' }, ?_, ?_, rfl⟩
  · simp only [MemPoolManager.freeIn, hb, Ptr.within_self, hoff, hrun, Option.bind_eq_bind,
      Option.bind_some]
  · apply h.set hb htiled'
    · intro a
      have hnot := htiled.offset_notMem_busy
      have hpa : Ptr.mk p.block (a + sizeofAllocUnit t) = p ↔ a = u.offset := by
        constructor
        · intro heq
          have := congrArg Ptr.offset heq
          simp only at this
          omega
        · rintro rfl
          rw [← hoff]
      rw [h.nodup.mem_erase_iff, hout, hbusy, ne_eq, hpa, busy_append, busy_append,
        busy_cons_used _ hused, List.mem_append, List.mem_append, List.mem_cons]
      rw [busy_append, List.mem_append] at hnot
      constructor
      · tauto
      · intro ha
        exact ⟨fun heq => hnot (heq ▸ ha), by tauto⟩
    · intro q hq
      exact List.mem_erase_of_ne fun heq => hq (by rw [heq])
    · exact h.nodup.erase p

/-- `free` of a buffer that is out takes it out of its block and of the map. -/
theorem Kept.free (h : Kept t m live) (hp : p ∈ live)
    (hback : Usage.Retraces t { manager := m, live := live } p) :
    ∃ m', m.free t (some p) = some (true, m') ∧ Kept t m' (live.erase p) := by
  obtain ⟨m', hrun, hserves, hmap⟩ := h.serves.freeIn hp hback
  have hlookup : m.bufBlockMap.lookup p = some p.block := (h.keys p _).mpr ⟨hp, rfl⟩
  refine ⟨{ m' with bufBlockMap := m'.bufBlockMap.erase p }, ?_, hserves, fun q j => ?_⟩
  · simp only [MemPoolManager.free, hlookup, hrun, Option.bind_eq_bind, Option.bind_some]
  · rw [hmap, h.serves.nodup.mem_erase_iff]
    by_cases hq : q = p
    · subst hq
      simp [AList.lookup_erase]
    · rw [AList.lookup_erase_ne hq, h.keys]
      tauto

/-- A buffer that fits where it is stays there. -/
theorem Serves.reallocIn_fits (h : Serves t m.blockList live) (hp : p ∈ live) (hsize : newSize ≠ 0)
    (hfits : Usage.Fits t { manager := m, live := live } p newSize) :
    ∃ m', m.reallocIn t p.block p newSize = some (some p, m') ∧
      Serves t m'.blockList (handOver live (some p) (some p)) ∧
      m'.bufBlockMap = m.bufBlockMap := by
  obtain ⟨b, l, u, r, hb, htiled, hused, hoff, hout⟩ := h.unit hp
  have hpos : (0 : ℤ) < newSize := by omega
  obtain ⟨b', us', hrun, htiled', hbusy⟩ := htiled.realloc_fits hused hpos (hoff ▸ hfits b hb)
  refine ⟨{ m with blockList := m.blockList.set p.block b' }, ?_, ?_, rfl⟩
  · simp only [MemPoolManager.reallocIn, hb, Ptr.within_self, hoff, hrun, Option.bind_eq_bind,
      Option.bind_some, Option.map_some]
    rw [← hoff]
  · apply h.set hb htiled'
    · intro a
      rw [mem_handOver_self h.nodup hp, hbusy, hout]
    · exact fun q _ => mem_handOver_self h.nodup hp
    · exact List.nodup_cons.mpr ⟨h.nodup.not_mem_erase, h.nodup.erase p⟩

/-- A buffer that fits where it is stays there, and the map with it. -/
theorem Kept.realloc_fits (h : Kept t m live) (hp : p ∈ live) (hsize : newSize ≠ 0)
    (hfits : Usage.Fits t { manager := m, live := live } p newSize) (junk copied : ℤ → AllocUnit) :
    ∃ m', m.realloc t (some p) newSize junk copied = some (some p, m') ∧
      Kept t m' (handOver live (some p) (some p)) := by
  obtain ⟨m', hrun, hserves, hmap⟩ := h.serves.reallocIn_fits hp hsize hfits
  have hlookup : m.bufBlockMap.lookup p = some p.block := (h.keys p _).mpr ⟨hp, rfl⟩
  refine ⟨m', ?_, hserves, fun q j => ?_⟩
  · simp only [MemPoolManager.realloc, if_neg hsize, hlookup, hrun, Option.bind_eq_bind,
      Option.bind_some]
  · rw [mem_handOver_self h.serves.nodup hp, hmap]
    exact h.keys q j

theorem freeIn_map (hrun : m.freeIn t i p = some m') : m'.bufBlockMap = m.bufBlockMap := by
  obtain ⟨b, -, hrun⟩ := Option.bind_eq_some_iff.mp hrun
  split at hrun
  · obtain rfl := Option.some.inj hrun
    rfl
  · split at hrun
    · cases hrun
    · obtain rfl := Option.some.inj hrun
      rfl

/-- A buffer that does not fit where it is is refused, if the call is defined. -/
theorem Serves.reallocIn_moves (h : Serves t m.blockList live) (hp : p ∈ live)
    (hfits : ¬ Usage.Fits t { manager := m, live := live } p newSize) :
    m.reallocIn t p.block p newSize = none ∨ m.reallocIn t p.block p newSize = some (none, m) := by
  obtain ⟨b, l, u, r, hb, htiled, hused, hoff, hout⟩ := h.unit hp
  have hbfits : ¬ b.Fits t (u.offset + sizeofAllocUnit t) newSize := fun hfit => by
    apply hfits
    intro c hc
    obtain rfl := Option.some.inj (hb.symm.trans hc)
    rwa [hoff]
  simp only [MemPoolManager.reallocIn, hb, Ptr.within_self, hoff, Option.bind_eq_bind,
    Option.bind_some]
  rcases htiled.realloc_moves hbfits with herr | hnone
  · simp [herr]
  · simp [hnone, set_eq_self hb]

/-- A buffer that does not fit moves, or is lost; in either case its key stays behind. -/
theorem Kept.realloc_moves (h : Kept t m live) (hp : p ∈ live) (hsize : newSize ≠ 0)
    (hfits : ¬ Usage.Fits t { manager := m, live := live } p newSize) {r : Option Ptr}
    {junk copied : ℤ → AllocUnit}
    (hrun : m.realloc t (some p) newSize junk copied = some (r, m')) :
    p ∈ m'.bufBlockMap ∧ p ∉ handOver live (some p) r := by
  have hlookup : m.bufBlockMap.lookup p = some p.block := (h.keys p _).mpr ⟨hp, rfl⟩
  simp only [MemPoolManager.realloc, if_neg hsize, hlookup, Option.bind_eq_bind] at hrun
  rcases h.serves.reallocIn_moves hp hfits with herr | hnone
  · simp [herr] at hrun
  simp only [hnone, Option.bind_some] at hrun
  obtain ⟨q, m₁, halloc, hkept, hnew⟩ := h.alloc newSize junk
  rw [halloc, Option.bind_some] at hrun
  obtain ⟨m₂, hfree, hrun⟩ := Option.bind_eq_some_iff.mp hrun
  obtain ⟨rfl, rfl⟩ := Prod.mk.inj (Option.some.inj hrun)
  constructor
  · have hkeep : p ∈ m₁.bufBlockMap := hkept.mem_map.mpr (by simp [handOver, hp])
    rw [freeIn_map hfree]
    cases q with
    | none => exact hkeep
    | some q => exact hkeep
  · have hgone := h.serves.nodup.not_mem_erase (a := p)
    cases q with
    | none => exact hgone
    | some q =>
      have hqp : p ≠ q := fun heq => hnew q rfl (heq ▸ hp)
      simp [handOver, hqp, hgone]

end Calls

/-! ## Runs -/

section Runs
variable {t : Target} {u u' : Usage} {c : PoolCall} {p : Ptr}

def Usage.Sound (t : Target) (u : Usage) : Prop := Kept t u.manager u.live

theorem start_sound (t : Target) : Usage.start.Sound t where
  serves := {
    nodup := List.nodup_nil
    inList := by nofun
    tiled := by nofun }
  keys p i := by simp [Usage.start]

/-- Within the condition a call keeps the usage sound; it is defined, unless it resizes a pointer
that is not out. -/
theorem step_sound (h : u.Sound t) (hput : u.StaysPut t c) :
    u.step t c = none ∨ ∃ u', u.step t c = some u' ∧ u'.Sound t := by
  have hfree : ∀ p, u.Retraces t p → ∃ b m', u.manager.free t (some p) = some (b, m') ∧
      Kept t m' (u.live.erase p) := by
    intro p hback
    by_cases hp : p ∈ u.live
    · obtain ⟨m', hrun, hkept⟩ := Kept.free h hp hback
      exact ⟨true, m', hrun, hkept⟩
    · exact ⟨false, u.manager, Kept.free_stale h hp, by rwa [List.erase_of_not_mem hp]⟩
  have halloc : ∀ size junk, ∃ r m', u.manager.alloc t size junk = some (r, m') ∧
      Kept t m' (handOver u.live none r) := by
    intro size junk
    obtain ⟨r, m', hrun, hkept, -⟩ := Kept.alloc h size junk
    exact ⟨r, m', hrun, hkept⟩
  cases c with
  | init junk => exact .inr ⟨_, rfl, h.init junk⟩
  | write i bytes => exact .inr ⟨_, rfl, h.overwriteIn i bytes⟩
  | alloc size junk =>
    obtain ⟨r, m', hrun, hkept⟩ := halloc size junk
    refine .inr ⟨{ manager := m', live := handOver u.live none r }, ?_, hkept⟩
    simp only [Usage.step, hrun, Option.bind_eq_bind, Option.bind_some]
  | free buf =>
    cases buf with
    | none => exact .inr ⟨u, rfl, h⟩
    | some p =>
      obtain ⟨b, m', hrun, hkept⟩ := hfree p hput
      refine .inr ⟨{ manager := m', live := u.live.erase p }, ?_, hkept⟩
      simp only [Usage.step, hrun, Option.bind_eq_bind, Option.bind_some]
      rfl
  | realloc buf newSize junk copied =>
    cases buf with
    | none =>
      obtain ⟨r, m', hrun, hkept⟩ := halloc newSize junk
      refine .inr ⟨{ manager := m', live := handOver u.live none r }, ?_, hkept⟩
      simp only [Usage.step, MemPoolManager.realloc, hrun, Option.bind_eq_bind, Option.bind_some]
    | some p =>
      by_cases hsize : newSize = 0
      · obtain ⟨b, m', hrun, hkept⟩ := hfree p (by simpa [Usage.StaysPut, hsize] using hput)
        refine .inr ⟨{ manager := m', live := u.live.erase p }, ?_, hkept⟩
        simp only [Usage.step, MemPoolManager.realloc, if_pos hsize, hrun, Option.map_some,
          Option.bind_eq_bind, Option.bind_some]
        rfl
      · have hfits : u.Fits t p newSize := by simpa [Usage.StaysPut, hsize] using hput
        by_cases hp : p ∈ u.live
        swap
        · have hnone : u.manager.bufBlockMap.lookup p = none := by
            rw [AList.lookup_eq_none, Kept.mem_map h]
            exact hp
          refine .inl ?_
          simp only [Usage.step, MemPoolManager.realloc, if_neg hsize, hnone, Option.bind_eq_bind,
            Option.bind_none]
        obtain ⟨m', hrun, hkept⟩ := Kept.realloc_fits h hp hsize hfits junk copied
        refine .inr ⟨{ manager := m', live := handOver u.live (some p) (some p) }, ?_, hkept⟩
        simp only [Usage.step, hrun, Option.bind_eq_bind, Option.bind_some]

theorem reach_sound (h : Reach (Usage.step t) (Usage.StaysPut t) Usage.start u) : u.Sound t := by
  refine h.invariant (start_sound t) fun v c w hv hput hstep => ?_
  rcases step_sound hv hput with hnone | ⟨w', hw', hsound⟩
  · rw [hnone] at hstep
    cases hstep
  · rw [hw'] at hstep
    exact Option.some.inj hstep ▸ hsound

/-- **The map of buffers.** In every state reached within the condition the map agrees with the
buffers that are out. There `free` returns true for these and no other pointer, and a pointer that
is not out is rejected with nothing touched; and a `realloc` of a buffer that is out keeps the map
exactly when it leaves the buffer where it is. -/
theorem map_agrees (t : Target) (u : Usage)
    (h : Reach (Usage.step t) (Usage.StaysPut t) Usage.start u) :
    MapAgrees t u ∧
    (∀ p b m', u.manager.free t (some p) = some (b, m') → (b = true ↔ p ∈ u.live)) ∧
    (∀ p, p ∉ u.live → u.manager.free t (some p) = some (false, u.manager)) ∧
    ∀ p newSize junk copied, p ∈ u.live → newSize ≠ 0 →
      ((∃ u', u.step t (.realloc (some p) newSize junk copied) = some u' ∧ MapAgrees t u') ↔
        u.Fits t p newSize) := by
  have hs := reach_sound h
  refine ⟨hs.agrees, fun p b m' hrun => ?_, fun p hp => hs.free_stale hp, ?_⟩
  · by_cases hp : p ∈ u.live
    · have hlookup : u.manager.bufBlockMap.lookup p = some p.block := (hs.keys p _).mpr ⟨hp, rfl⟩
      simp only [MemPoolManager.free, hlookup] at hrun
      obtain ⟨m₁, -, hrun⟩ := Option.bind_eq_some_iff.mp hrun
      obtain ⟨rfl, -⟩ := Prod.mk.inj (Option.some.inj hrun)
      simp [hp]
    · rw [hs.free_stale hp] at hrun
      obtain ⟨rfl, -⟩ := Prod.mk.inj (Option.some.inj hrun)
      simp [hp]
  · intro p newSize junk copied hp hsize
    constructor
    · rintro ⟨u', hrun, hagrees⟩
      by_contra hfits
      obtain ⟨⟨r, m'⟩, hcall, hrun⟩ := Option.bind_eq_some_iff.mp hrun
      obtain rfl := Option.some.inj hrun
      obtain ⟨hkey, hout⟩ := hs.realloc_moves hp hsize hfits hcall
      exact hout ((hagrees.keys p).mp hkey)
    · intro hfits
      obtain ⟨m', hrun, hkept⟩ := hs.realloc_fits hp hsize hfits junk copied
      refine ⟨_, ?_, hkept.agrees⟩
      simp only [Usage.step, hrun, Option.bind_eq_bind, Option.bind_some]

/-- The buffer below grows into the rest of the block. -/
theorem map_agrees_grown :
    ∃ u, run (Usage.step .x86) Usage.start
        [.alloc 100 fun _ => blank, .realloc (some ⟨0, 20⟩) 200 (fun _ => blank) fun _ => blank] =
          some u ∧ u.live = [⟨0, 20⟩] ∧ MapAgrees .x86 u := by
  have hrun : ∃ u, run (Usage.step .x86) Usage.start
      [.alloc 100 fun _ => blank, .realloc (some ⟨0, 20⟩) 200 (fun _ => blank) fun _ => blank] =
        some u ∧ u.live = [⟨0, 20⟩] := ⟨_, rfl, rfl⟩
  obtain ⟨u, hu, hlive⟩ := hrun
  refine ⟨u, hu, hlive, (map_agrees .x86 u (Reach.tail (Reach.tail .refl
    (a := .alloc 100 fun _ => blank) trivial rfl)
    (a := .realloc (some ⟨0, 20⟩) 200 (fun _ => blank) fun _ => blank) ?_ hu)).1⟩
  intro b hb
  obtain rfl := Option.some.inj hb
  exact .inr ⟨120, rfl, rfl, by decide⟩

/-- The third call moves the first buffer, since the second is behind it. Its address stays in the
map, and freeing it once more returns true. -/
theorem moved_key_stays :
    ∃ u, run (Usage.step .x86) Usage.start
        [.alloc 100 fun _ => blank, .alloc 100 fun _ => blank,
          .realloc (some ⟨0, 20⟩) 300 (fun _ => blank) fun _ => blank] = some u ∧
      u.live = [⟨0, 260⟩, ⟨0, 140⟩] ∧ ¬ MapAgrees .x86 u ∧
      ∃ m', u.manager.free .x86 (some ⟨0, 20⟩) = some (true, m') := by
  refine ⟨_, rfl, rfl, fun h => ?_, _, rfl⟩
  have hkey := (h.keys ⟨0, 20⟩).mp (AList.lookup_isSome.mp rfl)
  revert hkey
  decide

end Runs

end DevFramework.MemPool
