import DevFramework.MemPool.Tiling

/-! # What keeps a block tiled

The edits the operations of `block_t` are made of, each as one lemma about a tiled block: `join`
lets a unit take over those behind it, `cut` makes a used and a free unit of a stretch, `backLink`
lets the next unit point back. None of them needs the `prev` pointers to be right.
-/
namespace DevFramework.MemPool
set_option autoImplicit false
set_option maxHeartbeats 250000

/-! ## Relinked units -/

/-- The units `us` once the first of them points back to `p`. -/
def relink (p : ℤ) : List AllocUnit → List AllocUnit
  | [] => []
  | u :: us => { u with prev := some p } :: us

@[simp] theorem relink_length (p : ℤ) (us : List AllocUnit) :
    (relink p us).length = us.length := by
  cases us <;> rfl

@[simp] theorem span_relink (p : ℤ) (us : List AllocUnit) : span (relink p us) = span us := by
  cases us <;> simp [relink]

@[simp] theorem busy_relink (p : ℤ) (us : List AllocUnit) : busy (relink p us) = busy us := by
  cases us with
  | nil => rfl
  | cons u us => cases h : u.bfree <;> simp [relink, busy, h]

@[simp] theorem relink_countP (p : ℤ) (us : List AllocUnit) :
    (relink p us).countP (·.bfree) = us.countP (·.bfree) := by
  cases us <;> simp [relink, List.countP_cons]

@[simp] theorem relink_extent (p : ℤ) (us : List AllocUnit) :
    (relink p us).map AllocUnit.extent = us.map AllocUnit.extent := by
  cases us <;> rfl

theorem relink_room {p c : ℤ} {us : List AllocUnit} (h : ∀ v ∈ us, c < v.size) :
    ∀ v ∈ relink p us, c < v.size := by
  cases us with
  | nil => exact h
  | cons u us =>
    intro v hv
    rcases List.mem_cons.mp hv with rfl | hv
    · exact h u List.mem_cons_self
    · exact h v (List.mem_cons_of_mem u hv)

theorem relink_last {p : ℤ} {us : List AllocUnit} (h : ∀ v ∈ us.getLast?, v.next = none) :
    ∀ v ∈ (relink p us).getLast?, v.next = none := by
  rcases us with _ | ⟨u, _ | ⟨w, us⟩⟩
  · exact h
  · intro v hv
    obtain rfl : { u with prev := some p } = v := Option.mem_some_iff.mp hv
    exact h u rfl
  · exact h

section BackLink
variable {b : Block}

theorem backLink_head (b : Block) (p : ℤ) : (b.backLink p).head = b.head := by
  unfold Block.backLink
  split <;> rfl

theorem backLink_totalSize (b : Block) (p : ℤ) : (b.backLink p).totalSize = b.totalSize := by
  unfold Block.backLink
  split <;> rfl

theorem backLink_freeCount (b : Block) (p : ℤ) : (b.backLink p).freeCount = b.freeCount := by
  unfold Block.backLink
  split <;> rfl

theorem backLink_mem_ne {p a : ℤ} (h : (b.mem p).next ≠ some a) :
    (b.backLink p).mem a = b.mem a := by
  unfold Block.backLink
  split
  · rfl
  · next m hm =>
    have : a ≠ m := fun ham => h (ham ▸ hm)
    exact Block.modify_mem_ne _ _ _ _ this

theorem backLink_mem_next {p m : ℤ} (h : (b.mem p).next = some m) :
    (b.backLink p).mem m = { b.mem m with prev := some p } := by
  simp [Block.backLink, h]

end BackLink

section Tiled
variable {t : Target} {b : Block} {us l r gone : List AllocUnit} {u n : AllocUnit}

/-- The block after one turn of `absorb` at `u`, with the free unit `n` behind it, up to the back
link. -/
def grown (b : Block) (u n : AllocUnit) : Block :=
  ((b.modify u.offset fun w => { w with size := w.size + n.size }).addFree (-1)).modify u.offset
    fun w => { w with next := n.next }

theorem grown_mem_self (h : b.mem u.offset = u) :
    (grown b u n).mem u.offset = { u with size := u.size + n.size, next := n.next } := by
  simp [grown, h]

theorem grown_mem_ne {a : ℤ} (h : a ≠ u.offset) : (grown b u n).mem a = b.mem a := by
  rw [grown, Block.modify_mem_ne _ _ _ _ h, Block.addFree_mem, Block.modify_mem_ne _ _ _ _ h]

theorem grown_mem (h : b.mem u.offset = u) : (grown b u n).mem =
    Function.update b.mem u.offset { u with size := u.size + n.size, next := n.next } := by
  funext a
  by_cases ha : a = u.offset
  · rw [ha, grown_mem_self h, Function.update_self]
  · rw [grown_mem_ne ha, Function.update_of_ne ha]

/-! ## Edits -/

/-- The unit `u` takes over the units `gone` behind it, or changes its free flag. -/
theorem Tiled.join (h : Tiled t b (l ++ u :: (gone ++ r))) (b' : Block) (f : Bool)
    (hmem : b'.mem = Function.update b.mem u.offset
      { u with size := span (u :: gone), bfree := f, next := r.head?.map (·.offset) })
    (hhead : b'.head = b.head) (htotal : b'.totalSize = b.totalSize) :
    Tiled t b' (l ++ { u with size := span (u :: gone), bfree := f,
                              next := r.head?.map (·.offset) } :: r) := by
  have hpos : ∀ v ∈ gone, 0 < v.size := fun v hv => h.size_pos (by simp [hv])
  have hlen := length_le_span gone hpos
  have hroom := h.room u (by simp)
  have hbehind : Tiled t b ((l ++ u :: gone) ++ r) := by simpa using h
  have hlast := hbehind.last_behind
  have hright : r.IsChain Follows :=
    (List.isChain_cons.mp h.follows.right_of_append).2.right_of_append
  apply h.retail _ { u with size := span (u :: gone), bfree := f, next := r.head?.map (·.offset) } r
    rfl
  · intro a ha
    rw [hmem, Function.update_of_ne ha.ne]
  · intro v hv
    rcases List.mem_cons.mp hv with rfl | hv
    · rw [hmem, Function.update_self]
    · have hlt : u.offset < v.offset := h.lt_behind (by simp [hv])
      rw [hmem, Function.update_of_ne hlt.ne', h.stored v (by simp [hv])]
  · exact hhead
  · exact htotal
  · intro v hv
    cases r with
    | nil =>
      obtain rfl := Option.mem_some_iff.mp hv
      rfl
    | cons w r => exact hlast v (by simpa using hv)
  · refine List.isChain_cons.mpr ⟨fun v hv => ⟨?_, ?_⟩, hright⟩
    · rw [Option.mem_def] at hv
      simp [hv]
    · obtain ⟨r', rfl⟩ : ∃ r', r = v :: r' := List.head?_eq_some_iff.mp hv
      have hv' : Tiled t b ((l ++ u :: gone) ++ v :: r') := by simpa using h
      rw [hv'.offset_eq, h.offset_eq, span_append]
  · simp only [span_cons, span_append]
    omega
  · intro v hv
    rcases List.mem_cons.mp hv with rfl | hv
    · simp only [span_cons]
      omega
    · exact h.room v (by simp [hv])
  · intro v hv
    rcases List.mem_cons.mp hv with rfl | hv
    · exact h.back u (by simp)
    · exact h.back v (by simp [hv])

theorem Tiled.mark (h : Tiled t b (l ++ u :: r)) (b' : Block) (f : Bool)
    (hmem : b'.mem = Function.update b.mem u.offset { u with bfree := f })
    (hhead : b'.head = b.head) (htotal : b'.totalSize = b.totalSize) :
    Tiled t b' (l ++ { u with bfree := f } :: r) := by
  have hself : { u with size := span [u], bfree := f, next := r.head?.map (·.offset) } =
      { u with bfree := f } := by
    rw [← h.next_eq]
    simp
  have hnone : Tiled t b (l ++ u :: ([] ++ r)) := h
  have hjoin := hnone.join b' f (by rw [hmem, hself]) hhead htotal
  rwa [hself] at hjoin

/-- The units from `u` to the end of `gone` become a used and a free one. -/
theorem Tiled.cut (h : Tiled t b (l ++ u :: (gone ++ r))) (s₁ s₂ : ℤ)
    (h₁ : sizeofAllocUnit t < s₁) (h₂ : sizeofAllocUnit t < s₂)
    (hspan : s₁ + s₂ = span (u :: gone)) :
    Tiled t ((b.iWriteHeadInfo u.offset u.offset s₁ false u.prev
        (some (u.offset + s₁))).iWriteHeadInfo (u.offset + s₁) (u.offset + s₁) s₂ true
          (some u.offset) (r.head?.map (·.offset)))
      (l ++ { u with size := s₁, bfree := false, next := some (u.offset + s₁) } ::
        { offset := u.offset + s₁, size := s₂, bfree := true, prev := some u.offset,
          next := r.head?.map (·.offset) } :: r) := by
  have hpos := sizeofAllocUnit_pos t
  have hne : ¬ some (u.offset + s₁) = some u.offset := by
    simp only [Option.some.injEq]
    omega
  have hat : ∀ v ∈ r, u.offset + s₁ < v.offset := by
    intro v hv
    obtain ⟨r₁, r₂, rfl⟩ := List.append_of_mem hv
    have hv' : Tiled t b ((l ++ u :: (gone ++ r₁)) ++ v :: r₂) := by simpa using h
    have hlen := length_le_span r₁ fun w hw => h.size_pos (by simp [hw])
    have hoff : v.offset = span l + (u.size + (span gone + span r₁)) := by
      simpa using hv'.offset_eq
    rw [span_cons] at hspan
    rw [hoff, h.offset_eq]
    omega
  have hbehind : Tiled t b ((l ++ u :: gone) ++ r) := by simpa using h
  have hlast := hbehind.last_behind
  have hright : r.IsChain Follows :=
    (List.isChain_cons.mp h.follows.right_of_append).2.right_of_append
  refine h.retail _ { u with size := s₁, bfree := false, next := some (u.offset + s₁) } (_ :: r)
    rfl ?_ ?_ rfl rfl ?_ ?_ ?_ ?_ ?_
  · intro a ha
    have hlt : a ≠ u.offset + s₁ := by omega
    rw [Block.iWriteHeadInfo, Block.modify_mem_ne _ _ _ _ hlt,
      Block.iWriteHeadInfo, Block.modify_mem_ne _ _ _ _ ha.ne]
  · intro v hv
    rcases List.mem_cons.mp hv with rfl | hv
    · have hlt : u.offset ≠ u.offset + s₁ := by omega
      rw [Block.iWriteHeadInfo, Block.modify_mem_ne _ _ _ _ hlt]
      simp [Block.iWriteHeadInfo, if_neg h.prev_ne]
    rcases List.mem_cons.mp hv with rfl | hv
    · simp only [Block.iWriteHeadInfo, Block.modify_mem_self, if_neg hne]
    · have hlt := hat v hv
      have hlt' : u.offset < v.offset := h.lt_behind (by simp [hv])
      rw [Block.iWriteHeadInfo, Block.modify_mem_ne _ _ _ _ hlt.ne', Block.iWriteHeadInfo,
        Block.modify_mem_ne _ _ _ _ hlt'.ne', h.stored v (by simp [hv])]
  · intro v hv
    cases r with
    | nil =>
      obtain rfl := Option.mem_some_iff.mp hv
      rfl
    | cons w r => exact hlast v (by simpa using hv)
  · refine List.isChain_cons_cons.mpr ⟨⟨rfl, rfl⟩, List.isChain_cons.mpr ⟨fun v hv => ?_, hright⟩⟩
    obtain ⟨r', rfl⟩ : ∃ r', r = v :: r' := List.head?_eq_some_iff.mp hv
    have hv' : Tiled t b ((l ++ u :: gone) ++ v :: r') := by simpa using h
    refine ⟨rfl, ?_⟩
    have hoff := hv'.offset_eq
    rw [span_append] at hoff
    have := h.offset_eq
    simp only
    omega
  · simp only [span_cons, span_append] at hspan ⊢
    omega
  · intro v hv
    rcases List.mem_cons.mp hv with rfl | hv
    · exact h₁
    rcases List.mem_cons.mp hv with rfl | hv
    · exact h₂
    · exact h.room v (by simp [hv])
  · intro v hv p hp
    rcases List.mem_cons.mp hv with rfl | hv
    · exact h.back u (by simp) p hp
    rcases List.mem_cons.mp hv with rfl | hv
    · obtain rfl := Option.some.inj hp
      simp only
      omega
    · exact h.back v (by simp [hv]) p hp

theorem Tiled.backLink (h : Tiled t b (l ++ u :: r)) :
    Tiled t (b.backLink u.offset) (l ++ u :: relink u.offset r) := by
  cases r with
  | nil =>
    have hnext : u.next = none := by simpa using h.next_eq
    have hsame : b.backLink u.offset = b := by simp [Block.backLink, h.mem_eq, hnext]
    rwa [hsame]
  | cons m r =>
    have hm : Tiled t b ((l ++ [u]) ++ m :: r) := by simpa using h
    have hlt : u.offset < m.offset := h.lt_behind (by simp)
    have hlast := h.last
    have hnext : (b.mem u.offset).next = some m.offset := by
      rw [h.mem_eq]
      simpa using h.next_eq
    have hne {a : ℤ} (ha : a ≠ m.offset) : (b.backLink u.offset).mem a = b.mem a := by
      apply backLink_mem_ne
      rw [hnext]
      exact fun heq => ha (Option.some.inj heq).symm
    have htail := hm.retail (b.backLink u.offset) { m with prev := some u.offset } r rfl
      (fun a ha => hne ha.ne) ?_ (backLink_head b _) (backLink_totalSize b _) ?_ ?_ ?_ ?_ ?_
    · simpa [relink] using htail
    · intro v hv
      rcases List.mem_cons.mp hv with rfl | hv
      · rw [backLink_mem_next hnext, hm.mem_eq]
      · rw [hne (hm.lt_behind hv).ne', h.stored v (by simp [hv])]
    · have hmr : ∀ v ∈ (m :: r).getLast?, v.next = none := by simpa using hlast
      exact relink_last hmr
    · have := List.isChain_cons.mp hm.follows.right_of_append
      exact List.isChain_cons.mpr ⟨fun v hv => this.1 v hv, this.2⟩
    · simp
    · have hroom : ∀ v ∈ m :: r, sizeofAllocUnit t < v.size := fun v hv =>
        h.room v (List.mem_append_right l (List.mem_cons_of_mem u hv))
      exact relink_room hroom
    · intro v hv p hp
      rcases List.mem_cons.mp hv with rfl | hv
      · obtain rfl := Option.some.inj hp
        exact hlt
      · exact h.back v (by simp [hv]) p hp

/-- One turn of `absorb`: the unit `u` takes over `n`, and what follows points back to `u`. -/
theorem Tiled.grow (h : Tiled t b (l ++ u :: n :: r)) :
    Tiled t ((grown b u n).backLink u.offset)
      (l ++ { u with size := u.size + n.size, next := n.next } :: relink u.offset r) := by
  have hn : Tiled t b ((l ++ [u]) ++ n :: r) := by simpa using h
  have hself : { u with size := span (u :: [n]), next := r.head?.map (·.offset) } =
      { u with size := u.size + n.size, next := n.next } := by
    rw [← hn.next_eq]
    simp
  have hgone : Tiled t b (l ++ u :: ([n] ++ r)) := h
  have hjoin := hgone.join (grown b u n) u.bfree (by rw [hself]; exact grown_mem h.mem_eq)
    rfl rfl
  rw [hself] at hjoin
  exact hjoin.backLink

end Tiled

end DevFramework.MemPool
