import DevFramework.MemPool.Operations

/-! # Merging free units

`free_buffer` marks a unit free and merges it with its free neighbours: `rewind` goes back to the
first unit of the free stretch and `absorb` swallows the units behind it one by one. Since no two
neighbours were free before, the stretch has at most three units, but nothing in the loops needs
that; what they need is that the units in front of the freed one are apart.
-/
namespace DevFramework.MemPool
set_option autoImplicit false
set_option maxHeartbeats 250000

theorem relink_apart {p : ℤ} {us : List AllocUnit} (h : us.IsChain Apart) :
    (relink p us).IsChain Apart := by
  cases us with
  | nil => exact h
  | cons u us =>
    rw [List.isChain_cons] at h
    exact List.isChain_cons.mpr ⟨fun v hv => h.1 v hv, h.2⟩

theorem relink_back {u : AllocUnit} {us : List AllocUnit} (h : us.IsChain PointsBack) :
    (u :: relink u.offset us).IsChain PointsBack := by
  cases us with
  | nil => exact List.isChain_singleton u
  | cons m us =>
    obtain ⟨hm, hus⟩ := List.isChain_cons.mp h
    refine List.isChain_cons.mpr ⟨fun v hv => ?_, List.isChain_cons.mpr ⟨hm, hus⟩⟩
    obtain rfl : { m with prev := some u.offset } = v := Option.mem_some_iff.mp hv
    rfl

/-! ## Neighbours -/

/-- The free unit over `e` and the free neighbours it has. -/
def Extent.merged (e : Extent) (pred succ : Option Extent) : Extent where
  offset := (pred.getD e).offset
  size := (pred.map (·.size)).getD 0 + e.size + (succ.map (·.size)).getD 0
  bfree := true

/-- The units `es` are left of `l`, `e` and `r` when `e` is free and one with its free
neighbours. -/
def Coalesces (l : List Extent) (e : Extent) (r es : List Extent) : Prop :=
  ∃ l' pred succ r', l = l' ++ pred.toList ∧ r = succ.toList ++ r' ∧
    (∀ p ∈ pred, p.bfree = true) ∧ (∀ s ∈ succ, s.bfree = true) ∧
    (∀ p ∈ l'.getLast?, p.bfree = false) ∧ (∀ s ∈ r'.head?, s.bfree = false) ∧
    es = l' ++ e.merged pred succ :: r'

theorem Coalesces.busy {l r es : List Extent} {e : Extent} (h : Coalesces l e r es) :
    (es.filter fun e => !e.bfree) = (l ++ r).filter fun e => !e.bfree := by
  obtain ⟨l', pred, succ, r', rfl, rfl, hpred, hsucc, -, -, rfl⟩ := h
  cases pred <;> cases succ <;> simp_all [Extent.merged]

theorem Coalesces.total {l r es : List Extent} {e : Extent} (h : Coalesces l e r es) :
    (es.map (·.size)).sum = ((l ++ e :: r).map (·.size)).sum := by
  obtain ⟨l', pred, succ, r', rfl, rfl, -, -, -, -, rfl⟩ := h
  cases pred <;> cases succ <;> simp [Extent.merged] <;> omega

/-- Free units in front of units that are apart are one at most. -/
theorem free_prefix {us : List AllocUnit} (h : us.IsChain Apart) {gone rest : List Extent}
    (heq : us.map AllocUnit.extent = gone ++ rest) (hfree : ∀ e ∈ gone, e.bfree = true) :
    ∃ succ : Option Extent, gone = succ.toList := by
  rcases gone with _ | ⟨e, _ | ⟨f, gone⟩⟩
  · exact ⟨none, rfl⟩
  · exact ⟨some e, rfl⟩
  · -- two free neighbours
    rcases us with _ | ⟨u, _ | ⟨v, us⟩⟩
    · cases heq
    · cases heq
    · obtain ⟨hu, heq⟩ := List.cons.inj heq
      obtain ⟨hv, -⟩ := List.cons.inj heq
      have hapart := (List.isChain_cons_cons.mp h).1
      have hue : u.bfree = true := by
        have := hfree e (by simp)
        rwa [← hu] at this
      have hve : v.bfree = true := by
        have := hfree f (by simp)
        rwa [← hv] at this
      exact absurd ⟨hue, hve⟩ hapart

section Merge
variable {t : Target} {b : Block} {l r : List AllocUnit} {u n : AllocUnit}

theorem Formed.backLink_eq (h : Formed t b (l ++ u :: r)) : b.backLink u.offset = b := by
  cases r with
  | nil =>
    have hnext : u.next = none := by simpa using h.tiled.next_eq
    simp [Block.backLink, h.tiled.mem_eq, hnext]
  | cons m r =>
    have hnext : u.next = some m.offset := by simpa using h.tiled.next_eq
    have hback : m.prev = some u.offset :=
      (List.isChain_cons.mp h.back.right_of_append).1 m (by simp)
    have hm : b.mem m.offset = m := h.stored m (by simp)
    have hself : { m with prev := some u.offset } = b.mem m.offset := by rw [hm, ← hback]
    simp only [Block.backLink, h.tiled.mem_eq, hnext, Block.modify, hm]
    rw [Function.update_eq_self_iff.mpr hself]

/-- One turn of `absorb`: the unit `u` takes over `n`, and what follows points back to `u`. -/
theorem Formed.grow (h : Formed t b (l ++ u :: n :: r)) (hn : n.bfree = true) :
    Formed t ((grown b u n).backLink u.offset)
      (l ++ { u with size := u.size + n.size, next := n.next } :: relink u.offset r) := by
  have hback := (List.isChain_cons.mp (List.isChain_cons.mp h.back.right_of_append).2).2
  apply h.retail h.tiled.grow rfl (relink_back hback)
  rw [backLink_freeCount, List.countP_cons, List.countP_cons, List.countP_cons, relink_countP]
  simp only [grown, Block.modify_freeCount, Block.addFree_freeCount, hn, if_true]
  cases u.bfree <;> simp

/-! ## The two loops -/

/-- Apart, but for a free unit in front: what `absorb` may find behind the unit it starts at. -/
def Mergeable (r : List AllocUnit) : Prop :=
  r.IsChain Apart ∨ ∃ n r', r = n :: r' ∧ n.bfree = true ∧ r'.IsChain Apart

theorem Mergeable.tail (h : Mergeable (n :: r)) : r.IsChain Apart := by
  rcases h with h | ⟨n', r', heq, _, h⟩
  · exact (List.isChain_cons.mp h).2
  · exact (List.cons.inj heq).2 ▸ h

theorem Mergeable.apart (h : Mergeable (n :: r)) (hn : n.bfree = false) :
    (n :: r).IsChain Apart := by
  rcases h with h | ⟨n', r', heq, hfree, _⟩
  · exact h
  · rw [(List.cons.inj heq).1, hfree] at hn
    simp at hn

/-- `absorb` ends behind the last free unit of the stretch: `u` takes over the free units `gone`,
and of the others only a link changes. The induction is on the units behind `u`, of which every
turn removes one. -/
theorem absorb_spec : ∀ (r : List AllocUnit) (b : Block) (u : AllocUnit) (fuel : ℕ),
    Formed t b (l ++ u :: r) → r.length < fuel → u.bfree = true → Mergeable r →
    ∃ b' u' r' gone, Block.absorb fuel b u.offset = .ok b' ∧ Formed t b' (l ++ u' :: r') ∧
      r.map AllocUnit.extent = gone ++ r'.map AllocUnit.extent ∧ (∀ e ∈ gone, e.bfree = true) ∧
      u'.extent = { offset := u.offset, size := u.size + (gone.map (·.size)).sum, bfree := true } ∧
      (u' :: r').IsChain Apart
  | _, _, _, 0, _, hlen, _, _ => by omega
  | [], b, u, fuel + 1, h, _, hu, _ => by
    refine ⟨b, u, [], [], h.tiled.absorb_last fuel, h, rfl, by simp, ?_, List.isChain_singleton _⟩
    simp [AllocUnit.extent, hu]
  | n :: r, b, u, fuel + 1, h, hlen, hu, hr => by
    by_cases hn : n.bfree = true
    · obtain ⟨b', u', r', gone, hrun, hform, hgone, hfree, hext, hchain⟩ :=
        absorb_spec (relink u.offset r) ((grown b u n).backLink u.offset)
          { u with size := u.size + n.size, next := n.next } fuel (h.grow hn)
          (by simpa using hlen) hu (.inl (relink_apart hr.tail))
      rw [relink_extent] at hgone
      refine ⟨b', u', r', n.extent :: gone, ?_, hform, by simp [hgone], ?_, ?_, hchain⟩
      · rw [h.tiled.absorb_free hn]
        exact hrun
      · intro e he
        rcases List.mem_cons.mp he with rfl | he
        · exact hn
        · exact hfree e he
      · rw [hext]
        simp [AllocUnit.extent, add_assoc]
    · have hn : n.bfree = false := by simpa using hn
      refine ⟨b, u, n :: r, [], h.tiled.absorb_used hn fuel, h, rfl, by simp, ?_,
        List.isChain_cons.mpr ⟨fun v hv hboth => ?_, hr.apart hn⟩⟩
      · simp [AllocUnit.extent, hu]
      · obtain rfl : n = v := by simpa using hv
        rw [hn] at hboth
        simp at hboth

/-- `rewind` stays where it is, or goes back to the free unit right in front. It goes no further,
because the units in front are apart. -/
theorem Formed.rewind_spec (h : Formed t b (l ++ u :: r)) (hl : l.IsChain Apart) (fuel : ℕ) :
    (Block.rewind b (fuel + 2) u.offset = .ok u.offset ∧ ∀ p ∈ l.getLast?, p.bfree = false) ∨
    ∃ l' p, l = l' ++ [p] ∧ p.bfree = true ∧
      Block.rewind b (fuel + 2) u.offset = .ok p.offset := by
  rcases List.eq_nil_or_concat l with rfl | ⟨l', p, rfl⟩
  · have hprev : u.prev = none := by simpa using h.prev_eq
    refine .inl ⟨?_, by simp⟩
    simp only [Block.rewind, h.tiled.mem_eq, hprev]
  · rw [List.concat_eq_append] at h hl ⊢
    have hprev : u.prev = some p.offset := by simpa using h.prev_eq
    have hpmem : b.mem p.offset = p := h.stored p (by simp)
    by_cases hp : p.bfree = true
    · refine .inr ⟨l', p, rfl, hp, ?_⟩
      simp only [Block.rewind, h.tiled.mem_eq, hprev, hpmem, hp, if_true]
      have hpp : Formed t b (l' ++ p :: u :: r) := by simpa using h
      rcases List.eq_nil_or_concat l' with rfl | ⟨l'', q, rfl⟩
      · have : p.prev = none := by simpa using hpp.prev_eq
        rw [this]
      · rw [List.concat_eq_append] at hl hpp
        have hq : p.prev = some q.offset := by simpa using hpp.prev_eq
        have hqmem : b.mem q.offset = q := h.stored q (by simp)
        have hqfree : q.bfree = false := by
          have := (List.isChain_append.mp hl).2.2 q (by simp) p (by simp)
          simpa [Apart, hp] using this
        simp only [hq, hqmem, hqfree, Bool.false_eq_true, if_false]
    · refine .inl ⟨?_, by simpa using hp⟩
      simp only [Block.rewind, h.tiled.mem_eq, hprev, hpmem, hp, Bool.false_eq_true, if_false]

theorem Formed.absorb_wellFormed (h : Formed t b (l ++ u :: r)) (hu : u.bfree = true)
    (hl : l.IsChain Apart) (hlast : ∀ p ∈ l.getLast?, p.bfree = false) (hr : Mergeable r) :
    ∃ b' us' gone rest, (do let b₁ ← Block.absorb b.fuel b u.offset
                            return b₁.backLink u.offset) = Except.ok b' ∧ WellFormed t b' us' ∧
      r.map AllocUnit.extent = gone ++ rest ∧ (∀ e ∈ gone, e.bfree = true) ∧
      (∀ e ∈ rest.head?, e.bfree = false) ∧
      us'.map AllocUnit.extent = l.map AllocUnit.extent ++
        { offset := u.offset, size := u.size + (gone.map (·.size)).sum, bfree := true } :: rest := by
  have hfuel : r.length < b.fuel := by
    have := h.tiled.length_lt_fuel
    simp only [List.length_append, List.length_cons] at this
    omega
  obtain ⟨b', u', r', gone, hrun, hform, hgone, hfree, hext, hchain⟩ :=
    absorb_spec r b u b.fuel h hfuel hu hr
  have hoff : u'.offset = u.offset := congrArg Extent.offset hext
  have hfree' : u'.bfree = true := congrArg Extent.bfree hext
  refine ⟨b', l ++ u' :: r', gone, r'.map AllocUnit.extent, ?_,
    { hform with apart := hl.append hchain ?_ }, hgone, hfree, ?_, ?_⟩
  · have hlink : b'.backLink u.offset = b' := hoff ▸ hform.backLink_eq
    rw [hrun]
    exact congrArg Except.ok hlink
  · intro p hp _ _ hboth
    simp [hlast p hp] at hboth
  · intro e he
    rw [List.head?_map] at he
    obtain ⟨v, hv, rfl⟩ := Option.map_eq_some_iff.mp he
    have hapart : v.bfree = false := by
      simpa [Apart, hfree'] using (List.isChain_cons.mp hchain).1 v hv
    exact hapart
  · rw [List.map_append, List.map_cons, hext]

/-- `i_merge_unit` at a free unit whose neighbours may be free. -/
theorem Formed.merge_spec (h : Formed t b (l ++ u :: r)) (hu : u.bfree = true)
    (hl : l.IsChain Apart) (hr : r.IsChain Apart) :
    ∃ b' us', b.iMergeUnit u.offset = .ok b' ∧ WellFormed t b' us' ∧
      Coalesces (l.map AllocUnit.extent) u.extent (r.map AllocUnit.extent)
        (us'.map AllocUnit.extent) := by
  by_cases halone : u.prev = none ∧ u.next = none
  · have hl0 : l = [] := by
      have := h.prev_eq
      rw [halone.1] at this
      simpa using this.symm
    have hr0 : r = [] := by
      have := h.tiled.next_eq
      rw [halone.2] at this
      simpa using this.symm
    subst hl0 hr0
    refine ⟨b, [u], ?_, { h with apart := List.isChain_singleton _ },
      [], none, none, [], rfl, rfl, by simp, by simp, by simp, by simp, ?_⟩
    · simp only [Block.iMergeUnit, h.tiled.mem_eq, halone, and_self, if_true]
    · simp [Extent.merged, AllocUnit.extent, hu]
  · have hrun : b.iMergeUnit u.offset = (do
        let cur ← b.rewind b.fuel u.offset
        let b₁ ← Block.absorb b.fuel b cur
        return b₁.backLink cur) := by
      simp only [Block.iMergeUnit, h.tiled.mem_eq, halone, hu, Bool.true_eq_false, if_false]
    obtain ⟨k, hk⟩ : ∃ k, b.fuel = k + 2 := by
      have := h.tiled.length_lt_fuel
      simp only [List.length_append, List.length_cons] at this
      exact ⟨b.fuel - 2, by omega⟩
    rcases h.rewind_spec hl k with ⟨hstay, hlast⟩ | ⟨l', p, rfl, hp, hback⟩
    · obtain ⟨b', us', gone, rest, hok, hwf, hgone, hfree, hhead, hext⟩ :=
        h.absorb_wellFormed hu hl hlast (.inl hr)
      obtain ⟨succ, rfl⟩ := free_prefix hr hgone hfree
      refine ⟨b', us', ?_, hwf, l.map AllocUnit.extent, none, succ, rest, by simp, hgone, by simp,
        fun e he => hfree e (by simpa using he), ?_, hhead, ?_⟩
      · rw [hrun, hk, hstay, ← hk]
        exact hok
      · intro e he
        rw [List.getLast?_map] at he
        obtain ⟨p, hp, rfl⟩ := Option.map_eq_some_iff.mp he
        exact hlast p hp
      · rw [hext]
        cases succ <;> simp [Extent.merged, AllocUnit.extent]
    · have hpp : Formed t b (l' ++ p :: u :: r) := by simpa using h
      have hlast : ∀ q ∈ l'.getLast?, q.bfree = false := fun q hq => by
        have := (List.isChain_append.mp hl).2.2 q hq p (by simp)
        simpa [Apart, hp] using this
      obtain ⟨b', us', gone, rest, hok, hwf, hgone, hfree, hhead, hext⟩ :=
        hpp.absorb_wellFormed hp hl.left_of_append hlast (.inr ⟨u, r, rfl, hu, hr⟩)
      -- the freed unit itself is the first to go
      obtain ⟨gone, rfl⟩ : ∃ gone', gone = u.extent :: gone' := by
        cases gone with
        | nil =>
          have hux : u.bfree = false := by
            apply hhead u.extent
            rw [← List.nil_append rest, ← hgone]
            rfl
          rw [hu] at hux
          cases hux
        | cons e gone => exact ⟨gone, by rw [(List.cons.inj hgone).1]⟩
      have hgone : r.map AllocUnit.extent = gone ++ rest := (List.cons.inj hgone).2
      obtain ⟨succ, rfl⟩ := free_prefix hr hgone fun e he => hfree e (by simp [he])
      refine ⟨b', us', ?_, hwf, l'.map AllocUnit.extent, some p.extent, succ, rest, by simp, hgone,
        ?_, fun e he => ?_, ?_, hhead, ?_⟩
      · rw [hrun, hk, hback, ← hk]
        exact hok
      · intro e he
        obtain rfl := Option.some.inj he
        exact hp
      · apply hfree e
        rw [List.mem_cons]
        exact .inr (by simpa using he)
      · intro e he
        rw [List.getLast?_map] at he
        obtain ⟨q, hq, rfl⟩ := Option.map_eq_some_iff.mp he
        exact hlast q hq
      · rw [hext]
        cases succ <;> simp [Extent.merged, AllocUnit.extent, add_assoc]

/-- `free_buffer` frees the unit and merges it with its free neighbours. -/
theorem WellFormed.free_coalesces (h : WellFormed t b (l ++ u :: r)) (hu : u.bfree = false) :
    ∃ b' us', b.freeBuffer t (u.offset + sizeofAllocUnit t) = .ok b' ∧ WellFormed t b' us' ∧
      Coalesces (l.map AllocUnit.extent) u.extent (r.map AllocUnit.extent)
        (us'.map AllocUnit.extent) := by
  have hmark := h.toFormed.mark ((b.modify u.offset fun w =>
    { w with bfree := true }).addFree 1) true (by simp [Block.modify, h.tiled.mem_eq]) rfl rfl
    (by simp [hu])
  obtain ⟨b', us', hok, hwf, l', pred, succ, r', hcoalesces⟩ := hmark.merge_spec rfl
    h.apart.left_of_append (List.isChain_cons.mp h.apart.right_of_append).2
  refine ⟨b', us', ?_, hwf, l', pred, succ, r', ?_⟩
  · simp only [Block.freeBuffer, h.tiled.inside, if_false, cur_of_buf]
    exact hok
  · cases pred <;> exact hcoalesces

theorem WellFormed.free_spec (h : WellFormed t b (l ++ u :: r)) (hu : u.bfree = false) :
    ∃ b' us', b.freeBuffer t (u.offset + sizeofAllocUnit t) = .ok b' ∧ WellFormed t b' us' ∧
      busy us' = busy (l ++ r) := by
  obtain ⟨b', us', hok, hwf, hcoalesces⟩ := h.free_coalesces hu
  refine ⟨b', us', hok, hwf, ?_⟩
  rw [busy_eq, hcoalesces.busy, ← List.map_append, ← busy_eq]

end Merge

end DevFramework.MemPool
