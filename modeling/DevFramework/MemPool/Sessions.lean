import DevFramework.MemPool.Merge
import DevFramework.Foundations.Transition

/-! # Whole sessions on one block

A session is any sequence of admissible calls on a fresh block. The block stays well formed as long
as no call cuts or joins units in front of another unit (`CutsLast`): `alloc_buffer` and
`realloc_buffer` write the headers of the units they make but not the `prev` pointer of the unit
behind them, and `realloc_buffer` reads `next->bfree` also when `next` is null. The condition is
exact: a call that breaks it ends in a null dereference or in a block that is not well formed.
-/
namespace DevFramework.MemPool
open Transition
set_option autoImplicit false
set_option maxHeartbeats 250000

/-- The call touches no link of a unit that it leaves in place. -/
def Session.CutsLast (t : Target) (s : Session) : Call → Prop
  | .alloc size => ∀ cur prev, s.block.bestMatch t size = .ok (some (cur, prev)) →
      (s.block.mem cur).next = none ∨
        (s.block.mem cur).size - (size + sizeofAllocUnit t) ≤ sizeofAllocUnit t
  | .realloc buf newSize =>
      let u := s.block.mem (buf - sizeofAllocUnit t)
      newSize ≤ u.size ∨ ∃ n, u.next = some n ∧
        ((s.block.mem n).bfree = false ∨
          u.size + (s.block.mem n).size - sizeofAllocUnit t < newSize ∨
          (s.block.mem n).next = none)
  | .free _ => True

/-- The block is well formed and the live buffers are the units in use. -/
def Session.Good (t : Target) (s : Session) : Prop :=
  ∃ us, WellFormed t s.block us ∧ ∀ p, p ∈ s.live ↔ p - sizeofAllocUnit t ∈ busy us

theorem fresh_good (t : Target) (junk : ℤ → AllocUnit) : (Session.fresh junk).Good t :=
  ⟨_, fresh_wellFormed t junk, fun p => by simp [Session.fresh, busy]⟩

theorem WellFormed.split_live {t : Target} {b : Block} {us : List AllocUnit} {p : ℤ}
    (h : WellFormed t b us) (hp : p - sizeofAllocUnit t ∈ busy us) :
    ∃ l u r, us = l ++ u :: r ∧ u.bfree = false ∧ p = u.offset + sizeofAllocUnit t := by
  obtain ⟨u, hu, hused, hoff⟩ := mem_busy.mp hp
  obtain ⟨l, r, rfl⟩ := List.append_of_mem hu
  exact ⟨l, u, r, rfl, hused, by omega⟩

section Step
variable {t : Target} {s : Session}

theorem alloc_good (hg : s.Good t) {size : ℤ} (hsize : 0 < size)
    (hok : s.CutsLast t (.alloc size)) :
    ∃ s', s.exec t (.alloc size) = some s' ∧ s'.Good t := by
  obtain ⟨us, hwf, hlive⟩ := hg
  rcases hwf.tiled.bestMatch_spec size with hnone | ⟨l, u, r, rfl, hfind, hfree, hfit⟩
  · refine ⟨s, ?_, us, hwf, hlive⟩
    simp only [Session.exec, allocBuffer_none hnone]
  · have hrun : s.exec t (.alloc size) = some
        { block := s.block.takeUnit t u.offset u.prev size,
          live := (u.offset + sizeofAllocUnit t) :: s.live } := by
      simp only [Session.exec, allocBuffer_found hfind]
    have hbuf (p : ℤ) : p = u.offset + sizeofAllocUnit t ↔ p - sizeofAllocUnit t = u.offset := by
      omega
    refine ⟨_, hrun, ?_⟩
    by_cases hrest : u.size - (size + sizeofAllocUnit t) ≤ sizeofAllocUnit t
    · refine ⟨_, hwf.takeUnit_whole hfree hrest, fun p => ?_⟩
      simp only [List.mem_cons, hlive, hbuf, busy_append, busy_cons_free _ hfree, List.mem_append,
        busy_cons_used (u := { u with bfree := false }) r rfl]
      tauto
    · have hnext : u.next = none := by
        rcases hok u.offset u.prev hfind with hn | hn
        · rwa [hwf.tiled.mem_eq] at hn
        · rw [hwf.tiled.mem_eq] at hn
          exact absurd hn hrest
      obtain rfl : r = [] := by
        have := hwf.tiled.next_eq
        rw [hnext] at this
        simpa using this.symm
      refine ⟨_, hwf.takeUnit_split hfree hsize (by omega), fun p => ?_⟩
      simp only [List.mem_cons, hlive, hbuf, busy_append, busy_cons_free _ hfree, List.mem_append,
        busy_cons_used, busy_cons_free, busy_nil, List.not_mem_nil, or_false]
      tauto

theorem realloc_good (hg : s.Good t) {buf newSize : ℤ} (hbuf : buf ∈ s.live) (hnew : 0 < newSize)
    (hok : s.CutsLast t (.realloc buf newSize)) :
    ∃ s', s.exec t (.realloc buf newSize) = some s' ∧ s'.Good t := by
  obtain ⟨us, hwf, hlive⟩ := hg
  obtain ⟨l, u, r, rfl, hused, rfl⟩ := hwf.split_live ((hlive buf).mp hbuf)
  have hmem : s.block.mem (u.offset + sizeofAllocUnit t - sizeofAllocUnit t) = u := by
    rw [add_sub_cancel_right, hwf.tiled.mem_eq]
  have hcase : newSize ≤ u.size ∨ ∃ n r', r = n :: r' ∧
      (n.bfree = false ∨ u.size + n.size - sizeofAllocUnit t < newSize ∨ r' = []) := by
    simp only [Session.CutsLast, hmem] at hok
    refine hok.imp_right ?_
    rintro ⟨a, hnext, hcond⟩
    rw [hwf.tiled.next_eq] at hnext
    cases r with
    | nil => simp at hnext
    | cons n r' =>
      obtain rfl : n.offset = a := by simpa using hnext
      have hn : s.block.mem n.offset = n := hwf.stored n (by simp)
      have hwf' : WellFormed t s.block ((l ++ [u]) ++ n :: r') := by simpa using hwf
      rw [hn, hwf'.tiled.next_eq] at hcond
      exact ⟨n, r', rfl, by simpa using hcond⟩
  obtain ⟨p, b', us', hrun, hwf', hbusy⟩ := hwf.realloc_spec hused hnew hcase
  refine ⟨{ s with block := b' }, ?_, us', hwf', fun q => by rw [hbusy]; exact hlive q⟩
  simp only [Session.exec, hrun]

theorem free_good (hg : s.Good t) {buf : ℤ} (hbuf : buf ∈ s.live) :
    ∃ s', s.exec t (.free buf) = some s' ∧ s'.Good t := by
  obtain ⟨us, hwf, hlive⟩ := hg
  obtain ⟨l, u, r, rfl, hused, rfl⟩ := hwf.split_live ((hlive buf).mp hbuf)
  obtain ⟨b', us', hrun, hwf', hbusy⟩ := hwf.free_spec hused
  refine ⟨{ block := b', live := s.live.filter (· ≠ u.offset + sizeofAllocUnit t) }, ?_, us', hwf',
    fun q => ?_⟩
  · simp only [Session.exec, hrun]
  · have hnot := hwf.tiled.offset_notMem_busy
    have hq : q - sizeofAllocUnit t ∈ busy (l ++ u :: r) ↔
        q - sizeofAllocUnit t = u.offset ∨ q - sizeofAllocUnit t ∈ busy (l ++ r) := by
      simp only [busy_append, busy_cons_used _ hused, List.mem_append, List.mem_cons]
      tauto
    simp only [List.mem_filter, hlive, hbusy, hq, decide_eq_true_eq]
    constructor
    · rintro ⟨hor, hne⟩
      exact hor.resolve_left fun heq => hne (by omega)
    · intro hmem
      refine ⟨.inr hmem, fun heq => hnot ?_⟩
      rwa [heq, add_sub_cancel_right] at hmem

/-- An admissible call within the condition is defined and keeps the session good. -/
theorem exec_good (hg : s.Good t) {c : Call} (hadm : s.Admissible c) (hok : s.CutsLast t c) :
    ∃ s', s.exec t c = some s' ∧ s'.Good t := by
  cases c with
  | alloc size => exact alloc_good hg hadm hok
  | realloc buf newSize => exact realloc_good hg hadm.1 hadm.2 hok
  | free buf => exact free_good hg hadm

end Step

/-! ## The condition is exact -/

section Stale
variable {t : Target} {b b' : Block} {us l r : List AllocUnit} {u n : AllocUnit}

theorem Formed.next_back (h : Formed t b us) {a c : ℤ} (ha : ∃ v ∈ us, v.offset = a)
    (hnext : (b.mem a).next = some c) :
    (∃ v ∈ us, v.offset = c) ∧ (b.mem c).prev = some a := by
  obtain ⟨v, hv, rfl⟩ := ha
  obtain ⟨l, r, rfl⟩ := List.append_of_mem hv
  rw [h.tiled.mem_eq, h.tiled.next_eq] at hnext
  cases r with
  | nil => simp at hnext
  | cons w r =>
    obtain rfl : w.offset = c := by simpa using hnext
    have hback : w.prev = some v.offset :=
      (List.isChain_cons.mp h.back.right_of_append).1 w (by simp)
    exact ⟨⟨w, by simp, rfl⟩, by rw [h.stored w (by simp), hback]⟩

/-- A block that keeps the headers in front of `u` still leads to `u`. -/
theorem Formed.leads_to (h' : Formed t b' us) (h : Formed t b (l ++ u :: r))
    (hkeep : ∀ a < u.offset, b'.mem a = b.mem a) : ∃ v ∈ us, v.offset = u.offset := by
  induction l using List.reverseRecOn generalizing u r with
  | nil =>
    rw [(h.first u (by simp)).1]
    cases us with
    | nil => exact absurd rfl h'.nonempty
    | cons v vs => exact ⟨v, by simp, (h'.first v (by simp)).1⟩
  | append_singleton l p ih =>
    have hp : Formed t b (l ++ p :: u :: r) := by simpa using h
    have hlt : p.offset < u.offset := h.tiled.before_lt (by simp)
    have hlead := ih hp fun a ha => hkeep a (ha.trans hlt)
    have hnext : (b'.mem p.offset).next = some u.offset := by
      rw [hkeep _ hlt, hp.tiled.mem_eq, hp.tiled.next_eq]
      rfl
    exact (h'.next_back hlead hnext).1

/-- A unit cut in two at `q`, with the unit at `c` behind it pointing back elsewhere. -/
theorem cut_breaks (h : Formed t b (l ++ u :: r)) {q c o s₁ s₂ : ℤ} {pr : Option ℤ}
    (hq : u.offset < q) (hcq : c ≠ q) (hcu : c ≠ u.offset) (hc : (b.mem c).prev ≠ some q) :
    ¬ Formed t ((b.iWriteHeadInfo u.offset o s₁ false pr (some q)).iWriteHeadInfo q q s₂ true
      (some u.offset) (some c)) us := by
  intro h'
  have hlead := h'.leads_to h fun a ha => by
    rw [Block.iWriteHeadInfo, Block.modify_mem_ne _ _ _ _ (ha.trans hq).ne, Block.iWriteHeadInfo,
      Block.modify_mem_ne _ _ _ _ ha.ne]
  have hcut := h'.next_back hlead (c := q) (by
    rw [Block.iWriteHeadInfo, Block.modify_mem_ne _ _ _ _ hq.ne]
    simp [Block.iWriteHeadInfo])
  have hstale := (h'.next_back hcut.1 (c := c) (by simp [Block.iWriteHeadInfo])).2
  rw [Block.iWriteHeadInfo, Block.modify_mem_ne _ _ _ _ hcq, Block.iWriteHeadInfo,
    Block.modify_mem_ne _ _ _ _ hcu] at hstale
  exact hc hstale

/-- A unit joined with the one behind it, with the unit at `c` behind both pointing back to the
one that is gone. -/
theorem join_breaks (h : Formed t b (l ++ u :: r)) {c o s₁ : ℤ} {pr : Option ℤ}
    (hcu : c ≠ u.offset) (hc : (b.mem c).prev ≠ some u.offset) :
    ¬ Formed t ((b.iWriteHeadInfo u.offset o s₁ false pr (some c)).addFree (-1)) us := by
  intro h'
  have hlead := h'.leads_to h fun a ha => by
    rw [Block.addFree_mem, Block.iWriteHeadInfo, Block.modify_mem_ne _ _ _ _ ha.ne]
  have hstale := (h'.next_back hlead (c := c) (by simp [Block.iWriteHeadInfo])).2
  rw [Block.addFree_mem, Block.iWriteHeadInfo, Block.modify_mem_ne _ _ _ _ hcu] at hstale
  exact hc hstale

end Stale

section Exact
variable {t : Target} {s : Session}

theorem alloc_breaks (hg : s.Good t) {size : ℤ} (hsize : 0 < size)
    (hbad : ¬ s.CutsLast t (.alloc size)) :
    ∀ s', s.exec t (.alloc size) = some s' → ∀ us, ¬ Formed t s'.block us := by
  obtain ⟨us, hwf, -⟩ := hg
  simp only [Session.CutsLast, not_forall, not_or] at hbad
  obtain ⟨cur, prev, hfind, hnext, hrest⟩ := hbad
  rcases hwf.tiled.bestMatch_spec size with hnone | ⟨l, u, r, rfl, hfind', -, -⟩
  · simp [hnone] at hfind
  obtain ⟨rfl, rfl⟩ : u.offset = cur ∧ u.prev = prev := by
    rw [hfind'] at hfind
    simpa using hfind
  rw [hwf.tiled.mem_eq] at hnext hrest
  cases r with
  | nil => exact absurd (by simpa using hwf.tiled.next_eq) hnext
  | cons n r =>
    have hpos := sizeofAllocUnit_pos t
    have hun : u.next = some n.offset ∧ n.offset = u.offset + u.size :=
      (List.isChain_cons.mp hwf.follows.right_of_append).1 n (by simp)
    have hback : n.prev = some u.offset :=
      (List.isChain_cons.mp hwf.back.right_of_append).1 n (by simp)
    have hn : s.block.mem n.offset = n := hwf.stored n (by simp)
    intro s' hrun us'
    have hblock : s'.block = s.block.takeUnit t u.offset u.prev size := by
      simp only [Session.exec, allocBuffer_found hfind'] at hrun
      exact (Option.some.inj hrun) ▸ rfl
    rw [hblock, hwf.tiled.takeUnit_cut hrest, hun.1]
    refine cut_breaks hwf.toFormed (by omega) (by omega) (by omega) ?_
    rw [hn, hback]
    simp only [ne_eq, Option.some.injEq]
    omega

theorem realloc_breaks (hg : s.Good t) {buf newSize : ℤ} (hbuf : buf ∈ s.live)
    (hnew : 0 < newSize) (hbad : ¬ s.CutsLast t (.realloc buf newSize)) :
    ∀ s', s.exec t (.realloc buf newSize) = some s' → ∀ us, ¬ Formed t s'.block us := by
  obtain ⟨us, hwf, hlive⟩ := hg
  obtain ⟨l, u, r, rfl, -, rfl⟩ := hwf.split_live ((hlive buf).mp hbuf)
  have hpos := sizeofAllocUnit_pos t
  have hcur : u.offset + sizeofAllocUnit t - sizeofAllocUnit t = u.offset := by omega
  simp only [Session.CutsLast, hcur, hwf.tiled.mem_eq, not_or, not_le, not_exists, not_and] at hbad
  obtain ⟨hgrow, hbad⟩ := hbad
  intro s' hrun us'
  simp only [Session.exec] at hrun
  cases r with
  | nil =>
    -- the last unit: `next` is null
    simp [hwf.tiled.realloc_last hgrow] at hrun
  | cons n r =>
    have hun : u.next = some n.offset ∧ n.offset = u.offset + u.size :=
      (List.isChain_cons.mp hwf.follows.right_of_append).1 n (by simp)
    have hn : s.block.mem n.offset = n := hwf.stored n (by simp)
    obtain ⟨hfree, hroom, hnext⟩ := hbad n.offset hun.1
    rw [hn] at hfree hroom hnext
    have hfree : n.bfree = true := by simpa using hfree
    have hwf' : WellFormed t s.block ((l ++ [u]) ++ n :: r) := by simpa using hwf
    cases r with
    | nil => exact absurd (by simpa using hwf'.tiled.next_eq) hnext
    | cons m r =>
      have husize := hwf.tiled.size_pos (v := u) (by simp)
      have hsize := hwf.tiled.size_pos (v := n) (by simp)
      have hnm : n.next = some m.offset ∧ m.offset = n.offset + n.size :=
        (List.isChain_cons.mp hwf'.follows.right_of_append).1 m (by simp)
      have hm : s.block.mem m.offset = m := hwf.stored m (by simp)
      have hback : m.prev = some n.offset :=
        (List.isChain_cons.mp hwf'.back.right_of_append).1 m (by simp)
      have hroom := not_lt.mp hroom
      by_cases hrest : u.size + n.size - sizeofAllocUnit t - newSize ≤ sizeofAllocUnit t
      · rw [hwf.tiled.realloc_join hgrow hfree hroom hrest, hnm.1] at hrun
        obtain rfl := Option.some.inj hrun
        refine join_breaks hwf.toFormed (by omega) ?_
        rw [hm, hback]
        simp only [ne_eq, Option.some.injEq]
        omega
      · rw [hwf.tiled.realloc_cut hgrow hfree hroom hrest, hnm.1] at hrun
        obtain rfl := Option.some.inj hrun
        refine cut_breaks hwf.toFormed (by omega) (by omega) (by omega) ?_
        rw [hm, hback]
        simp only [ne_eq, Option.some.injEq]
        omega

/-- A call outside the condition is undefined or leaves a block whose links disagree. -/
theorem exec_breaks (hg : s.Good t) {c : Call} (hadm : s.Admissible c)
    (hbad : ¬ s.CutsLast t c) :
    ∀ s', s.exec t c = some s' → ∀ us, ¬ Formed t s'.block us := by
  cases c with
  | alloc size => exact alloc_breaks hg hadm hbad
  | realloc buf newSize => exact realloc_breaks hg hadm.1 hadm.2 hbad
  | free buf => exact absurd trivial hbad

end Exact

/-! ## Runs -/

theorem reach_good {t : Target} {junk : ℤ → AllocUnit} {s : Session}
    (h : Reach (Session.step t) (Session.CutsLast t) (Session.fresh junk) s) : s.Good t := by
  refine h.invariant (fresh_good t junk) fun u c v hu hok hstep => ?_
  unfold Session.step at hstep
  split at hstep
  · next hadm =>
    obtain ⟨v', hv', hgood⟩ := exec_good hu hadm hok
    rw [hv'] at hstep
    exact Option.some.inj hstep ▸ hgood
  · simp at hstep

/-- **Sessions within the condition.** In every state reached the block is well formed, and the
next admissible call is defined and leads to a well-formed block exactly when it is within the
condition. -/
theorem session_wellFormed (t : Target) (junk : ℤ → AllocUnit) (s : Session)
    (h : Reach (Session.step t) (Session.CutsLast t) (Session.fresh junk) s) :
    (∃ us, WellFormed t s.block us) ∧
    ∀ c, s.Admissible c →
      ((∃ s', s.step t c = some s' ∧ ∃ us, WellFormed t s'.block us) ↔ s.CutsLast t c) := by
  have hg := reach_good h
  refine ⟨⟨hg.choose, hg.choose_spec.1⟩, fun c hadm => ?_⟩
  simp only [Session.step, if_pos hadm]
  constructor
  · rintro ⟨s', hrun, us, hwf⟩
    by_contra hbad
    exact exec_breaks hg hadm hbad s' hrun us hwf.toFormed
  · intro hok
    obtain ⟨s', hrun, us, hwf, -⟩ := exec_good hg hadm hok
    exact ⟨s', hrun, us, hwf⟩

theorem session_wellFormed_alloc_free :
    ∃ s, run (Session.step .x86) (Session.fresh fun _ => blank) [.alloc 100, .free 20] = some s ∧
      ∃ us, WellFormed .x86 s.block us := by
  refine ⟨_, rfl, (session_wellFormed .x86 (fun _ => blank) _ (Reach.tail (Reach.tail .refl
    (a := .alloc 100) ?_ rfl) (a := .free 20) trivial rfl)).1⟩
  rintro cur prev hfind
  obtain ⟨rfl, rfl⟩ : (0 : ℤ) = cur ∧ none = prev := by
    have : (Session.fresh fun _ => blank).block.bestMatch .x86 100 = .ok (some (0, none)) := rfl
    rw [this] at hfind
    simpa using hfind
  exact .inl rfl

/-- The third call below frees the first unit, and the fourth cuts it in two: the unit behind it
still points back to the first half. -/
theorem cut_loses_back_link :
    ∃ s, run (Session.step .x86) (Session.fresh fun _ => blank)
        [.alloc 100, .alloc 100, .free 20, .alloc 10] = some s ∧
      ¬ ∃ us, WellFormed .x86 s.block us := by
  refine ⟨_, rfl, ?_⟩
  rintro ⟨us, hwf⟩
  have h0 : ∃ v ∈ us, v.offset = 0 := by
    cases us with
    | nil => exact absurd rfl hwf.nonempty
    | cons v vs => exact ⟨v, by simp, (hwf.first v (by simp)).1⟩
  have h30 := hwf.toFormed.next_back h0 (c := 30) rfl
  have h120 := (hwf.toFormed.next_back h30.1 (c := 120) rfl).2
  have hstale : some (0 : ℤ) = some 30 := h120
  simp at hstale

end DevFramework.MemPool
