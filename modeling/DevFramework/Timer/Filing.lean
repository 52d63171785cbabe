import DevFramework.Timer.Manager

/-! # The two maps

`sid_map_` keeps an entry after its task is dispatched, so it may lead to a bucket that is gone or
holds other tasks only. A filed task, though, is always found under the entry of its timer, and no
other task of that timer is filed.
-/
namespace DevFramework.Timer
open OrderedMap
set_option autoImplicit false
set_option maxHeartbeats 250000

/-! ## Buckets and the index -/

/-- A filed task is in the bucket of its deadline, `sid_map_` has that deadline under its timer's
id, and no timer has two tasks filed. -/
structure Filed (sidMap : Map ℤ ℤ) (timeWaitMap : Map ℤ (List Posted)) : Prop where
  bucket : ∀ k l, timeWaitMap.lookup k = some l → ∀ e ∈ l, e.task.timeout = k
  indexed : ∀ e ∈ items timeWaitMap, sidMap.lookup e.task.sid = some e.task.timeout
  single : ((items timeWaitMap).map fun e => e.task.sid).Nodup

theorem find_perm {α : Type*} (p : α → Bool) (l : List α) :
    ((l.find? p).toList ++ l.eraseP p).Perm l := by
  induction l with
  | nil => rfl
  | cons a l ih =>
    by_cases h : p a = true
    · simp [h]
    · rw [List.find?_cons_of_neg h, List.eraseP_cons_of_neg h]
      exact List.perm_middle.trans (ih.cons a)

theorem lookup_setBucket {m : Map ℤ (List Posted)} {k k' : ℤ} {rest l : List Posted}
    (h : (Manager.setBucket m k' rest).lookup k = some l) :
    k = k' ∧ l = rest ∨ k ≠ k' ∧ m.lookup k = some l := by
  unfold Manager.setBucket at h
  by_cases hk : k = k'
  · subst hk
    split at h
    · rw [AList.lookup_erase] at h
      cases h
    · rw [AList.lookup_insert] at h
      exact .inl ⟨rfl, (Option.some.inj h).symm⟩
  · split at h
    · rw [AList.lookup_erase_ne hk] at h
      exact .inr ⟨hk, h⟩
    · rw [AList.lookup_insert_ne hk] at h
      exact .inr ⟨hk, h⟩

theorem items_setBucket (m : Map ℤ (List Posted)) (k : ℤ) (rest : List Posted) :
    items (Manager.setBucket m k rest) = rest ++ items (m.erase k) := by
  unfold Manager.setBucket
  cases h : rest.isEmpty with
  | true => rw [List.isEmpty_iff.mp h]; rfl
  | false => exact items_insert k rest m

section Filing
variable {sidMap : Map ℤ ℤ} {timeWaitMap : Map ℤ (List Posted)}

theorem Filed.found (h : Filed sidMap timeWaitMap) {e : Posted} (he : e ∈ items timeWaitMap) :
    ∃ l, timeWaitMap.lookup e.task.timeout = some l ∧ e ∈ l := by
  obtain ⟨k, l, hl, hel⟩ := mem_items.mp he
  rw [h.bucket k l hl e hel]
  exact ⟨l, hl, hel⟩

theorem Filed.sub {tw : Map ℤ (List Posted)} (h : Filed sidMap timeWaitMap)
    (hbucket : ∀ k l, tw.lookup k = some l → ∃ l', timeWaitMap.lookup k = some l' ∧ l ⊆ l')
    (hsub : ∃ gone, (items timeWaitMap).Perm (gone ++ items tw)) : Filed sidMap tw := by
  obtain ⟨gone, hperm⟩ := hsub
  refine ⟨?_, fun e he => h.indexed e (hperm.mem_iff.mpr (List.mem_append_right gone he)), ?_⟩
  · intro k l hl e he
    obtain ⟨l', hl', hle⟩ := hbucket k l hl
    exact h.bucket k l' hl' e (hle he)
  · have hnodup := (hperm.map fun e => e.task.sid).nodup_iff.mp h.single
    rw [List.map_append] at hnodup
    exact hnodup.of_append_right

/-- A bucket that is taken out. -/
theorem Filed.erase (h : Filed sidMap timeWaitMap) (time : ℤ) :
    Filed sidMap (timeWaitMap.erase time) := by
  apply h.sub
  · intro k l hl
    by_cases hk : k = time
    · subst hk
      rw [AList.lookup_erase] at hl
      cases hl
    · rw [AList.lookup_erase_ne hk] at hl
      exact ⟨l, hl, List.Subset.refl l⟩
  · exact ⟨_, items_perm time timeWaitMap⟩

/-- Once no task of a timer is filed, its index entry may change. -/
theorem Filed.reindex {sm : Map ℤ ℤ} {sid : ℤ} (h : Filed sidMap timeWaitMap)
    (hno : ∀ e ∈ items timeWaitMap, e.task.sid ≠ sid)
    (hsm : ∀ a, a ≠ sid → sm.lookup a = sidMap.lookup a) : Filed sm timeWaitMap := by
  refine ⟨h.bucket, fun e he => ?_, h.single⟩
  rw [hsm _ (hno e he)]
  exact h.indexed e he

/-- A new task of a timer that has none filed. -/
theorem Filed.enqueue (h : Filed sidMap timeWaitMap) {e : Posted}
    (hno : ∀ e' ∈ items timeWaitMap, e'.task.sid ≠ e.task.sid) :
    Filed (sidMap.insert e.task.sid e.task.timeout)
      (timeWaitMap.insert e.task.timeout
        ((timeWaitMap.lookup e.task.timeout).getD [] ++ [e])) := by
  have hperm : (items (timeWaitMap.insert e.task.timeout
      ((timeWaitMap.lookup e.task.timeout).getD [] ++ [e]))).Perm (e :: items timeWaitMap) := by
    rw [items_insert, List.append_assoc]
    exact List.perm_middle.trans ((items_perm e.task.timeout timeWaitMap).symm.cons e)
  refine ⟨?_, ?_, ?_⟩
  · intro k l hl e' he'
    by_cases hk : k = e.task.timeout
    · subst hk
      rw [AList.lookup_insert] at hl
      obtain rfl := Option.some.inj hl
      rcases List.mem_append.mp he' with he' | he'
      · cases hold : timeWaitMap.lookup e.task.timeout with
        | none => simp [hold] at he'
        | some l => exact h.bucket _ l hold e' (by simpa [hold] using he')
      · rw [List.mem_singleton.mp he']
    · rw [AList.lookup_insert_ne hk] at hl
      exact h.bucket k l hl e' he'
  · intro e' he'
    rcases List.mem_cons.mp (hperm.mem_iff.mp he') with rfl | he'
    · exact AList.lookup_insert _
    · rw [AList.lookup_insert_ne (hno e' he')]
      exact h.indexed e' he'
  · rw [(hperm.map fun e => e.task.sid).nodup_iff, List.map_cons, List.nodup_cons]
    refine ⟨fun hmem => ?_, h.single⟩
    obtain ⟨e', he', heq⟩ := List.mem_map.mp hmem
    exact hno e' he' heq

end Filing

/-! ## Cancelling -/

/-- A cancel moves the timer's filed task, if it has one, to the cancel list. -/
theorem removeTask_spec (s : Manager) (sid : ℤ) (h : Filed s.sidMap s.timeWaitMap) :
    Filed (s.removeTask sid).sidMap (s.removeTask sid).timeWaitMap ∧
    (∀ e ∈ items (s.removeTask sid).timeWaitMap, e.task.sid ≠ sid) ∧
    ∃ found, (items s.timeWaitMap).Perm (found ++ items (s.removeTask sid).timeWaitMap) ∧
      (s.removeTask sid).cancelList = s.cancelList ++ found := by
  unfold Manager.removeTask
  split
  · rename_i hsid
    refine ⟨h, fun e he heq => ?_, [], .refl _, (List.append_nil _).symm⟩
    have := h.indexed e he
    rw [heq, hsid] at this
    cases this
  · rename_i tmpTime hsid
    -- a filed task of this timer can only be in the bucket of the recorded deadline
    have htime : ∀ e ∈ items s.timeWaitMap, e.task.sid = sid → e.task.timeout = tmpTime := by
      intro e he heq
      have := h.indexed e he
      rw [heq, hsid] at this
      exact (Option.some.inj this).symm
    split
    · rename_i hbucket
      have hno : ∀ e ∈ items s.timeWaitMap, e.task.sid ≠ sid := by
        intro e he heq
        obtain ⟨l, hl, -⟩ := h.found he
        rw [htime e he heq, hbucket] at hl
        cases hl
      exact ⟨h.reindex hno fun a ha => AList.lookup_erase_ne ha, hno, [], .refl _,
        (List.append_nil _).symm⟩
    · rename_i waitList hbucket
      have hperm : (items s.timeWaitMap).Perm
          ((waitList.find? fun e => e.task.sid = sid).toList ++
            items (Manager.setBucket s.timeWaitMap tmpTime
              (waitList.eraseP fun e => e.task.sid = sid))) := by
        have hall := items_perm tmpTime s.timeWaitMap
        rw [hbucket, Option.getD_some] at hall
        rw [items_setBucket, ← List.append_assoc]
        exact hall.trans ((find_perm _ waitList).symm.append_right _)
      have hno : ∀ e ∈ items (Manager.setBucket s.timeWaitMap tmpTime
          (waitList.eraseP fun e => e.task.sid = sid)), e.task.sid ≠ sid := by
        intro e he heq
        have hmem : e ∈ items s.timeWaitMap := hperm.mem_iff.mpr (List.mem_append_right _ he)
        obtain ⟨l, hl, hel⟩ := h.found hmem
        rw [htime e hmem heq, hbucket] at hl
        obtain rfl := Option.some.inj hl
        cases hfind : waitList.find? (fun e => e.task.sid = sid) with
        | none =>
          have := List.find?_eq_none.mp hfind e hel
          simp [heq] at this
        | some e₀ =>
          have he₀ : e₀.task.sid = sid := by simpa using List.find?_some hfind
          have hnodup := (hperm.map fun e => e.task.sid).nodup_iff.mp h.single
          rw [hfind, Option.toList_some, List.singleton_append, List.map_cons,
            List.nodup_cons] at hnodup
          exact hnodup.1 (List.mem_map.mpr ⟨e, he, heq.trans he₀.symm⟩)
      refine ⟨?_, hno, _, hperm, rfl⟩
      refine Filed.reindex (h.sub ?_ ⟨_, hperm⟩) hno fun a ha => AList.lookup_erase_ne ha
      intro k l hl
      rcases lookup_setBucket hl with ⟨rfl, rfl⟩ | ⟨-, hl⟩
      · exact ⟨waitList, hbucket, List.eraseP_subset⟩
      · exact ⟨l, hl, List.Subset.refl l⟩

theorem cancelOwn_spec (s : Manager) (sid : ℤ) (h : Filed s.sidMap s.timeWaitMap) :
    Filed (s.cancelOwn sid).sidMap (s.cancelOwn sid).timeWaitMap ∧
    (∀ e ∈ items (s.cancelOwn sid).timeWaitMap, e.task.sid ≠ sid) ∧
    ∃ found, (items s.timeWaitMap).Perm (found ++ items (s.cancelOwn sid).timeWaitMap) ∧
      (s.cancelOwn sid).cancelList = s.cancelList ++ found := by
  unfold Manager.cancelOwn
  split
  · exact removeTask_spec s sid h
  · rename_i hsid
    refine ⟨h, fun e he heq => hsid ?_, [], .refl _, (List.append_nil _).symm⟩
    rw [← heq, h.indexed e he]
    rfl

/-! ## Who changes the maps -/

theorem items_erase_subset {m : Map ℤ (List Posted)} (k : ℤ) : items (m.erase k) ⊆ items m :=
  fun _ he => (items_perm k m).mem_iff.mpr (List.mem_append_right _ he)

/-- A post, a cancel, the extraction of a bucket, and `uninit`. -/
theorem maps_step {s t : Manager} {a : Action} (hs : step s a = some t) :
    (∃ task, a = .post task ∧ t = s.iPostTask task) ∨ (∃ sid, a = .cancel sid ∧ t = s.iCancel sid) ∨
    t.accepted = s.accepted ∧
      (t.sidMap = s.sidMap ∧ t.timeWaitMap = s.timeWaitMap ∧ t.exit = s.exit ∧
          (a = .taskStep → s.taskThread ≠ .extract) ∨
        t.sidMap = s.sidMap ∧ t.timeWaitMap = s.timeWaitMap.erase s.tmpTime ∧ t.exit = s.exit ∧
          a = .taskStep ∧ s.taskThread = .extract ∨
        t.sidMap = ∅ ∧ t.timeWaitMap = ∅ ∧ a = .uninit) := by
  cases a with
  | post task =>
    cases hs
    exact .inl ⟨task, rfl, rfl⟩
  | cancel sid =>
    cases hs
    exact .inr (.inl ⟨sid, rfl, rfl⟩)
  | postSetsEvent | cancelSetsEvent =>
    simp only [step] at hs
    split at hs <;> cases hs
    exact .inr (.inr ⟨rfl, .inl ⟨rfl, rfl, rfl, fun h => by cases h⟩⟩)
  | taskStep =>
    simp only [step, Manager.taskStep] at hs
    split at hs <;> rename_i hpc
    case h_6 =>
      cases hs
      exact .inr (.inr ⟨rfl, .inr (.inl ⟨rfl, rfl, rfl, rfl, hpc⟩)⟩)
    all_goals
      have hother : s.taskThread ≠ .extract := by
        rw [hpc]
        intro h
        cases h
    case h_5 | h_11 =>
      split at hs <;> cases hs
      exact .inr (.inr ⟨rfl, .inl ⟨rfl, rfl, rfl, fun _ => hother⟩⟩)
    case h_12 => cases hs
    all_goals
      cases hs
      exact .inr (.inr ⟨rfl, .inl ⟨rfl, rfl, rfl, fun _ => hother⟩⟩)
  | taskTimeout =>
    simp only [step, Manager.taskTimeout] at hs
    split at hs
    · split at hs <;> cases hs
      exact .inr (.inr ⟨rfl, .inl ⟨rfl, rfl, rfl, fun h => by cases h⟩⟩)
    · cases hs
  | cancelStep =>
    obtain ⟨_, _, _, _, rfl⟩ := Manager.cancelStep_frame hs
    exact .inr (.inr ⟨rfl, .inl ⟨rfl, rfl, rfl, fun h => by cases h⟩⟩)
  | tick ms =>
    cases hs
    exact .inr (.inr ⟨rfl, .inl ⟨rfl, rfl, rfl, fun h => by cases h⟩⟩)
  | uninit =>
    obtain ⟨_, _, _, _, _, rfl, -, -⟩ | rfl := Manager.uninitStep_frame hs
    · exact .inr (.inr ⟨rfl, .inl ⟨rfl, rfl, rfl, fun h => by cases h⟩⟩)
    · exact .inr (.inr ⟨rfl, .inr (.inr ⟨rfl, rfl, rfl⟩)⟩)

end DevFramework.Timer
