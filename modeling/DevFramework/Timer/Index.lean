import DevFramework.Timer.Filing

/-! # The two indexes

`sid_map_` is the index of the buckets by timer. A cancel erases its timer's entry together with
the task, and a post writes both; a dispatch takes the bucket out of `time_wait_map_` and leaves
the entries of its tasks in `sid_map_`.
-/
namespace DevFramework.Timer
open OrderedMap Transition
set_option autoImplicit false
set_option maxHeartbeats 250000

/-- The queued tasks of a timer. -/
def Manager.queuedOf (s : Manager) (sid : ℤ) : List Posted :=
  (items s.timeWaitMap).filter fun e => e.task.sid = sid

/-- `sid_map_` has a deadline for a timer exactly when one task of the timer is queued, in the
bucket of that deadline; no bucket is empty; `sid_map_` has no more entries than there are tasks. -/
structure IndexesAgree (s : Manager) : Prop where
  indexed : ∀ sid time, s.sidMap.lookup sid = some time ↔
    ∃ e, s.queuedOf sid = [e] ∧ e.task.timeout = time ∧
      ∃ l, s.timeWaitMap.lookup time = some l ∧ e ∈ l
  occupied : ∀ time l, s.timeWaitMap.lookup time = some l → l ≠ []
  small : s.sidMap.keys.length ≤ (items s.timeWaitMap).length

/-- Every entry of `sid_map_` has its task, and no bucket is empty. -/
structure Indexed (sidMap : Map ℤ ℤ) (timeWaitMap : Map ℤ (List Posted)) : Prop extends
    Filed sidMap timeWaitMap where
  pending : ∀ sid ∈ sidMap, ∃ e ∈ items timeWaitMap, e.task.sid = sid
  occupied : ∀ time l, timeWaitMap.lookup time = some l → l ≠ []

/-! ## The invariant is the agreement -/

theorem filter_single {l : List Posted} (h : (l.map fun e => e.task.sid).Nodup) {e : Posted}
    (he : e ∈ l) : l.filter (fun x => x.task.sid = e.task.sid) = [e] := by
  induction l with
  | nil => cases he
  | cons a l ih =>
    rw [List.map_cons, List.nodup_cons] at h
    have hrest : ∀ x ∈ l, x.task.sid ≠ a.task.sid := fun x hx heq =>
      h.1 (List.mem_map.mpr ⟨x, hx, heq⟩)
    cases he with
    | head =>
      rw [List.filter_cons_of_pos (by simp), List.filter_eq_nil_iff.mpr]
      intro x hx
      simpa using hrest x hx
    | tail _ he =>
      rw [List.filter_cons_of_neg (by simpa using (hrest e he).symm)]
      exact ih h.2 he

section Agreement
variable {s : Manager}

theorem Indexed.indexed_iff (h : Indexed s.sidMap s.timeWaitMap) (sid time : ℤ) :
    s.sidMap.lookup sid = some time ↔
      ∃ e, s.queuedOf sid = [e] ∧ e.task.timeout = time ∧
        ∃ l, s.timeWaitMap.lookup time = some l ∧ e ∈ l := by
  constructor
  · intro hsid
    obtain ⟨e, he, rfl⟩ := h.pending sid (AList.lookup_isSome.mp (by rw [hsid]; rfl))
    have htime := h.toFiled.indexed e he
    rw [hsid] at htime
    obtain rfl := Option.some.inj htime
    exact ⟨e, filter_single h.single he, rfl, h.toFiled.found he⟩
  · rintro ⟨e, hone, rfl, -⟩
    have hmem : e ∈ s.queuedOf sid := by
      rw [hone]
      exact List.mem_singleton_self e
    obtain ⟨he, hsid⟩ := List.mem_filter.mp hmem
    have hsid : e.task.sid = sid := by simpa using hsid
    rw [← hsid]
    exact h.toFiled.indexed e he

theorem Indexed.agree (h : Indexed s.sidMap s.timeWaitMap) : IndexesAgree s := by
  refine ⟨h.indexed_iff, h.occupied, ?_⟩
  have hsub : s.sidMap.keys ⊆ (items s.timeWaitMap).map fun e => e.task.sid := by
    intro sid hsid
    obtain ⟨e, he, rfl⟩ := h.pending sid hsid
    exact List.mem_map.mpr ⟨e, he, rfl⟩
  have hle := (List.subperm_of_subset s.sidMap.keys_nodup hsub).length_le
  rwa [List.length_map] at hle

/-- An entry without a queued task. -/
theorem not_agree {sid : ℤ} (hsid : sid ∈ s.sidMap)
    (hno : ∀ e ∈ items s.timeWaitMap, e.task.sid ≠ sid) : ¬ IndexesAgree s := by
  intro h
  obtain ⟨time, htime⟩ := Option.isSome_iff_exists.mp (AList.lookup_isSome.mpr hsid)
  obtain ⟨e, hone, -⟩ := (h.indexed sid time).mp htime
  have hmem : e ∈ s.queuedOf sid := by
    rw [hone]
    exact List.mem_singleton_self e
  obtain ⟨he, heq⟩ := List.mem_filter.mp hmem
  exact hno e he (by simpa using heq)

end Agreement

/-! ## Post, cancel and dispatch -/

section Operations
variable {s : Manager}

theorem occupied_setBucket {m : Map ℤ (List Posted)} (k' : ℤ) (rest : List Posted)
    (h : ∀ time l, m.lookup time = some l → l ≠ []) :
    ∀ time l, (Manager.setBucket m k' rest).lookup time = some l → l ≠ [] := by
  intro time l hl
  rcases lookup_setBucket hl with ⟨rfl, rfl⟩ | ⟨-, hold⟩
  · rintro rfl
    rw [Manager.setBucket, List.isEmpty_nil, if_pos rfl, AList.lookup_erase] at hl
    cases hl
  · exact h time l hold

/-- A cancel keeps the tasks of the other timers. -/
theorem removeTask_keeps (s : Manager) {sid : ℤ} {e : Posted} (he : e ∈ items s.timeWaitMap)
    (hne : e.task.sid ≠ sid) : e ∈ items (s.removeTask sid).timeWaitMap := by
  unfold Manager.removeTask
  split
  · exact he
  · rename_i tmpTime hsid
    split
    · exact he
    · rename_i waitList hbucket
      rw [items_setBucket]
      have hall := (items_perm tmpTime s.timeWaitMap).mem_iff.mp he
      rw [hbucket, Option.getD_some] at hall
      rcases List.mem_append.mp hall with hin | hout
      · apply List.mem_append_left
        exact (List.mem_eraseP_of_neg (by simpa using hne)).mpr hin
      · exact List.mem_append_right _ hout

/-- A cancel erases the timer's entry and no other. -/
theorem removeTask_lookup (s : Manager) (sid : ℤ) :
    (s.removeTask sid).sidMap.lookup sid = none ∧
      ∀ a, a ≠ sid → (s.removeTask sid).sidMap.lookup a = s.sidMap.lookup a := by
  unfold Manager.removeTask
  split
  · rename_i hsid
    exact ⟨hsid, fun a _ => rfl⟩
  · split
    · exact ⟨AList.lookup_erase _ _, fun a ha => AList.lookup_erase_ne ha⟩
    · exact ⟨AList.lookup_erase _ _, fun a ha => AList.lookup_erase_ne ha⟩

theorem removeTask_occupied (s : Manager) (sid : ℤ)
    (h : ∀ time l, s.timeWaitMap.lookup time = some l → l ≠ []) :
    ∀ time l, (s.removeTask sid).timeWaitMap.lookup time = some l → l ≠ [] := by
  unfold Manager.removeTask
  split
  · exact h
  · split
    · exact h
    · exact occupied_setBucket _ _ h

theorem indexed_removeTask (h : Indexed s.sidMap s.timeWaitMap) (sid : ℤ) :
    Indexed (s.removeTask sid).sidMap (s.removeTask sid).timeWaitMap ∧
      sid ∉ (s.removeTask sid).sidMap := by
  obtain ⟨hnone, hother⟩ := removeTask_lookup s sid
  have hgone : sid ∉ (s.removeTask sid).sidMap := AList.lookup_eq_none.mp hnone
  refine ⟨⟨(removeTask_spec s sid h.toFiled).1, ?_, removeTask_occupied s sid h.occupied⟩, hgone⟩
  intro a ha
  have hne : a ≠ sid := fun heq => hgone (heq ▸ ha)
  have hold : a ∈ s.sidMap := by
    rw [← AList.lookup_isSome, hother a hne] at ha
    exact AList.lookup_isSome.mp ha
  obtain ⟨e, he, rfl⟩ := h.pending a hold
  exact ⟨e, removeTask_keeps s he hne, rfl⟩

theorem indexed_cancelOwn (h : Indexed s.sidMap s.timeWaitMap) (sid : ℤ) :
    Indexed (s.cancelOwn sid).sidMap (s.cancelOwn sid).timeWaitMap ∧
      sid ∉ (s.cancelOwn sid).sidMap := by
  unfold Manager.cancelOwn
  split
  · exact indexed_removeTask h sid
  · rename_i hsid
    exact ⟨h, fun hmem => hsid (AList.lookup_isSome.mpr hmem)⟩

/-- A new task of a timer without an entry. -/
theorem indexed_enqueue (h : Indexed s.sidMap s.timeWaitMap) {task : TimerTask}
    (hno : task.sid ∉ s.sidMap) :
    Indexed (s.enqueue task).sidMap (s.enqueue task).timeWaitMap := by
  have hnone : ∀ e ∈ items s.timeWaitMap, e.task.sid ≠ task.sid := by
    intro e he heq
    apply hno
    rw [← heq, ← AList.lookup_isSome, h.toFiled.indexed e he]
    rfl
  have hkeep : ∀ e ∈ items s.timeWaitMap, e ∈ items (s.enqueue task).timeWaitMap := by
    intro e he
    simp only [Manager.enqueue, items_insert, List.append_assoc]
    rcases List.mem_append.mp ((items_perm task.timeout s.timeWaitMap).mem_iff.mp he) with hin | hout
    · exact List.mem_append_left _ hin
    · exact List.mem_append_right _ (List.mem_append_right _ hout)
  refine ⟨h.toFiled.enqueue (e := ⟨s.accepted.length, task⟩) hnone, ?_, ?_⟩
  · intro sid hsid
    rcases (AList.mem_insert s.sidMap).mp hsid with rfl | hold
    · refine ⟨⟨s.accepted.length, task⟩, ?_, rfl⟩
      simp only [Manager.enqueue, items_insert, List.append_assoc]
      exact List.mem_append_right _ (List.mem_append_left _ (List.mem_singleton_self _))
    · obtain ⟨e, he, heq⟩ := h.pending sid hold
      exact ⟨e, hkeep e he, heq⟩
  · intro time l hl
    by_cases htime : time = task.timeout
    · subst htime
      rw [Manager.enqueue, AList.lookup_insert] at hl
      obtain rfl := Option.some.inj hl
      simp
    · rw [Manager.enqueue, AList.lookup_insert_ne htime] at hl
      exact h.occupied time l hl

/-- A dispatch without a bucket changes nothing in the maps. -/
theorem indexed_erase_none (h : Indexed s.sidMap s.timeWaitMap) {time : ℤ}
    (hnone : s.timeWaitMap.lookup time = none) :
    Indexed s.sidMap (s.timeWaitMap.erase time) := by
  have hperm := items_perm time s.timeWaitMap
  rw [hnone, Option.getD_none, List.nil_append] at hperm
  refine ⟨h.toFiled.erase time, ?_, ?_⟩
  · intro sid hsid
    obtain ⟨e, he, heq⟩ := h.pending sid hsid
    exact ⟨e, hperm.mem_iff.mp he, heq⟩
  · intro k l hl
    by_cases hk : k = time
    · subst hk
      rw [AList.lookup_erase] at hl
      cases hl
    · rw [AList.lookup_erase_ne hk] at hl
      exact h.occupied k l hl

/-- A dispatch with a bucket leaves an entry of one of its tasks behind. -/
theorem erase_leaves_entry (h : Indexed s.sidMap s.timeWaitMap) {time : ℤ} {l : List Posted}
    (hl : s.timeWaitMap.lookup time = some l) :
    ∃ sid ∈ s.sidMap, ∀ e ∈ items (s.timeWaitMap.erase time), e.task.sid ≠ sid := by
  obtain ⟨e, he⟩ := List.exists_mem_of_ne_nil l (h.occupied time l hl)
  have hperm := items_perm time s.timeWaitMap
  rw [hl, Option.getD_some] at hperm
  have hitem : e ∈ items s.timeWaitMap := hperm.mem_iff.mpr (List.mem_append_left _ he)
  refine ⟨e.task.sid, ?_, ?_⟩
  · rw [← AList.lookup_isSome, h.toFiled.indexed e hitem]
    rfl
  · intro e' he' heq
    have hnodup := (hperm.map fun e => e.task.sid).nodup_iff.mp h.single
    rw [List.map_append] at hnodup
    apply List.disjoint_of_nodup_append hnodup (List.mem_map.mpr ⟨e, he, rfl⟩)
    exact List.mem_map.mpr ⟨e', he', heq⟩

end Operations

/-! ## Runs -/

/-- The task thread finds no bucket to dispatch: its tasks were cancelled or posted again before it
came to extract them. -/
def DispatchesNothing (s : Manager) (a : Action) : Prop :=
  a = .taskStep → s.taskThread = .extract → s.timeWaitMap.lookup s.tmpTime = none

theorem indexed_init (now : ℤ) : Indexed (init now).sidMap (init now).timeWaitMap :=
  ⟨⟨nofun, nofun, List.nodup_nil⟩, nofun, nofun⟩

theorem indexed_step {s t : Manager} {a : Action} (h : Indexed s.sidMap s.timeWaitMap)
    (hok : DispatchesNothing s a) (hs : step s a = some t) : Indexed t.sidMap t.timeWaitMap := by
  rcases maps_step hs with ⟨task, rfl, rfl⟩ | ⟨sid, rfl, rfl⟩ | ⟨-, ⟨hsid, htime, -⟩ |
    ⟨hsid, htime, -, ha, hpc⟩ | ⟨hsid, htime, -⟩⟩
  · unfold Manager.iPostTask
    split
    · exact h
    · obtain ⟨hown, hno⟩ := indexed_cancelOwn h task.sid
      exact indexed_enqueue hown hno
  · unfold Manager.iCancel
    split
    · exact h
    · exact (indexed_removeTask h sid).1
  · rw [hsid, htime]
    exact h
  · rw [hsid, htime]
    exact indexed_erase_none h (hok ha hpc)
  · rw [hsid, htime]
    exact ⟨⟨nofun, nofun, List.nodup_nil⟩, nofun, nofun⟩

/-- In a run whose dispatches find no bucket the two indexes agree in every state, and the next step
keeps the agreement exactly when it is no dispatch of a bucket. -/
theorem indexes_agree (now : ℤ) (s : Manager) (h : Reach step DispatchesNothing (init now) s) :
    IndexesAgree s ∧
      ∀ a t, step s a = some t → (IndexesAgree t ↔ DispatchesNothing s a) := by
  have hinv : Indexed s.sidMap s.timeWaitMap :=
    h.invariant (indexed_init now) fun _ _ _ hi hok hs => indexed_step hi hok hs
  refine ⟨hinv.agree, fun a t hs => ⟨fun hagree ha hpc => ?_, fun hok => ?_⟩⟩
  · by_contra hbucket
    obtain ⟨l, hl⟩ := Option.ne_none_iff_exists'.mp hbucket
    obtain ⟨sid, hsid, hno⟩ := erase_leaves_entry hinv hl
    subst ha
    simp only [step, Manager.taskStep, hpc] at hs
    cases hs
    exact absurd hagree (not_agree hsid hno)
  · exact (indexed_step hinv hok hs).agree

/-- Two tasks of one timer, the second posted over the first and then cancelled. -/
theorem indexes_agree_reposted :
    ∃ s, run step (init 0) [.post ⟨1, 50, none⟩, .post ⟨1, 80, none⟩, .cancel 1] = some s ∧
      IndexesAgree s := by
  have hok : ∀ a ∈ [Action.post ⟨1, 50, none⟩, .post ⟨1, 80, none⟩, .cancel 1],
      ∀ u, DispatchesNothing u a := by
    intro a ha u
    rintro rfl
    simp at ha
  exact ⟨_, rfl, (indexes_agree 0 _ (Reach.of_run_ok hok rfl)).1⟩

/-- A task is dispatched, and its timer stays in `sid_map_`. -/
theorem dispatched_stays_indexed :
    ∃ s, run step (init 0) [.post ⟨1, 0, none⟩, .taskStep, .taskStep, .taskStep, .taskStep,
        .taskTimeout, .taskStep] = some s ∧
      s.sidMap.lookup 1 = some 0 ∧ items s.timeWaitMap = [] ∧ ¬ IndexesAgree s := by
  refine ⟨_, rfl, rfl, rfl, ?_⟩
  exact @not_agree _ 1 (AList.lookup_isSome.mp rfl) nofun

end DevFramework.Timer
