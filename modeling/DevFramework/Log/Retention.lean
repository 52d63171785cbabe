import DevFramework.Log.Expiry

/-! # Which log files are left

The map holds one file for each second in which a file of the log was created, and only files of
the map are deleted. So as many files are left as are to be kept if every second has one file, and
more if not.
-/
namespace DevFramework.Log
open OrderedMap
set_option autoImplicit false
set_option maxHeartbeats 250000

/-- What the check is for: the files of the log that are left are the latest ones, as many as are
to be kept, and other files are not touched. -/
structure Retains (info : LogInitInfo) (folder folder' : Folder) : Prop where
  others : (folder'.files.filter fun f => ¬ info.OfLog f) =
    folder.files.filter fun f => ¬ info.OfLog f
  kept : (folder'.logs info).Sublist (folder.logs info)
  count : ((folder'.logs info).length : ℤ) = min info.expired (folder.logs info).length
  latest : ∀ f ∈ folder.logs info, f ∉ folder'.logs info → ∀ g ∈ folder'.logs info,
    f.creation.ticks ≤ g.creation.ticks

def LogFile.second (f : LogFile) : ℤ := f.creation.toTimeT

section
variable {info : LogInitInfo} {folder : Folder} {dir : Text}

/-! ## The map -/

/-- The map has the paths of the files under their seconds. -/
theorem fileMap_eq (dir : Text) {fs : List LogFile} (h : ∀ f ∈ fs, f ∈ folder.files) :
    fileMap folder dir (fs.map (LogFile.path dir)) = index LogFile.second (LogFile.path dir) fs := by
  induction fs with
  | nil => rfl
  | cons f fs ih =>
    have htail := ih fun g hg => h g (List.mem_cons_of_mem f hg)
    simp only [fileMap, index, List.map_cons, List.foldr_cons] at htail ⊢
    rw [htail, Folder.attributes_path dir (h f List.mem_cons_self)]
    rfl

/-- The first file of its second, which is the one that the map has. -/
def Represents (fs : List LogFile) (f : LogFile) : Prop :=
  fs.find? (fun g => g.second = f.second) = some f

/-- Under a second the map has the path of a file of the folder only if that file represents it. -/
theorem lookup_path_iff {fs : List LogFile} (h : ∀ f ∈ fs, f ∈ folder.files) {f : LogFile}
    (hf : f ∈ folder.files) (key : ℤ) :
    (index LogFile.second (LogFile.path dir) fs).lookup key = some (f.path dir) ↔
      f.second = key ∧ f ∈ fs ∧ Represents fs f := by
  rw [lookup_index, Option.map_eq_some_iff]
  constructor
  · rintro ⟨g, hg, hpath⟩
    have hmem := List.mem_of_find?_eq_some hg
    obtain rfl := Folder.eq_of_path (h g hmem) hf hpath
    obtain rfl : g.second = key := by simpa using List.find?_some hg
    exact ⟨rfl, hmem, hg⟩
  · rintro ⟨rfl, -, hrep⟩
    exact ⟨f, hrep, rfl⟩

/-! ## The loop -/

/-- The loop ends, with the files of the first keys deleted. -/
theorem deleteFirst_spec (limit : ℕ) (dir : Text) (fuel : ℕ) (m : Map ℤ Text) (folder : Folder)
    (hfuel : m.keys.length < fuel) (hpath : ∀ key path, m.lookup key = some path → path ≠ []) :
    ∃ (keys : List ℤ) (folder' : Folder), deleteFirst limit dir fuel m folder = some folder' ∧
      (folder'.files = folder.files.filter fun f => ∀ key ∈ keys, m.lookup key ≠ some (f.path dir)) ∧
      keys.Nodup ∧ keys ⊆ m.keys ∧ keys.length = m.keys.length - limit ∧
      ∀ a ∈ keys, ∀ b ∈ m.keys, b ∉ keys → a < b := by
  induction fuel generalizing m folder with
  | zero => exact absurd hfuel (Nat.not_lt_zero _)
  | succ fuel ih =>
    by_cases hsize : m.keys.length ≤ limit
    · refine ⟨[], folder, by rw [deleteFirst, if_pos hsize], ?_, List.nodup_nil,
        List.nil_subset _, by simp; omega, nofun⟩
      simp
    · obtain ⟨key, hkey⟩ : ∃ key, firstKey? m = some key := by
        refine Option.ne_none_iff_exists'.mp fun hnone => hsize ?_
        rw [List.argmin_eq_none.mp hnone]
        exact Nat.zero_le _
      have hmem := firstKey?_mem hkey
      obtain ⟨path, hlookup⟩ := Option.isSome_iff_exists.mp (AList.lookup_isSome.mpr hmem)
      have hne : path.isEmpty = false := by simpa using hpath key path hlookup
      have hkeys : (m.erase key).keys = m.keys.erase key := AList.keys_erase key m
      have hlength : (m.erase key).keys.length = m.keys.length - 1 := by
        rw [hkeys, List.length_erase_of_mem (AList.mem_keys.mp hmem)]
      obtain ⟨keys, folder', hrun, hfiles, hnodup, hsubset, hcount, hfirst⟩ :=
        ih (m.erase key) (folder.delete dir path) (by omega) fun k p hk => by
          by_cases h : k = key
          · rw [h, AList.lookup_erase] at hk
            cases hk
          · exact hpath k p (by rwa [AList.lookup_erase_ne h] at hk)
      have hother : ∀ k ∈ m.keys, k ≠ key → k ∈ (m.erase key).keys := fun k hk h => by
        rw [hkeys]
        exact (List.mem_erase_of_ne h).mpr hk
      have hrest : ∀ k ∈ keys, k ∈ m.keys ∧ k ≠ key := fun k hk => by
        have := hsubset hk
        rw [hkeys, m.keys_nodup.mem_erase_iff] at this
        exact ⟨this.2, this.1⟩
      refine ⟨key :: keys, folder', ?_, ?_, ?_, ?_, ?_, ?_⟩
      · rw [deleteFirst, if_neg hsize, hkey]
        simp only [hlookup, hne, Bool.false_eq_true, if_false]
        exact hrun
      · rw [hfiles, Folder.delete, List.filter_filter]
        refine List.filter_congr fun f _ => ?_
        have hlater : (∀ k ∈ keys, (m.erase key).lookup k ≠ some (f.path dir)) ↔
            ∀ k ∈ keys, m.lookup k ≠ some (f.path dir) :=
          forall₂_congr fun k hk => by rw [AList.lookup_erase_ne (hrest k hk).2]
        have hsome : some path ≠ some (f.path dir) ↔ f.path dir ≠ path := by
          rw [ne_eq, Option.some.injEq, eq_comm]
        rw [← Bool.decide_and, decide_eq_decide, hlater, List.forall_mem_cons, hlookup, hsome, and_comm]
      · exact List.nodup_cons.mpr ⟨fun h => (hrest key h).2 rfl, hnodup⟩
      · exact List.cons_subset.mpr ⟨AList.mem_keys.mp hmem, fun k hk => (hrest k hk).1⟩
      · simp only [List.length_cons]
        omega
      · intro a ha b hb hnot
        rw [List.mem_cons, not_or] at hnot
        rcases List.mem_cons.mp ha with rfl | ha
        · exact lt_of_le_of_ne (firstKey?_le hkey (AList.mem_keys.mpr hb)) (Ne.symm hnot.1)
        · exact hfirst a ha b (hother b hb hnot.1) hnot.2

/-! ## The files that are left -/

/-- The file is deleted when the entries of these seconds are. -/
def Gone (fs : List LogFile) (seconds : List ℤ) (f : LogFile) : Prop :=
  f.second ∈ seconds ∧ Represents fs f

instance (fs : List LogFile) (seconds : List ℤ) (f : LogFile) : Decidable (Gone fs seconds f) :=
  inferInstanceAs (Decidable (_ ∧ _ = _))

theorem length_gone {fs : List LogFile} (hfs : fs.Nodup) {seconds : List ℤ}
    (hnodup : seconds.Nodup) (hsub : seconds ⊆ fs.map LogFile.second) :
    (fs.filter fun f => Gone fs seconds f).length = seconds.length := by
  have hmap : ((fs.filter fun f => Gone fs seconds f).map LogFile.second).Nodup := by
    refine List.Nodup.map_on (fun f hf g hg heq => ?_) (hfs.filter _)
    have hrep : Represents fs f := (of_decide_eq_true (List.mem_filter.mp hf).2).2
    have hrep' : Represents fs g := (of_decide_eq_true (List.mem_filter.mp hg).2).2
    rw [Represents, heq] at hrep
    exact Option.some.inj (hrep.symm.trans hrep')
  rw [← List.length_map LogFile.second]
  refine ((List.perm_ext_iff_of_nodup hmap hnodup).mpr fun k => ?_).length_eq
  simp only [List.mem_map, List.mem_filter, decide_eq_true_eq]
  constructor
  · rintro ⟨f, ⟨-, hgone⟩, rfl⟩
    exact hgone.1
  · intro hk
    obtain ⟨g, hg, hgk⟩ := List.mem_map.mp (hsub hk)
    obtain ⟨f, hfind⟩ : ∃ f, fs.find? (fun f => f.second = k) = some f :=
      Option.isSome_iff_exists.mp (List.find?_isSome.mpr ⟨g, hg, by simpa using hgk⟩)
    have hfk : f.second = k := by simpa using List.find?_some hfind
    refine ⟨f, ⟨List.mem_of_find?_eq_some hfind, by rwa [hfk], ?_⟩, hfk⟩
    rw [Represents, hfk]
    exact hfind

theorem length_left {fs : List LogFile} (hfs : fs.Nodup) {seconds : List ℤ}
    (hnodup : seconds.Nodup) (hsub : seconds ⊆ fs.map LogFile.second) :
    (fs.filter fun f => ¬ Gone fs seconds f).length = fs.length - seconds.length := by
  have hsplit := List.length_eq_length_filter_add (l := fs) fun f => decide (Gone fs seconds f)
  rw [length_gone hfs hnodup hsub] at hsplit
  simp only [decide_not]
  omega

theorem logs_nodup (folder : Folder) (info : LogInitInfo) : (folder.logs info).Nodup :=
  (List.Nodup.of_map _ folder.nodup).filter _

theorem logs_files {folder : Folder} {info : LogInitInfo} {f : LogFile}
    (h : f ∈ folder.logs info) : f ∈ folder.files := List.mem_of_mem_filter h

theorem mem_logs {folder : Folder} {info : LogInitInfo} {f : LogFile} (hf : f ∈ folder.files) :
    f ∈ folder.logs info ↔ info.OfLog f := by
  simp only [Folder.logs, List.mem_filter, hf, true_and, decide_eq_true_eq]

/-- The check ends; it deletes the first files of the first seconds, and no others. -/
theorem iCheckExpired_spec (t : Target) (info : LogInitInfo) (folder : Folder)
    (hk : 0 ≤ info.expired) (hmax : info.expired ≤ intMax) :
    ∃ (seconds : List ℤ) (folder' : Folder), iCheckExpired t info folder = some folder' ∧
      (folder'.files.filter fun f => ¬ info.OfLog f) =
        (folder.files.filter fun f => ¬ info.OfLog f) ∧
      folder'.logs info = (folder.logs info).filter (fun f => ¬ Gone (folder.logs info) seconds f) ∧
      seconds.Nodup ∧ seconds ⊆ (folder.logs info).map LogFile.second ∧
      seconds.length = ((folder.logs info).map LogFile.second).dedup.length - info.expired.toNat ∧
      ∀ a ∈ seconds, ∀ b ∈ (folder.logs info).map LogFile.second, b ∉ seconds → a < b := by
  have hlogs : ∀ f ∈ folder.logs info, f ∈ folder.files := fun f hf => logs_files hf
  have hlimit : toSize t info.expired = info.expired.toNat := by
    simp only [intMax] at hmax
    exact toSize_of_nonneg t hk (by omega)
  have hmap := fileMap_eq info.path hlogs
  obtain ⟨keys, folder', hrun, hfiles, hnodup, hsubset, hcount, hfirst⟩ :=
    deleteFirst_spec info.expired.toNat info.path
      ((index LogFile.second (LogFile.path info.path) (folder.logs info)).keys.length + 1)
      (index LogFile.second (LogFile.path info.path) (folder.logs info)) folder (Nat.lt_succ_self _)
      fun key path hkey => by
        rw [lookup_index, Option.map_eq_some_iff] at hkey
        obtain ⟨f, -, rfl⟩ := hkey
        simp [LogFile.path]
  have hkeys : ∀ k, k ∈ (index LogFile.second (LogFile.path info.path) (folder.logs info)).keys ↔
      k ∈ (folder.logs info).map LogFile.second := mem_keys_index (folder.logs info)
  have hgone : ∀ f ∈ folder.files, (∀ key ∈ keys,
      (index LogFile.second (LogFile.path info.path) (folder.logs info)).lookup key ≠
        some (f.path info.path)) ↔ ¬ (f ∈ folder.logs info ∧ Gone (folder.logs info) keys f) := by
    intro f hf
    simp only [ne_eq, lookup_path_iff hlogs hf, Gone]
    constructor
    · rintro h ⟨hlog, hsecond, hrep⟩
      exact h _ hsecond ⟨rfl, hlog, hrep⟩
    · rintro h key hkey ⟨rfl, hlog, hrep⟩
      exact h ⟨hlog, hkey, hrep⟩
  refine ⟨keys, folder', ?_, ?_, ?_, hnodup, fun k hk => (hkeys k).mp (hsubset hk), ?_, ?_⟩
  · rw [iCheckExpired, hlimit, iCollectFiles, hmap]
    exact hrun
  · rw [hfiles, List.filter_filter]
    refine List.filter_congr fun f hf => ?_
    rw [← Bool.decide_and, decide_eq_decide, hgone f hf, mem_logs hf]
    exact ⟨fun h => h.1, fun h => ⟨h, fun hdel => h hdel.1⟩⟩
  · have hsplit : (folder.logs info).filter (fun f => ¬ Gone (folder.logs info) keys f) =
        folder.files.filter fun f =>
          decide (¬ Gone (folder.logs info) keys f) && decide (info.OfLog f) := List.filter_filter
    rw [hsplit, Folder.logs, hfiles, List.filter_filter]
    refine List.filter_congr fun f hf => ?_
    rw [← Bool.decide_and, ← Bool.decide_and, decide_eq_decide, hgone f hf, mem_logs hf, and_comm,
      and_congr_left_iff]
    exact fun hlog => not_congr (and_iff_right hlog)
  · rw [hcount, length_keys_index]
  · exact fun a ha b hb hnot => hfirst a ha b ((hkeys b).mpr hb) hnot

end

/-! ## The condition -/

/-- The check ends, and it leaves the latest files, as many as are to be kept, exactly if there are
no more than that or no two of them were created in one second. -/
theorem check_expired_iff (t : Target) (info : LogInitInfo) (folder : Folder)
    (hk : 1 ≤ info.expired) (hmax : info.expired ≤ intMax) :
    ∃ folder', iCheckExpired t info folder = some folder' ∧ (Retains info folder folder' ↔
      ((folder.logs info).length : ℤ) ≤ info.expired ∨
        ((folder.logs info).map LogFile.second).Nodup) := by
  obtain ⟨seconds, folder', hrun, hothers, hleft, hnodup, hsub, hcount, hfirst⟩ :=
    iCheckExpired_spec t info folder (by omega) hmax
  refine ⟨folder', hrun, ?_⟩
  have hlogs := logs_nodup folder info
  have hlength := length_left hlogs hnodup hsub
  rw [← hleft] at hlength
  have hmost := (List.dedup_sublist ((folder.logs info).map LogFile.second)).length_le
  have hfull : ((folder.logs info).map LogFile.second).dedup.length =
      ((folder.logs info).map LogFile.second).length ↔
      ((folder.logs info).map LogFile.second).Nodup := by
    rw [← List.dedup_eq_self]
    exact ⟨(List.dedup_sublist _).eq_of_length, congrArg List.length⟩
  rw [List.length_map] at hmost hfull
  constructor
  · intro h
    have hleftCount := h.count
    by_contra hnot
    push Not at hnot
    exact hnot.2 (hfull.mp (by omega))
  · intro hcond
    refine ⟨hothers, hleft ▸ List.filter_sublist, ?_, fun f hf hgone g hg => ?_⟩
    · rcases hcond with hfew | hdistinct
      · omega
      · have := hfull.mpr hdistinct
        omega
    · -- a file that is gone is one of a first second, and a file that is left is not
      have hfgone : Gone (folder.logs info) seconds f := by
        by_contra hno
        rw [hleft] at hgone
        exact hgone (List.mem_filter.mpr ⟨hf, decide_eq_true hno⟩)
      rw [hleft] at hg
      obtain ⟨hglog, hgleft⟩ := List.mem_filter.mp hg
      rcases hcond with hfew | hdistinct
      · have hnone : seconds = [] := List.length_eq_zero_iff.mp (by omega)
        rw [hnone] at hfgone
        exact absurd hfgone.1 List.not_mem_nil
      · have hrep : Represents (folder.logs info) g := by
          obtain ⟨g', hfind⟩ : ∃ g', (folder.logs info).find? (fun f => f.second = g.second) =
              some g' := Option.isSome_iff_exists.mp (List.find?_isSome.mpr ⟨g, hglog, by simp⟩)
          have hsecond : g'.second = g.second := by simpa using List.find?_some hfind
          rw [Represents, hfind, List.inj_on_of_nodup_map hdistinct
            (List.mem_of_find?_eq_some hfind) hglog hsecond]
        have hnotin : g.second ∉ seconds := fun hin => of_decide_eq_true hgleft ⟨hin, hrep⟩
        have hlt := hfirst f.second hfgone.1 g.second (List.mem_map_of_mem hglog) hnotin
        by_contra hlater
        exact absurd (FileTime.toTimeT_mono (le_of_not_ge hlater)) (not_le.mpr hlt)

/-- A file of the log `a`, created so many ticks after a fixed time. -/
def sample (d : Char) (ticks : Fin 10000000) : LogFile :=
  ⟨['a', '_', d], ⟨BitVec.ofNat 32 ticks, 0x01d00000, by decide⟩⟩

theorem check_expired_one :
    ∃ folder', iCheckExpired .x64 ⟨['a'], [], 1⟩ ⟨[sample '1' 5], by decide⟩ = some folder' ∧
      Retains ⟨['a'], [], 1⟩ ⟨[sample '1' 5], by decide⟩ folder' := by
  obtain ⟨folder', hrun, hiff⟩ := check_expired_iff .x64 ⟨['a'], [], 1⟩ ⟨[sample '1' 5], by decide⟩
    le_rfl (by decide)
  exact ⟨folder', hrun, hiff.mpr (.inl (by decide +kernel))⟩

/-- One file is to be kept, and two that were created in one second are left. -/
theorem same_second_left :
    ∃ folder', iCheckExpired .x64 ⟨['a'], [], 1⟩ ⟨[sample '1' 5, sample '2' 9], by decide⟩ =
        some folder' ∧ folder'.logs ⟨['a'], [], 1⟩ = [sample '1' 5, sample '2' 9] ∧
      ¬ Retains ⟨['a'], [], 1⟩ ⟨[sample '1' 5, sample '2' 9], by decide⟩ folder' := by
  refine ⟨_, rfl, by decide +kernel, fun h => ?_⟩
  exact absurd h.count (by decide +kernel)

end DevFramework.Log
