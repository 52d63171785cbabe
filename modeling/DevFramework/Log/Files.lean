import DevFramework.Log.DayChange

/-! # Which files the loggers write to

Between day changes every logger has `cur_fd_`: `init` and the rotation thread give it to all four.
The log calls and the day change exclude each other by `mutex_`; only `uninit` comes in between.
-/
namespace DevFramework.Log
open Transition
set_option autoImplicit false
set_option maxHeartbeats 250000

namespace Manager
variable {s t : Manager}

/-- `fd_` of logger `k` is null or the file that is open as `cur_fd_`. -/
def HasOpenFile (s : Manager) (k : ℕ) : Prop :=
  s.fds k = none ∨ ∃ fd, s.fds k = some fd ∧ s.curFd = some fd ∧ s.isOpen fd = true

/-- No logger is left with a file that is not the open one, and nothing went to a closed file. -/
structure Intact (s : Manager) : Prop where
  fds : ∀ k < loggerCount, s.rotation.HasFile k → s.HasOpenFile k
  uses : ∀ u ∈ s.uses, u.isOpen = true

/-- An `uninit` looks at `cur_fd_` only where no file is open. -/
def ClosesNothing (s : Manager) (a : Action) : Prop :=
  ∀ j, a = .uninitStep j → s.uninits[j]? = some (.close .test) → s.curFd = none

/-- What a log call relies on. -/
def CallOk (s : Manager) (j : ℕ) : LogCall → Prop
  | .locking logger _ => logger < loggerCount
  | .testing logger _ => logger < loggerCount ∧ s.mutex = some (.caller j)
  | .calling fd _ => s.mutex = some (.caller j) ∧ s.curFd = some fd
  | .returned => True

structure Current (s : Manager) : Prop where
  files : FilesOk s.rotation s.curFd s.fds s.isOpen s.opened
  locked : s.mutex = some .rotation ↔ s.rotation.isLocked = true
  calls : ∀ j call, s.calls[j]? = some call → s.CallOk j call
  uses : ∀ u ∈ s.uses, u.isOpen = true

theorem Current.not_isLocked (h : Current s) (hmutex : s.mutex ≠ some .rotation) :
    s.rotation.isLocked = false := by
  rw [← Bool.not_eq_true]
  exact mt h.locked.mpr hmutex

/-- The loggers with a closed file are those between the `fclose` and their `reset_fd`. -/
theorem Current.hasOpenFile_iff (h : Current s) {k : ℕ} (hk : k < loggerCount) :
    s.HasOpenFile k ↔ s.rotation.HasFile k ∨ s.fds k = none := by
  constructor
  · rintro (hnone | ⟨fd, hfd, -, hopen⟩)
    · exact .inr hnone
    · by_contra hcon
      obtain ⟨hstale, -⟩ := not_or.mp hcon
      rw [h.files.replaced k hk hstale fd hfd] at hopen
      cases hopen
  · rintro (hfile | hnone)
    · have hfd := h.files.reset k hk hfile
      cases hcur : s.curFd with
      | none => exact .inl (hfd.trans hcur)
      | some fd =>
        have hopen := h.files.current (RotationPc.not_isClearing_of_hasFile hfile) fd hcur
        exact .inr ⟨fd, hfd.trans hcur, hcur, hopen⟩
    · exact .inl hnone

theorem init_filesOk (now : ℕ) (opens : Bool) :
    FilesOk .loop (init now opens).curFd (init now opens).fds (init now opens).isOpen
      (init now opens).opened where
  current := by
    intro _ fd hfd
    cases opens with
    | true =>
      obtain rfl := Option.some.inj hfd
      exact Function.update_self (0 : ℕ) true (fun _ => false)
    | false => cases hfd
  reset := fun _ _ _ => rfl
  replaced := fun _ _ hstale => absurd trivial hstale
  made := by
    intro fd hfd
    have hcur : (init now opens).curFd = some fd := by
      obtain hcur | ⟨k, -, hk⟩ := hfd
      · exact hcur
      · exact hk
    cases opens with
    | true =>
      obtain rfl := Option.some.inj hcur
      exact Nat.one_pos
    | false => cases hcur
  loaded := fun _ hfd => by cases hfd

theorem init_current (now : ℕ) (opens : Bool) : Current (init now opens) where
  files := by cases opens <;> exact init_filesOk now _
  locked := by cases opens <;> exact ⟨nofun, nofun⟩
  calls := by cases opens <;> nofun
  uses := by cases opens <;> nofun

/-- The open file is used. -/
theorem Current.uses_append {fd : ℕ} (h : Current s) (hcur : s.curFd = some fd)
    (hlocked : s.rotation.isLocked = false) (output : Output) :
    ∀ u ∈ s.uses ++ [⟨output, fd, s.isOpen fd⟩], u.isOpen = true := by
  intro u hu
  obtain hold | hnew := List.mem_append.mp hu
  · exact h.uses u hold
  · rw [List.mem_singleton.mp hnew]
    exact h.files.current (s.rotation.not_isClearing_of_not_isLocked hlocked) fd hcur

/-! ## The log calls -/

/-- While no log call holds `mutex_`, none relies on anything that changes. -/
theorem CallOk.of_free {j : ℕ} {call : LogCall} (h : s.CallOk j call)
    (hfree : s.mutex ≠ some (.caller j)) : t.CallOk j call := by
  cases call with
  | locking logger output => exact h
  | testing logger output => exact absurd h.2 hfree
  | calling fd output => exact absurd h.1 hfree
  | returned => trivial

theorem CallOk.frame {j : ℕ} {call : LogCall} (h : s.CallOk j call) (hm : t.mutex = s.mutex)
    (hc : t.curFd = s.curFd) : t.CallOk j call := by
  cases call with
  | locking logger output => exact h
  | testing logger output => exact ⟨h.1, hm.trans h.2⟩
  | calling fd output => exact ⟨hm.trans h.1, hc.trans h.2⟩
  | returned => trivial

/-- A call moves, and takes `mutex_`, keeps it or releases it. -/
theorem Current.setCall {j : ℕ} {call call' : LogCall} (h : Current s) (hj : s.calls[j]? = some call)
    (m : Option Holder) (us : List Use) (hmutex : s.mutex = none ∨ s.mutex = some (.caller j))
    (hm : m ≠ some .rotation) (hus : ∀ u ∈ us, u.isOpen = true)
    (hok : CallOk { s with mutex := m } j call') :
    Current { s.setCall j call' with mutex := m, uses := us } where
  files := h.files
  locked := by
    have hnot : s.mutex ≠ some .rotation := by
      obtain hs | hs := hmutex <;> rw [hs] <;> nofun
    exact iff_of_false hm (mt h.locked.mpr hnot)
  calls := by
    intro k c hk
    obtain ⟨hlt, -⟩ := List.getElem?_eq_some_iff.mp hj
    by_cases hkj : k = j
    · subst hkj
      simp only [Manager.setCall, List.getElem?_set_self hlt, Option.some.injEq] at hk
      subst hk
      exact hok.frame rfl rfl
    · simp only [Manager.setCall, List.getElem?_set_ne (Ne.symm hkj)] at hk
      apply (h.calls k c hk).of_free
      obtain hs | hs := hmutex <;> rw [hs]
      · nofun
      · exact fun heq => hkj (Holder.caller.inj (Option.some.inj heq)).symm
  uses := hus

/-- A log call in possession of `mutex_` is outside every day change. -/
theorem Current.not_isLocked_of_caller {j : ℕ} (h : Current s) (hmine : s.mutex = some (.caller j)) :
    s.rotation.isLocked = false := by
  apply h.not_isLocked
  rw [hmine]
  nofun

theorem Current.logStep {j : ℕ} (h : Current s) (hs : s.logStep j = some t) : Current t := by
  unfold Manager.logStep at hs
  split at hs
  case h_1 logger output hj =>
    split at hs
    · rename_i hfree
      obtain rfl := Option.some.inj hs
      exact h.setCall hj _ s.uses (.inl hfree) nofun h.uses ⟨h.calls j _ hj, rfl⟩
    · cases hs
  case h_2 logger output hj =>
    obtain ⟨hlt, hmine⟩ := h.calls j _ hj
    split at hs
    · rename_i fd hfd
      obtain rfl := Option.some.inj hs
      have hfile := s.rotation.hasFile_of_not_isLocked (h.not_isLocked_of_caller hmine) logger
      have hcur := h.files.reset logger hlt hfile
      exact h.setCall hj s.mutex s.uses (.inr hmine) (by rw [hmine]; nofun) h.uses
        ⟨hmine, hcur.symm.trans hfd⟩
    · obtain rfl := Option.some.inj hs
      exact h.setCall hj none s.uses (.inr hmine) nofun h.uses trivial
  case h_3 fd output hj =>
    obtain rfl := Option.some.inj hs
    obtain ⟨hmine, hcur⟩ := h.calls j _ hj
    exact h.setCall hj none _ (.inr hmine) nofun
      (h.uses_append hcur (h.not_isLocked_of_caller hmine) output) trivial
  case h_4 => cases hs

/-! ## The rotation thread -/

/-- The rotation thread holds `mutex_`: no call relies on anything. -/
theorem Current.calls_locked (h : Current s) (hlocked : s.rotation.isLocked = true)
    (hc : t.calls = s.calls) (j : ℕ) (call : LogCall) (hj : t.calls[j]? = some call) :
    t.CallOk j call := by
  have hmutex := h.locked.mpr hlocked
  rw [hc] at hj
  apply (h.calls j call hj).of_free
  rw [hmutex]
  nofun

/-- The rotation thread moves outside its day change and flushes at most what is open. -/
theorem Current.outside (h : Current s) (pc : RotationPc) (hs : s.rotation.isLocked = false)
    (hpc : pc.isLocked = false) (hloaded : ∀ fd, pc.loaded = some fd → fd = s.curFd)
    (us : List Use) (hus : ∀ u ∈ us, u.isOpen = true) :
    Current (setRotation { s with uses := us } pc) where
  files := h.files.outside hs hpc hloaded
  locked := by
    refine iff_of_false (mt h.locked.mp ?_) ?_
    · rw [hs]
      nofun
    · show ¬ pc.isLocked = true
      rw [hpc]
      nofun
  calls := fun j call hj => (h.calls j call hj).frame rfl rfl
  uses := hus

/-- A step inside the day change. -/
theorem Current.inside {pc : RotationPc} (h : Current s) (hs : s.rotation.isLocked = true)
    (hpc : pc.isLocked = true) (hm : t.mutex = s.mutex) (hc : t.calls = s.calls)
    (hus : t.uses = s.uses) (hfiles : FilesOk pc t.curFd t.fds t.isOpen t.opened) :
    Current (t.setRotation pc) where
  files := hfiles
  locked := iff_of_true (hm.trans (h.locked.mpr hs)) hpc
  calls := h.calls_locked hs hc
  uses := by
    show ∀ u ∈ t.uses, _
    rw [hus]
    exact h.uses

/-- The day change begins: no call relies on anything while `mutex_` is free. -/
theorem Current.lock {now : ℕ} (h : Current s) (hpc : s.rotation = .lock now)
    (hfree : s.mutex = none) :
    Current { s.setRotation (.close now .test) with mutex := some .rotation } where
  files := by
    have hall : ∀ k, RotationPc.HasFile k s.rotation := by
      rw [hpc]
      exact fun _ => trivial
    exact h.files.move (by rw [hpc]; rfl) (fun k _ => iff_of_true trivial (hall k)) fun _ => nofun
  locked := iff_of_true rfl rfl
  calls := by
    intro j call hj
    apply (h.calls j call hj).of_free
    rw [hfree]
    nofun
  uses := h.uses

/-- It ends: all loggers have been reset. -/
theorem Current.unlock (h : Current s) (hpc : s.rotation = .unlock) :
    Current { s.setRotation .sleep with mutex := none } where
  files := by
    have hfiles := h.files
    rw [hpc] at hfiles
    exact hfiles.move rfl (fun _ _ => Iff.rfl) fun _ => nofun
  locked := iff_of_false nofun nofun
  calls := h.calls_locked (by rw [hpc]; rfl) rfl
  uses := h.uses

/-- `i_close_log_file` in the day change. -/
theorem Current.close {now now' : ℕ} {pc : ClosePc} {opens : Bool} (h : Current s)
    (hpc : s.rotation = .close now' pc) (hs : s.rotate now opens = some t) : Current t := by
  have hlocked : s.rotation.isLocked = true := by rw [hpc]; rfl
  have hfiles := h.files
  rw [hpc] at hfiles
  simp only [Manager.rotate, hpc] at hs
  cases pc with
  | test =>
    cases hcur : s.curFd with
    | none =>
      simp only [closeLogFile, hcur] at hs
      obtain rfl := Option.some.inj hs
      rw [hcur] at hfiles
      refine h.inside hlocked rfl rfl rfl rfl ?_
      rw [hcur]
      exact hfiles.reopen_of_none fun _ _ => trivial
    | some fd =>
      simp only [closeLogFile, hcur] at hs
      obtain rfl := Option.some.inj hs
      exact h.inside hlocked rfl rfl rfl rfl
        (hfiles.move rfl (fun _ _ => Iff.rfl) fun _ hfd => by cases hfd)
  | load =>
    obtain rfl := Option.some.inj hs
    exact h.inside hlocked rfl rfl rfl rfl
      (hfiles.move rfl (fun _ _ => Iff.rfl) fun _ hfd => (Option.some.inj hfd).symm)
  | fclose fd =>
    obtain rfl := Option.some.inj hs
    obtain rfl : fd = s.curFd := hfiles.loaded fd rfl
    cases hcur : s.curFd with
    | none =>
      refine h.inside (t := s) hlocked rfl rfl rfl rfl ?_
      apply hfiles.fclose fun _ _ => trivial
      rw [hcur]
      nofun
    | some fd =>
      refine h.inside (t := s.fclose (some fd)) hlocked rfl rfl rfl rfl ?_
      apply hfiles.fclose fun _ _ => trivial
      intro fd' hfd'
      rw [hcur] at hfd'
      rw [← Option.some.inj hfd']
      exact Function.update_self fd false s.isOpen
  | clear =>
    obtain rfl := Option.some.inj hs
    exact h.inside hlocked rfl rfl rfl rfl (hfiles.without (fun _ => id) (fun _ => id) rfl)

theorem Current.rotate {now : ℕ} {opens : Bool} (h : Current s)
    (hs : s.rotate now opens = some t) : Current t := by
  have hfiles := h.files
  cases hpc : s.rotation with
  | close now' pc => exact h.close hpc hs
  | loop =>
    simp only [Manager.rotate, hpc] at hs
    obtain rfl := Option.some.inj hs
    refine h.outside _ (by rw [hpc]; rfl) ?_ ?_ s.uses h.uses <;> split <;>
      first | rfl | exact fun _ => nofun
  | testFlush =>
    simp only [Manager.rotate, hpc] at hs
    obtain rfl := Option.some.inj hs
    refine h.outside _ (by rw [hpc]; rfl) ?_ ?_ s.uses h.uses <;> split <;>
      first | rfl | exact fun _ => nofun
  | loadFlush =>
    simp only [Manager.rotate, hpc] at hs
    obtain rfl := Option.some.inj hs
    exact h.outside (.flush s.curFd) (by rw [hpc]; rfl) rfl
      (fun fd hfd => (Option.some.inj hfd).symm) s.uses h.uses
  | flush fd =>
    have hlocked : s.rotation.isLocked = false := by rw [hpc]; rfl
    have hcur : fd = s.curFd := hfiles.loaded fd (by rw [hpc]; rfl)
    cases fd with
    | none =>
      simp only [Manager.rotate, hpc] at hs
      obtain rfl := Option.some.inj hs
      exact h.outside .testDay hlocked rfl (fun _ => nofun) s.uses h.uses
    | some fd =>
      simp only [Manager.rotate, hpc] at hs
      obtain rfl := Option.some.inj hs
      exact h.outside .testDay hlocked rfl (fun _ => nofun) _
        (h.uses_append hcur.symm hlocked .flush)
  | testDay =>
    simp only [Manager.rotate, hpc] at hs
    obtain rfl := Option.some.inj hs
    refine h.outside _ (by rw [hpc]; rfl) ?_ ?_ s.uses h.uses <;> split <;>
      first | rfl | exact fun _ => nofun
  | lock now' =>
    simp only [Manager.rotate, hpc] at hs
    split at hs
    · rename_i hfree
      obtain rfl := Option.some.inj hs
      exact h.lock hpc hfree
    · cases hs
  | reopen now' =>
    simp only [Manager.rotate, hpc] at hs
    obtain rfl := Option.some.inj hs
    rw [hpc] at hfiles
    cases opens with
    | true =>
      exact h.inside (t := openLogFile { s with curTime := now' } true) (by rw [hpc]; rfl) rfl rfl rfl
        rfl hfiles.reopen
    | false =>
      exact h.inside (t := openLogFile { s with curTime := now' } false) (by rw [hpc]; rfl) rfl rfl rfl
        rfl (hfiles.without (fun _ => id) Nat.not_lt_zero rfl)
  | loadReset i =>
    simp only [Manager.rotate, hpc] at hs
    obtain rfl := Option.some.inj hs
    rw [hpc] at hfiles
    split
    · exact h.inside (by rw [hpc]; rfl) rfl rfl rfl rfl
        (hfiles.move rfl (fun _ _ => Iff.rfl) fun _ hfd => (Option.some.inj hfd).symm)
    · refine h.inside (by rw [hpc]; rfl) rfl rfl rfl rfl
        (hfiles.move rfl (fun k hk => iff_of_true trivial ?_) fun _ => nofun)
      show k < i
      omega
  | storeReset i fd =>
    simp only [Manager.rotate, hpc] at hs
    obtain rfl := Option.some.inj hs
    rw [hpc] at hfiles
    exact h.inside (t := s.resetFd i fd) (by rw [hpc]; rfl) rfl rfl rfl rfl hfiles.resetFd
  | unlock =>
    simp only [Manager.rotate, hpc] at hs
    obtain rfl := Option.some.inj hs
    exact h.unlock hpc
  | sleep =>
    simp only [Manager.rotate, hpc] at hs
    obtain rfl := Option.some.inj hs
    exact h.outside .loop (by rw [hpc]; rfl) rfl (fun _ => nofun) s.uses h.uses
  | ended =>
    simp only [Manager.rotate, hpc] at hs
    cases hs

theorem closeLogFile_uninits (s : Manager) (pc : ClosePc) :
    (s.closeLogFile pc).1.uninits = s.uninits := by
  cases pc with
  | fclose fd => cases fd <;> rfl
  | _ => rfl

/-- The rotation thread leaves the calls of `uninit` alone. -/
theorem rotate_uninits {now : ℕ} {opens : Bool} (hs : s.rotate now opens = some t) :
    t.uninits = s.uninits := by
  unfold Manager.rotate at hs
  split at hs
  case h_8 now' pc hpc =>
    have hkeep := s.closeLogFile_uninits pc
    split at hs <;> rename_i heq <;> rw [heq] at hkeep <;> rw [← Option.some.inj hs] <;> exact hkeep
  case h_9 => rw [← Option.some.inj hs]; cases opens <;> rfl
  case h_7 =>
    split at hs
    · rw [← Option.some.inj hs]; rfl
    · cases hs
  case h_14 => cases hs
  all_goals rw [← Option.some.inj hs]; rfl

theorem logStep_uninits {j : ℕ} (hs : s.logStep j = some t) : t.uninits = s.uninits := by
  unfold Manager.logStep at hs
  split at hs
  case h_4 => cases hs
  case h_3 => rw [← Option.some.inj hs]; rfl
  all_goals
    split at hs
    all_goals first | (rw [← Option.some.inj hs]; rfl) | cases hs

/-! ## `uninit` -/

/-- Every `uninit` under way has looked at `cur_fd_` in vain, or has yet to look. -/
def Idle (us : List UninitPc) : Prop :=
  ∀ pc, UninitPc.close pc ∈ us → pc = .test

theorem Idle.set {us : List UninitPc} {pc : UninitPc} (h : Idle us) (j : ℕ)
    (hpc : ∀ pc', pc ≠ .close pc') : Idle (us.set j pc) := by
  intro pc' hmem
  obtain hold | hnew := List.mem_or_eq_of_mem_set hmem
  · exact h pc' hold
  · exact absurd hnew.symm (hpc pc')

theorem Current.frame (h : Current s) (hr : t.rotation = s.rotation) (hcur : t.curFd = s.curFd)
    (hfds : t.fds = s.fds) (hopen : t.isOpen = s.isOpen) (hopened : t.opened = s.opened)
    (hm : t.mutex = s.mutex) (hc : t.calls = s.calls) (hus : t.uses = s.uses) : Current t where
  files := by
    rw [hr, hcur, hfds, hopen, hopened]
    exact h.files
  locked := by
    rw [hm, hr]
    exact h.locked
  calls := by
    intro j call hj
    rw [hc] at hj
    exact (h.calls j call hj).frame hm hcur
  uses := by
    rw [hus]
    exact h.uses

theorem Current.uninitStep {j : ℕ} (h : Current s) (hidle : Idle s.uninits)
    (hguard : ClosesNothing s (.uninitStep j)) (hs : s.uninitStep j = some t) :
    Current t ∧ Idle t.uninits := by
  unfold Manager.uninitStep at hs
  cases hj : s.uninits[j]? with
  | none =>
    simp only [hj] at hs
    cases hs
  | some pc =>
    cases pc with
    | close pc =>
      obtain rfl := hidle pc (List.mem_of_getElem? hj)
      have hcur := hguard j rfl hj
      simp only [hj, closeLogFile, hcur] at hs
      obtain rfl := Option.some.inj hs
      exact ⟨h.frame rfl rfl rfl rfl rfl rfl rfl rfl, hidle.set j fun _ => nofun⟩
    | clearRun =>
      simp only [hj] at hs
      obtain rfl := Option.some.inj hs
      exact ⟨h.frame rfl rfl rfl rfl rfl rfl rfl rfl, hidle.set j fun _ => nofun⟩
    | returned =>
      simp only [hj] at hs
      cases hs

theorem Current.step {a : Action} (h : Current s) (hidle : Idle s.uninits)
    (hguard : ClosesNothing s a) (hs : s.step a = some t) : Current t ∧ Idle t.uninits := by
  cases a with
  | log logger output =>
    simp only [Manager.step] at hs
    split at hs
    · rename_i hlt
      obtain rfl := Option.some.inj hs
      refine ⟨⟨h.files, h.locked, fun k call hk => ?_, h.uses⟩, hidle⟩
      by_cases hold : k < s.calls.length
      · rw [List.getElem?_append_left hold] at hk
        exact (h.calls k call hk).frame rfl rfl
      · rw [List.getElem?_append_right (by omega)] at hk
        rw [List.mem_singleton.mp (List.mem_of_getElem? hk)]
        exact hlt
    · cases hs
  | logStep j => exact ⟨h.logStep hs, by rw [logStep_uninits hs]; exact hidle⟩
  | rotate now opens => exact ⟨h.rotate hs, by rw [rotate_uninits hs]; exact hidle⟩
  | uninit =>
    obtain rfl := Option.some.inj hs
    refine ⟨h.frame rfl rfl rfl rfl rfl rfl rfl rfl, fun pc hpc => ?_⟩
    obtain hold | hnew := List.mem_append.mp hpc
    · exact hidle pc hold
    · exact UninitPc.close.inj (List.mem_singleton.mp hnew)
  | uninitStep j => exact h.uninitStep hidle hguard hs

/-! ## The converse -/

/-- Left to itself the rotation thread leaves its day change with the loggers on an open file. -/
def Finishes (s : Manager) : Prop :=
  ∃ u, Reachable step s u ∧ Current u ∧ u.rotation.isLocked = false ∧ u.curFd.isSome = true ∧
    u.uninits = s.uninits

theorem Finishes.of_rotate (h : Finishes t) (hs : s.rotate 0 true = some t) : Finishes s := by
  obtain ⟨u, hu, hcurrent, hlocked, hcur, hkeep⟩ := h
  have hstep : s.step (.rotate 0 true) = some t := hs
  exact ⟨u, (Reach.refl.tail trivial hstep).trans hu, hcurrent, hlocked, hcur,
    hkeep.trans (rotate_uninits hs)⟩

theorem Current.finishes_loadReset {i d : ℕ} (h : Current s) (hd : loggerCount - i = d)
    (hpc : s.rotation = .loadReset i) (hcur : s.curFd.isSome = true) : Finishes s := by
  induction d generalizing s i with
  | zero =>
    have hload : s.rotate 0 true = some (s.setRotation .unlock) := by
      simp only [Manager.rotate, hpc]
      rw [if_neg (by omega)]
    have hunlock : (s.setRotation .unlock).rotate 0 true =
        some { s.setRotation .sleep with mutex := none } := rfl
    have hdone := (h.rotate hload).rotate hunlock
    exact Finishes.of_rotate (.of_rotate ⟨_, .refl, hdone, rfl, hcur, rfl⟩ hunlock) hload
  | succ d ih =>
    have hload : s.rotate 0 true = some (s.setRotation (.storeReset i s.curFd)) := by
      simp only [Manager.rotate, hpc]
      rw [if_pos (by omega)]
    have hstore : (s.setRotation (.storeReset i s.curFd)).rotate 0 true =
        some ((s.resetFd i s.curFd).setRotation (.loadReset (i + 1))) := rfl
    have hrest := ih ((h.rotate hload).rotate hstore) (by omega) rfl hcur
    exact (hrest.of_rotate hstore).of_rotate hload

theorem Current.finishes_reopen {now : ℕ} (h : Current s) (hpc : s.rotation = .reopen now) :
    Finishes s := by
  have hopen : s.rotate 0 true =
      some ((openLogFile { s with curTime := now } true).setRotation (.loadReset 0)) := by
    simp only [Manager.rotate, hpc]
  exact ((h.rotate hopen).finishes_loadReset rfl rfl rfl).of_rotate hopen

theorem Current.finishes_clear {now : ℕ} (h : Current s) (hpc : s.rotation = .close now .clear) :
    Finishes s := by
  have hclear : s.rotate 0 true = some (setRotation { s with curFd := none } (.reopen now)) := by
    simp only [Manager.rotate, hpc, closeLogFile]
  exact ((h.rotate hclear).finishes_reopen rfl).of_rotate hclear

theorem Current.finishes_fclose {now : ℕ} {fd : Option ℕ} (h : Current s)
    (hpc : s.rotation = .close now (.fclose fd)) : Finishes s := by
  have hclose : s.rotate 0 true = some ((s.fclose fd).setRotation (.close now .clear)) := by
    simp only [Manager.rotate, hpc, closeLogFile]
  exact ((h.rotate hclose).finishes_clear rfl).of_rotate hclose

theorem Current.finishes_load {now : ℕ} (h : Current s) (hpc : s.rotation = .close now .load) :
    Finishes s := by
  have hload : s.rotate 0 true = some (s.setRotation (.close now (.fclose s.curFd))) := by
    simp only [Manager.rotate, hpc, closeLogFile]
  exact ((h.rotate hload).finishes_fclose rfl).of_rotate hload

/-- With a file open, any day change under way ends with a file open. -/
theorem Current.finishes (h : Current s) (hcur : s.curFd.isSome = true) : Finishes s := by
  cases hpc : s.rotation with
  | close now pc =>
    cases pc with
    | test =>
      have htest : s.rotate 0 true = some (s.setRotation (.close now .load)) := by
        simp only [Manager.rotate, hpc, closeLogFile, hcur, if_pos]
      exact ((h.rotate htest).finishes_load rfl).of_rotate htest
    | load => exact h.finishes_load hpc
    | fclose fd => exact h.finishes_fclose hpc
    | clear => exact h.finishes_clear hpc
  | reopen now => exact h.finishes_reopen hpc
  | loadReset i => exact h.finishes_loadReset rfl hpc hcur
  | storeReset i fd =>
    have hstore : s.rotate 0 true = some ((s.resetFd i fd).setRotation (.loadReset (i + 1))) := by
      simp only [Manager.rotate, hpc]
    exact ((h.rotate hstore).finishes_loadReset rfl rfl hcur).of_rotate hstore
  | unlock =>
    have hunlock : s.rotate 0 true = some { s.setRotation .sleep with mutex := none } := by
      simp only [Manager.rotate, hpc]
    exact Finishes.of_rotate ⟨_, .refl, h.rotate hunlock, rfl, hcur, rfl⟩ hunlock
  | _ => exact ⟨s, .refl, h, by rw [hpc]; rfl, hcur, rfl⟩

/-- An `uninit` that has found a file open may read `cur_fd_` after the day change, and closes the
file that the loggers have. -/
theorem uninit_breaks {a : Action} (h : Current s) (hs : s.step a = some t)
    (hguard : ¬ ClosesNothing s a) : ∃ u, Reachable step t u ∧ ¬ u.Intact := by
  simp only [ClosesNothing, not_forall] at hguard
  obtain ⟨j, rfl, hj, hcur⟩ := hguard
  have hsome : s.curFd.isSome = true := Option.isSome_iff_ne_none.mpr hcur
  simp only [Manager.step, Manager.uninitStep, hj, closeLogFile, hsome, if_pos] at hs
  obtain rfl := Option.some.inj hs
  have ht : Current (s.setUninit j (.close .load)) := h.frame rfl rfl rfl rfl rfl rfl rfl rfl
  obtain ⟨u, hu, hcurrent, hlocked, hfile, hkeep⟩ := ht.finishes hsome
  obtain ⟨fd, hfd⟩ := Option.isSome_iff_exists.mp hfile
  have huj : u.uninits[j]? = some (.close .load) := by
    rw [hkeep]
    exact List.getElem?_set_self (List.getElem?_eq_some_iff.mp hj).1
  let v := u.setUninit j (.close (.fclose (some fd)))
  have hload : u.step (.uninitStep j) = some v := by
    simp only [Manager.step, Manager.uninitStep, huj, closeLogFile, hfd, v]
  have hvj : v.uninits[j]? = some (.close (.fclose (some fd))) :=
    List.getElem?_set_self (List.getElem?_eq_some_iff.mp huj).1
  have hclose : v.step (.uninitStep j) = some ((v.fclose (some fd)).setUninit j (.close .clear)) := by
    simp only [Manager.step, Manager.uninitStep, hvj, closeLogFile]
  refine ⟨_, (hu.tail trivial hload).tail trivial hclose, fun hintact => ?_⟩
  have hlogger := hcurrent.files.reset 0 (by decide) (u.rotation.hasFile_of_not_isLocked hlocked 0)
  obtain hnone | ⟨fd', hfd', -, hopen⟩ :=
    hintact.fds 0 (by decide) (u.rotation.hasFile_of_not_isLocked hlocked 0)
  · cases (hfd.symm.trans hlogger.symm).trans hnone
  · obtain rfl := Option.some.inj ((hfd.symm.trans hlogger.symm).trans hfd')
    have hclosed : ((v.fclose (some fd)).setUninit j (.close .clear)).isOpen fd = false := by
      show Function.update u.isOpen fd false fd = false
      exact Function.update_self fd false u.isOpen
    rw [hclosed] at hopen
    cases hopen

/-- As long as every `uninit` finds `cur_fd_` null, every logger has no file or the open one, except
from the `fclose` of a day change to the `reset_fd` of that logger, when it still has a file only if
that is the closed one; and nothing is ever written or flushed to a closed file. Any other `uninit`
can be continued to a state in which a logger is left with a closed file. -/
theorem loggers_have_open_file {now : ℕ} {opens : Bool} {s : Manager}
    (h : Reach step ClosesNothing (init now opens) s) :
    (∀ k < loggerCount, s.HasOpenFile k ↔ s.rotation.HasFile k ∨ s.fds k = none) ∧
      (∀ u ∈ s.uses, u.isOpen = true) ∧
      ∀ a t, s.step a = some t → ¬ ClosesNothing s a → ∃ u, Reachable step t u ∧ ¬ u.Intact := by
  have hidle : Idle (init now opens).uninits := by cases opens <;> exact fun _ hpc => by cases hpc
  obtain ⟨hcurrent, -⟩ : Current s ∧ Idle s.uninits :=
    h.invariant (P := fun u => Current u ∧ Idle u.uninits) ⟨init_current now opens, hidle⟩
      fun _ _ _ hu hok hs => hu.1.step hu.2 hok hs
  exact ⟨fun _ hk => hcurrent.hasOpenFile_iff hk, hcurrent.uses, fun _ _ => uninit_breaks hcurrent⟩

/-- Steps other than those of `uninit` are within the condition. -/
theorem reach_without_uninit {as : List Action} (has : ∀ j, Action.uninitStep j ∉ as)
    (h : Transition.run step s as = some t) : Reach step ClosesNothing s t := by
  refine Reach.of_run_ok ?_ h
  rintro a ha u j rfl
  exact absurd ha (has j)

/-- A log call, then a day change in the middle of which `uninit` finds `cur_fd_` null. -/
theorem loggers_have_open_file_rotated :
    ∃ s, Reach step ClosesNothing (init 0 true) s ∧ s.fds 3 = some 1 ∧ s.curFd = some 1 ∧
      s.uses = [⟨.flush, 0, true⟩, ⟨.flush, 0, true⟩] ∧ s.HasOpenFile 3 := by
  have h1 : Reach step ClosesNothing (init 0 true) _ := reach_without_uninit (by simp)
    (rfl : Transition.run step (init 0 true)
      ([.log 2 .flush, .logStep 0, .logStep 0, .logStep 0] ++
        List.replicate 10 (.rotate 1 true) ++ [.uninit]) = some _)
  have h2 := h1.tail (a := Action.uninitStep 0) (fun j _ _ => rfl) rfl
  have h3 := h2.trans (reach_without_uninit (by simp)
    (rfl : Transition.run step _ (List.replicate 12 (.rotate 1 true)) = some _))
  exact ⟨_, h3, rfl, rfl, rfl, ((loggers_have_open_file h3).1 3 (by decide)).mpr (.inl trivial)⟩

/-- `uninit` with the file open, then a `write_log`. -/
theorem write_after_uninit :
    ∃ s, Reachable step (init 0 true) s ∧ s.rotation = .loop ∧ s.fds 0 = some 0 ∧ s.curFd = none ∧
      s.uses = [⟨.write [104, 105], 0, false⟩] ∧ ¬ s.HasOpenFile 0 := by
  have h : Reachable step (init 0 true) _ := .of_run (rfl : Transition.run step (init 0 true)
    ([.uninit] ++ List.replicate 5 (.uninitStep 0) ++
      [.log 0 (.write [104, 105]), .logStep 0, .logStep 0, .logStep 0]) = some _)
  refine ⟨_, h, rfl, rfl, rfl, rfl, ?_⟩
  rintro (hnone | ⟨fd, -, hcur, -⟩)
  · cases hnone
  · cases hcur

end Manager

end DevFramework.Log
