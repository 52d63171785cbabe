import DevFramework.Log.Manager

/-! # The files of a day change

What holds of `cur_fd_` and of the files that the loggers have, at each place of the rotation thread,
as long as nobody else closes a file: before the `fclose` and after its `reset_fd` a logger has the
open file, in between it has the old one.
-/
namespace DevFramework.Log
set_option autoImplicit false
set_option maxHeartbeats 250000

namespace RotationPc

/-- In the day change, under `mutex_`. -/
def isLocked : RotationPc → Bool
  | .close _ _ | .reopen _ | .loadReset _ | .storeReset _ _ | .unlock => true
  | _ => false

/-- Between the `fclose` of the old file and `cur_fd_ = 0`. -/
def isClearing : RotationPc → Bool
  | .close _ .clear => true
  | _ => false

/-- The thread is not between the `fclose` of the old file and the `reset_fd` of logger `k`. -/
def HasFile (k : ℕ) : RotationPc → Prop
  | .close _ .clear | .reopen _ => False
  | .loadReset i | .storeReset i _ => k < i
  | _ => True

/-- What the thread has read from `cur_fd_` for its next call. -/
def loaded : RotationPc → Option (Option ℕ)
  | .flush fd | .close _ (.fclose fd) | .storeReset _ fd => some fd
  | _ => none

theorem hasFile_of_not_isLocked {pc : RotationPc} (h : pc.isLocked = false) (k : ℕ) :
    pc.HasFile k := by
  cases pc <;> trivial

theorem not_isClearing_of_not_isLocked {pc : RotationPc} (h : pc.isLocked = false) :
    pc.isClearing = false := by
  cases pc <;> first | rfl | cases h

theorem not_isClearing_of_hasFile {pc : RotationPc} {k : ℕ} (h : pc.HasFile k) :
    pc.isClearing = false := by
  cases pc with
  | close now pc => cases pc <;> first | rfl | exact h.elim
  | _ => rfl

end RotationPc

/-- The files at a place of the rotation thread, as long as no `uninit` closes one. Where logger `k`
has not got the new file yet, the file that it has is closed. -/
structure FilesOk (pc : RotationPc) (curFd : Option ℕ) (fds : ℕ → Option ℕ) (isOpen : ℕ → Bool)
    (opened : ℕ) : Prop where
  current : pc.isClearing = false → ∀ fd, curFd = some fd → isOpen fd = true
  reset : ∀ k < loggerCount, pc.HasFile k → fds k = curFd
  replaced : ∀ k < loggerCount, ¬ pc.HasFile k → ∀ fd, fds k = some fd → isOpen fd = false
  made : ∀ fd, (curFd = some fd ∨ ∃ k < loggerCount, fds k = some fd) → fd < opened
  loaded : ∀ fd, pc.loaded = some fd → fd = curFd

section FilesOk
variable {pc pc' : RotationPc} {curFd : Option ℕ} {fds : ℕ → Option ℕ} {isOpen : ℕ → Bool}
  {opened : ℕ}

/-- The rotation thread moves without giving or taking a file. -/
theorem FilesOk.move (h : FilesOk pc curFd fds isOpen opened) (hclearing : pc.isClearing = false)
    (hfile : ∀ k < loggerCount, pc'.HasFile k ↔ pc.HasFile k)
    (hloaded : ∀ fd, pc'.loaded = some fd → fd = curFd) : FilesOk pc' curFd fds isOpen opened where
  current := fun _ => h.current hclearing
  reset := fun k hk hhas => h.reset k hk ((hfile k hk).mp hhas)
  replaced := fun k hk hnot => h.replaced k hk (mt (hfile k hk).mpr hnot)
  made := h.made
  loaded := hloaded

/-- Outside the day change every logger has its file. -/
theorem FilesOk.outside (h : FilesOk pc curFd fds isOpen opened) (hpc : pc.isLocked = false)
    (hpc' : pc'.isLocked = false) (hloaded : ∀ fd, pc'.loaded = some fd → fd = curFd) :
    FilesOk pc' curFd fds isOpen opened :=
  h.move (pc.not_isClearing_of_not_isLocked hpc)
    (fun k _ => iff_of_true (pc'.hasFile_of_not_isLocked hpc' k) (pc.hasFile_of_not_isLocked hpc k))
    hloaded

/-- There is no file to close. -/
theorem FilesOk.reopen_of_none {now : ℕ} (h : FilesOk pc none fds isOpen opened)
    (hpc : ∀ k < loggerCount, pc.HasFile k) : FilesOk (.reopen now) none fds isOpen opened where
  current := fun _ _ hfd => by cases hfd
  reset := fun _ _ => False.elim
  replaced := by
    intro k hk _ fd hfd
    rw [h.reset k hk (hpc k hk)] at hfd
    cases hfd
  made := h.made
  loaded := fun _ hfd => by cases hfd

/-- The day change has closed the file that all loggers have. -/
theorem FilesOk.fclose {now : ℕ} {isOpen' : ℕ → Bool} (h : FilesOk pc curFd fds isOpen opened)
    (hpc : ∀ k < loggerCount, pc.HasFile k) (hclosed : ∀ fd, curFd = some fd → isOpen' fd = false) :
    FilesOk (.close now .clear) curFd fds isOpen' opened where
  current := fun hclearing => by cases hclearing
  reset := fun _ _ => False.elim
  replaced := fun k hk _ fd hfd => hclosed fd ((h.reset k hk (hpc k hk)).symm.trans hfd)
  made := h.made
  loaded := fun _ hfd => by cases hfd

/-- `cur_fd_` becomes null, or stays null, while every logger has the old file. -/
theorem FilesOk.without (h : FilesOk pc curFd fds isOpen opened) (hpc : ∀ k, ¬ pc.HasFile k)
    (hpc' : ∀ k, ¬ pc'.HasFile k) (hloaded : pc'.loaded = none) :
    FilesOk pc' none fds isOpen opened where
  current := fun _ _ hfd => by cases hfd
  reset := fun k _ hk => absurd hk (hpc' k)
  replaced := fun k hk _ => h.replaced k hk (hpc k)
  made := by
    rintro fd (hcur | hfds)
    · cases hcur
    · exact h.made fd (.inr hfds)
  loaded := by
    rw [hloaded]
    nofun

/-- The new file is none that a logger still has. -/
theorem FilesOk.reopen {now : ℕ} (h : FilesOk (.reopen now) curFd fds isOpen opened) :
    FilesOk (.loadReset 0) (some opened) fds (Function.update isOpen opened true) (opened + 1) where
  current := by
    intro _ fd hfd
    rw [← Option.some.inj hfd, Function.update_self]
  reset := fun k _ hk => absurd hk (Nat.not_lt_zero k)
  replaced := by
    intro k hk _ fd hfd
    have hne : fd ≠ opened := Nat.ne_of_lt (h.made fd (.inr ⟨k, hk, hfd⟩))
    rw [Function.update_of_ne hne]
    exact h.replaced k hk id fd hfd
  made := by
    rintro fd (hcur | hfds)
    · rw [← Option.some.inj hcur]
      exact Nat.lt_succ_self opened
    · exact Nat.lt_succ_of_lt (h.made fd (.inr hfds))
  loaded := fun _ hfd => by cases hfd

/-- `reset_fd` of logger `i`. -/
theorem FilesOk.resetFd {i : ℕ} {fd : Option ℕ}
    (h : FilesOk (.storeReset i fd) curFd fds isOpen opened) :
    FilesOk (.loadReset (i + 1)) curFd (Function.update fds i fd) isOpen opened where
  current := fun _ => h.current rfl
  reset := by
    intro k hk hki
    by_cases heq : k = i
    · rw [heq, Function.update_self]
      exact h.loaded fd rfl
    · rw [Function.update_of_ne heq]
      exact h.reset k hk (Nat.lt_of_le_of_ne (Nat.lt_succ_iff.mp hki) heq)
  replaced := by
    intro k hk hki fd' hfd'
    have hgt : ¬ k < i := fun hlt => hki (Nat.lt_succ_of_lt hlt)
    have hne : k ≠ i := fun heq => hki (heq ▸ Nat.lt_succ_self k)
    rw [Function.update_of_ne hne] at hfd'
    exact h.replaced k hk hgt fd' hfd'
  made := by
    rintro fd' (hcur | ⟨k, hk, hfd'⟩)
    · exact h.made fd' (.inl hcur)
    · by_cases heq : k = i
      · rw [heq, Function.update_self, h.loaded fd rfl] at hfd'
        exact h.made fd' (.inl hfd')
      · rw [Function.update_of_ne heq] at hfd'
        exact h.made fd' (.inr ⟨k, hk, hfd'⟩)
  loaded := fun _ hfd => by cases hfd

end FilesOk

end DevFramework.Log
