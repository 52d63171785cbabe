import DevFramework.Foundations.Transition
import Mathlib.Logic.Function.Basic

/-! # The log manager (utility/log/Log.cpp)

`jf_log_manager_t` after `init`: the four loggers with their copies of `cur_fd_`, the rotation
thread, and any number of threads in `write_log`, `flush_log` and `uninit`. `uninit` and the flush
of the rotation thread do without `mutex_`, so each access to `cur_fd_` is a step of its own, also
inside `i_close_log_file`, and a value that was read from it is kept in the place of the thread that
read it. What happens to file names, to old files and to forbidden loggers touches none of this and
is left out.

Every `fopen` that succeeds makes a new file, which nobody sees before it is stored in `cur_fd_`;
`uses` lists what was written or flushed, with whether the file was open.
-/
namespace DevFramework.Log
open Transition
set_option autoImplicit false
set_option maxHeartbeats 250000

def loggerCount : ℕ := 4

/-- What a log call does with `fd_`. -/
inductive Output where
  | write (cont : List UInt8)
  | flush
  deriving DecidableEq, Repr

structure Use where
  output : Output
  fd : ℕ
  isOpen : Bool
  deriving DecidableEq, Repr

/-- A `write_log` or `flush_log` of a logger: before the lock, at `if (fd_)`, before the `fwrite`
or `fflush`. -/
inductive LogCall where
  | locking (logger : ℕ) (output : Output)
  | testing (logger : ℕ) (output : Output)
  | calling (fd : ℕ) (output : Output)
  | returned
  deriving DecidableEq, Repr

/-- Where `i_close_log_file` is: at its test of `cur_fd_`, before it reads `cur_fd_` for the
`fclose`, at the `fclose` of what it read, before `cur_fd_ = 0`. -/
inductive ClosePc where
  | test
  | load
  | fclose (fd : Option ℕ)
  | clear
  deriving DecidableEq, Repr

/-- Where the rotation thread is. From `close` to `unlock` it holds `mutex_`; `now` is the date it
read, and `fd` what it read from `cur_fd_` for the call that comes next. -/
inductive RotationPc where
  | loop
  | testFlush
  | loadFlush
  | flush (fd : Option ℕ)
  | testDay
  | lock (now : ℕ)
  | close (now : ℕ) (pc : ClosePc)
  | reopen (now : ℕ)
  | loadReset (i : ℕ)
  | storeReset (i : ℕ) (fd : Option ℕ)
  | unlock
  | sleep
  | ended
  deriving DecidableEq, Repr

inductive UninitPc where
  | close (pc : ClosePc)
  | clearRun
  | returned
  deriving DecidableEq, Repr

inductive Holder where
  | rotation
  | caller (j : ℕ)
  deriving DecidableEq, Repr

structure Manager where
  run : Bool
  curTime : ℕ
  curFd : Option ℕ
  fds : ℕ → Option ℕ
  mutex : Option Holder
  rotation : RotationPc
  calls : List LogCall
  uninits : List UninitPc
  opened : ℕ
  isOpen : ℕ → Bool
  uses : List Use

/-- `rotate` is a step of the rotation thread: `now` is the date should it look at the clock, and
`opens` says whether a `fopen` succeeds. -/
inductive Action where
  | log (logger : ℕ) (output : Output)
  | logStep (j : ℕ)
  | rotate (now : ℕ) (opens : Bool)
  | uninit
  | uninitStep (j : ℕ)
  deriving DecidableEq, Repr

namespace Manager

/-- `i_open_log_file`. -/
def openLogFile (s : Manager) (opens : Bool) : Manager :=
  if opens then
    { s with
      curFd := some s.opened
      opened := s.opened + 1
      isOpen := Function.update s.isOpen s.opened true }
  else { s with curFd := none }

/-- `fclose`; of a null pointer it closes nothing. -/
def fclose (s : Manager) : Option ℕ → Manager
  | some fd => { s with isOpen := Function.update s.isOpen fd false }
  | none => s

/-- The next step of `i_close_log_file`, and where it is then, unless it has returned. -/
def closeLogFile (s : Manager) : ClosePc → Manager × Option ClosePc
  | .test => (s, if s.curFd.isSome then some .load else none)
  | .load => (s, some (.fclose s.curFd))
  | .fclose fd => (s.fclose fd, some .clear)
  | .clear => ({ s with curFd := none }, none)

/-- `logger_[i]->reset_fd(fd)`. -/
def resetFd (s : Manager) (i : ℕ) (fd : Option ℕ) : Manager :=
  { s with fds := Function.update s.fds i fd }

/-- A `fwrite` or `fflush` to a file. -/
def use (s : Manager) (output : Output) (fd : ℕ) : Manager :=
  { s with uses := s.uses ++ [⟨output, fd, s.isOpen fd⟩] }

/-- After `init` on the date `now`; the rotation thread has been started. -/
def init (now : ℕ) (opens : Bool) : Manager :=
  let s : Manager := openLogFile
    { run := true, curTime := now, curFd := none, fds := fun _ => none, mutex := none,
      rotation := .loop, calls := [], uninits := [], opened := 0, isOpen := fun _ => false,
      uses := [] } opens
  { s with fds := fun _ => s.curFd }

def setCall (s : Manager) (j : ℕ) (call : LogCall) : Manager :=
  { s with calls := s.calls.set j call }

/-- The next step of `write_log` or `flush_log`. -/
def logStep (s : Manager) (j : ℕ) : Option Manager :=
  match s.calls[j]? with
  | some (.locking logger output) =>
    if s.mutex = none then
      some { s.setCall j (.testing logger output) with mutex := some (.caller j) }
    else none
  | some (.testing logger output) =>
    match s.fds logger with
    | some fd => some (s.setCall j (.calling fd output))
    | none => some { s.setCall j .returned with mutex := none }
  | some (.calling fd output) =>
    some { (s.use output fd).setCall j .returned with mutex := none }
  | _ => none

def setRotation (s : Manager) (pc : RotationPc) : Manager := { s with rotation := pc }

/-- The next step of the rotation thread. `fflush` of a null pointer flushes what is open. -/
def rotate (s : Manager) (now : ℕ) (opens : Bool) : Option Manager :=
  match s.rotation with
  | .loop => some (s.setRotation (if s.run then .testFlush else .ended))
  | .testFlush => some (s.setRotation (if s.curFd.isSome then .loadFlush else .testDay))
  | .loadFlush => some (s.setRotation (.flush s.curFd))
  | .flush none => some (s.setRotation .testDay)
  | .flush (some fd) => some ((s.use .flush fd).setRotation .testDay)
  | .testDay => some (s.setRotation (if s.curTime = now then .sleep else .lock now))
  | .lock now' =>
    if s.mutex = none then
      some { s.setRotation (.close now' .test) with mutex := some .rotation }
    else none
  | .close now' pc =>
    match s.closeLogFile pc with
    | (s', some pc') => some (s'.setRotation (.close now' pc'))
    | (s', none) => some (s'.setRotation (.reopen now'))
  | .reopen now' =>
    some ((openLogFile { s with curTime := now' } opens).setRotation (.loadReset 0))
  | .loadReset i =>
    some (s.setRotation (if i < loggerCount then .storeReset i s.curFd else .unlock))
  | .storeReset i fd => some ((s.resetFd i fd).setRotation (.loadReset (i + 1)))
  | .unlock => some { s.setRotation .sleep with mutex := none }
  | .sleep => some (s.setRotation .loop)
  | .ended => none

def setUninit (s : Manager) (j : ℕ) (pc : UninitPc) : Manager :=
  { s with uninits := s.uninits.set j pc }

/-- The next step of `uninit`. -/
def uninitStep (s : Manager) (j : ℕ) : Option Manager :=
  match s.uninits[j]? with
  | some (.close pc) =>
    match s.closeLogFile pc with
    | (s', some pc') => some (s'.setUninit j (.close pc'))
    | (s', none) => some (s'.setUninit j .clearRun)
  | some .clearRun => some { s.setUninit j .returned with run := false }
  | _ => none

def step (s : Manager) : Action → Option Manager
  | .log logger output =>
    if logger < loggerCount then some { s with calls := s.calls ++ [.locking logger output] }
    else none
  | .logStep j => s.logStep j
  | .rotate now opens => s.rotate now opens
  | .uninit => some { s with uninits := s.uninits ++ [.close .test] }
  | .uninitStep j => s.uninitStep j

end Manager

end DevFramework.Log
