import DevFramework.Platform
import DevFramework.Foundations.OrderedMap
import DevFramework.Foundations.Transition

/-! # The strand thread pool (bas/thread_pool.hpp)

`thread_pool_t` with its workers. `post_call` holds `mtx_` from beginning to end, so at most one
call of it is past the lock at a time; every section under a worker's `fo_mtx_`, every `set_event`
and every wait is a step of its own. A strand is known by its address. The `asio` threads of the
pool run no strand calls and are left out.

Calls are numbered in the order in which they get the lock. `accepted` lists the calls pushed to a
worker, `results` what `post_call` returned, `trace` what the workers did.
-/
namespace DevFramework.ThreadPool
open OrderedMap
set_option autoImplicit false
set_option maxHeartbeats 250000

def maxTaskSize : ℕ := 1000000

def defThreadCount : ℕ := 2

/-- A `standard_call` posted to a strand; `callable` says whether it holds a function. -/
structure Call where
  id : ℕ
  strand : ℕ
  callable : Bool
  deriving DecidableEq, Repr

/-- What a worker does to a call: begin it, end it (by a return or by a caught exception), or pass
over one that holds no function. -/
inductive Event where
  | began (fo : Call)
  | ended (fo : Call)
  | skipped (fo : Call)
  deriving DecidableEq, Repr

def Event.call : Event → Call
  | began fo | ended fo | skipped fo => fo

/-- Where a worker is in its loop; `listSize` is what was left in the list when it popped. -/
inductive WorkerPc where
  | top
  | fetch
  | test (fo : Option Call) (listSize : ℤ)
  | running (fo : Call) (listSize : ℤ)
  | bottom (listSize : ℤ)
  | wait
  | stopped
  deriving DecidableEq

/-- An `inner_thread_t`. -/
structure InnerThread where
  foList : List Call
  evt : Bool
  alive : Bool
  pc : WorkerPc
  deriving DecidableEq

def InnerThread.fresh : InnerThread := { foList := [], evt := false, alive := true, pc := .top }

/-- `auto list_size = 0; list_size = fo_list_.size();`: an `int`. -/
def InnerThread.listSize (w : InnerThread) : ℤ := Int.bmod w.foList.length 4294967296

def InnerThread.getTaskSize (t : Target) (w : InnerThread) : ℕ := toSize t w.listSize

def InnerThread.isBusy (t : Target) (w : InnerThread) : Bool := maxTaskSize < w.getTaskSize t

/-- `is_busy` of a worker with `n` calls in its list. -/
def busyAt (t : Target) (n : ℕ) : Bool := maxTaskSize < toSize t (Int.bmod n 4294967296)

theorem isBusy_eq_busyAt (t : Target) (w : InnerThread) :
    w.isBusy t = busyAt t w.foList.length := rfl

/-- Where the holder of `mtx_` is in `post_call`; workers are named by number. -/
inductive PostPc where
  | find (fo : Call)
  | busy (fo : Call) (worker : ℕ)
  | choose (fo : Call) (i : ℕ) (smallest : ℕ) (worker : Option ℕ)
  | push (fo : Call) (worker : ℕ)
  | signal (fo : Call) (worker : ℕ)
  | unlock (fo : Call) (postOk : Bool)
  deriving DecidableEq

/-- Where `stop` is in its loop over the workers. -/
inductive StopPc where
  | idle
  | next (rest : List ℕ)
  | join (worker : ℕ) (rest : List ℕ)
  deriving DecidableEq

structure Pool where
  workerCount : ℕ
  made : ℕ
  threads : ℕ → InnerThread
  workers : List ℕ
  strandProc : Map ℕ ℕ
  holder : Option PostPc
  stop : StopPc
  calls : ℕ
  accepted : List Call
  results : List (Call × Bool)
  trace : List Event

/-- The pool before `start`. -/
def init : Pool where
  workerCount := 0
  made := 0
  threads := fun _ => .fresh
  workers := []
  strandProc := ∅
  holder := none
  stop := .idle
  calls := 0
  accepted := []
  results := []
  trace := []

namespace Pool

/-- `start` on a machine with `hw` hardware threads; 0 when that is unknown. -/
def start (s : Pool) (hw : ℕ) : Pool :=
  let count := if hw = 0 then defThreadCount else hw
  { s with
    workerCount := count
    made := s.made + count
    workers := s.workers ++ List.range' s.made count }

def setThread (s : Pool) (w : ℕ) (th : InnerThread) : Pool :=
  { s with threads := Function.update s.threads w th }

/-! ## Posting -/

/-- A call of `post_call` gets the lock. -/
def lock (s : Pool) (strand : ℕ) (callable : Bool) : Option Pool :=
  match s.holder with
  | none => some { s with holder := some (.find ⟨s.calls, strand, callable⟩), calls := s.calls + 1 }
  | some _ => none

/-- The next step of the call that holds the lock; `none` where it goes through a null pointer. -/
def postStep (t : Target) (s : Pool) : Option Pool :=
  match s.holder with
  | none => none
  | some (.find fo) =>
    match s.strandProc.lookup fo.strand with
    | some w => some { s with holder := some (.busy fo w) }
    | none => some { s with holder := some (.choose fo 0 18446744073709551615 none) }
  | some (.busy fo w) =>
    if (s.threads w).isBusy t then some { s with holder := some (.unlock fo false) }
    else some { s with holder := some (.push fo w) }
  | some (.choose fo i smallest worker) =>
    if i < s.workerCount then
      match s.workers[i]? with
      | none => none
      | some w =>
        let taskSize := (s.threads w).getTaskSize t
        if taskSize ≤ smallest then
          some { s with holder := some (.choose fo (i + 1) taskSize (some w)) }
        else some { s with holder := some (.choose fo (i + 1) smallest worker) }
    else match worker with
      | none => none
      | some w =>
        some { s with
          strandProc := s.strandProc.insert fo.strand w
          holder := some (.push fo w) }
  | some (.push fo w) =>
    let th := s.threads w
    some { s.setThread w { th with foList := th.foList ++ [fo] } with
      accepted := s.accepted ++ [fo]
      holder := some (.signal fo w) }
  | some (.signal fo w) =>
    some { s.setThread w { s.threads w with evt := true } with holder := some (.unlock fo true) }
  | some (.unlock fo postOk) =>
    some { s with results := s.results ++ [(fo, postOk)], holder := none }

/-! ## Working -/

/-- The next step of worker `w`. -/
def workStep (s : Pool) (w : ℕ) : Option Pool :=
  if s.made ≤ w then none else
  let th := s.threads w
  match th.pc with
  | .top => some (s.setThread w { th with pc := if th.alive then .fetch else .stopped })
  | .fetch =>
    match th.foList with
    | [] => some (s.setThread w { th with pc := .test none 0 })
    | fo :: rest =>
      let th' := { th with foList := rest }
      some (s.setThread w { th' with pc := .test (some fo) th'.listSize })
  | .test none listSize => some (s.setThread w { th with pc := .bottom listSize })
  | .test (some fo) listSize =>
    if fo.callable then
      some { s.setThread w { th with pc := .running fo listSize } with
        trace := s.trace ++ [.began fo] }
    else
      some { s.setThread w { th with pc := .bottom listSize } with
        trace := s.trace ++ [.skipped fo] }
  | .running fo listSize =>
    -- a return, or an exception that is caught and printed
    some { s.setThread w { th with pc := .bottom listSize } with trace := s.trace ++ [.ended fo] }
  | .bottom listSize => some (s.setThread w { th with pc := if listSize = 0 then .wait else .top })
  | .wait =>
    if th.evt then some (s.setThread w { th with evt := false, pc := .top }) else none
  | .stopped => none

/-! ## Stopping -/

def stopStep (s : Pool) : Option Pool :=
  match s.stop with
  | .idle => some { s with stop := .next s.workers }
  | .next [] => some { s with workers := [], stop := .idle }
  | .next (w :: rest) =>
    some { s.setThread w { s.threads w with alive := false } with stop := .join w rest }
  | .join w rest =>
    if (s.threads w).pc = .stopped then some { s with stop := .next rest } else none

end Pool

/-! ## The system -/

inductive Action where
  | start (hw : ℕ)
  | stop
  | lock (strand : ℕ) (callable : Bool)
  | post
  | work (worker : ℕ)
  deriving DecidableEq

def step (t : Target) (s : Pool) : Action → Option Pool
  | .start hw => some (s.start hw)
  | .stop => s.stopStep
  | .lock strand callable => s.lock strand callable
  | .post => s.postStep t
  | .work w => s.workStep w

end DevFramework.ThreadPool
