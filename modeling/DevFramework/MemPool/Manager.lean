import DevFramework.MemPool.Block
import DevFramework.Foundations.OrderedMap
import DevFramework.Foundations.Transition

/-! # The memory pool manager (`mem_pool_manager_t`, bas/mem_pool.hpp)

The manager keeps a list of blocks and a map from every buffer to the block it was cut from. An
address is a block and a distance from that block's `buf_`, so that addresses of different blocks
never meet and an address may also lie in no block at all. The mutex makes the calls follow one
another; a function returns `none` where the source has no defined behaviour.

Between two calls the owners of buffers write in them, and the blocks do not see what. Only the
linked headers are out of their reach: what reads as a header anywhere else may be anything after
`overwrite`. The bytes that `memmove` copies land in a buffer and are such a write too.
-/
namespace DevFramework.MemPool
open OrderedMap
set_option autoImplicit false
set_option maxHeartbeats 250000

/-- A non-null address. -/
structure Ptr where
  block : ℕ
  offset : ℤ
  deriving DecidableEq, Repr

/-- The distance from `buf_` of the block `i`, for an address in it. -/
def Ptr.within (p : Ptr) (i : ℕ) : Option ℤ := if p.block = i then some p.offset else none

@[simp] theorem Ptr.within_self (p : Ptr) : p.within p.block = some p.offset := if_pos rfl

/-! ## The manager -/

structure MemPoolManager where
  blockList : List Block
  bufBlockMap : Map Ptr ℕ

namespace MemPoolManager

/-- `init`, whatever `count` is; `junk` is what the new buffer holds. -/
def init (m : MemPoolManager) (junk : ℤ → AllocUnit) : MemPoolManager :=
  { m with blockList := m.blockList ++ [Block.fresh junk] }

/-- `block->alloc_buffer(size)`. -/
def allocIn (t : Target) (m : MemPoolManager) (i : ℕ) (size : ℕ) :
    Option (Option Ptr × MemPoolManager) := do
  let b ← m.blockList[i]?
  match b.allocBuffer t size with
  | .error _ => none
  | .ok (buf, b) => some (buf.map (Ptr.mk i), { m with blockList := m.blockList.set i b })

/-- `block->realloc_buffer(old_buf, new_size)`. -/
def reallocIn (t : Target) (m : MemPoolManager) (i : ℕ) (oldBuf : Ptr) (newSize : ℕ) :
    Option (Option Ptr × MemPoolManager) := do
  let b ← m.blockList[i]?
  let a ← oldBuf.within i
  match b.reallocBuffer t a newSize with
  | .error _ => none
  | .ok (buf, b) => some (buf.map (Ptr.mk i), { m with blockList := m.blockList.set i b })

/-- `block->free_buffer(buf)`, which returns at once for an address outside the block. -/
def freeIn (t : Target) (m : MemPoolManager) (i : ℕ) (buf : Ptr) : Option MemPoolManager := do
  let b ← m.blockList[i]?
  match buf.within i with
  | none => some m
  | some a =>
    match b.freeBuffer t a with
    | .error _ => none
    | .ok b => some { m with blockList := m.blockList.set i b }

def overwriteIn (m : MemPoolManager) (i : ℕ) (bytes : ℤ → AllocUnit) : MemPoolManager :=
  { m with blockList := m.blockList.modify i fun b => b.overwrite bytes }

/-- `buf_block_map_.insert`, which leaves a key that is there alone. -/
def enter (m : MemPoolManager) (buf : Ptr) (i : ℕ) : MemPoolManager :=
  if buf ∈ m.bufBlockMap then m else { m with bufBlockMap := m.bufBlockMap.insert buf i }

/-- The loop of `alloc`: the first block with a free unit is asked, and no other. -/
def allocFirst (t : Target) (m : MemPoolManager) (size : ℕ) :
    Option (Option Ptr × MemPoolManager) :=
  match m.blockList.findIdx? fun b => b.freeCount ≠ 0 with
  | none => some (none, m)
  | some i => m.allocIn t i size

def alloc (t : Target) (m : MemPoolManager) (size : ℕ) (junk : ℤ → AllocUnit) :
    Option (Option Ptr × MemPoolManager) :=
  if size = 0 then some (none, m)
  else do
    let (buf, m) ← m.allocFirst t size
    let (buf, m) ← match buf with
      | some p => some (some p, m)
      | none => (m.init junk).allocIn t m.blockList.length size
    match buf with
    | some p => some (some p, m.enter p p.block)
    | none => some (none, m)

def free (t : Target) (m : MemPoolManager) (buf : Option Ptr) : Option (Bool × MemPoolManager) :=
  match buf with
  | none => some (false, m)
  | some p =>
    match m.bufBlockMap.lookup p with
    | none => some (false, m)
    | some i => do
      let m ← m.freeIn t i p
      some (true, { m with bufBlockMap := m.bufBlockMap.erase p })

/-- `realloc`; `copied` is what `memmove` leaves in the new buffer. -/
def realloc (t : Target) (m : MemPoolManager) (oldBuf : Option Ptr) (newSize : ℕ)
    (junk copied : ℤ → AllocUnit) : Option (Option Ptr × MemPoolManager) :=
  match oldBuf with
  | none => m.alloc t newSize junk
  | some p =>
    if newSize = 0 then (m.free t (some p)).map fun r => (none, r.2)
    else
      match m.bufBlockMap.lookup p with
      | none => none  -- `iter->second` with `iter` at the end
      | some i => do
        let (newBuf, m) ← m.reallocIn t i p newSize
        match newBuf with
        | some q => some (some q, m)
        | none =>
          let (newBuf, m) ← m.alloc t newSize junk
          let m := match newBuf with
            | some q => m.overwriteIn q.block copied
            | none => m
          let m ← m.freeIn t i p  -- the key `p` stays in the map
          some (newBuf, m)

end MemPoolManager

/-! ## Usages -/

/-- The manager together with the buffers handed out and not released. -/
structure Usage where
  manager : MemPoolManager
  live : List Ptr

inductive PoolCall where
  | init (junk : ℤ → AllocUnit)
  | alloc (size : ℕ) (junk : ℤ → AllocUnit)
  | realloc (buf : Option Ptr) (newSize : ℕ) (junk copied : ℤ → AllocUnit)
  | free (buf : Option Ptr)
  | write (block : ℕ) (bytes : ℤ → AllocUnit)

/-- The buffers out after a call that released `old` and handed out `new`. -/
def handOver (live : List Ptr) (old new : Option Ptr) : List Ptr :=
  new.toList ++ match old with
    | none => live
    | some p => live.erase p

def Usage.step (t : Target) (u : Usage) : PoolCall → Option Usage
  | .init junk => some { u with manager := u.manager.init junk }
  | .alloc size junk => do
    let (buf, m) ← u.manager.alloc t size junk
    some { manager := m, live := handOver u.live none buf }
  | .realloc buf newSize junk copied => do
    let (new, m) ← u.manager.realloc t buf newSize junk copied
    some { manager := m, live := handOver u.live buf new }
  | .free buf => do
    let (_, m) ← u.manager.free t buf
    some { manager := m, live := handOver u.live buf none }
  | .write i bytes => some { u with manager := u.manager.overwriteIn i bytes }

def Usage.start : Usage := { manager := { blockList := [], bufBlockMap := ∅ }, live := [] }

end DevFramework.MemPool
