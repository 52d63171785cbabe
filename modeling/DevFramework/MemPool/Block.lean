import DevFramework.Platform
import Mathlib.Logic.Function.Basic

/-! # The block of the memory pool (`block_t`, bas/mem_pool.hpp)

A block is one `new char[block_size]` cut into consecutive units, each starting with an
`alloc_unit` header; the headers are linked both ways by raw pointers. The model keeps the headers
where the source keeps them, in the buffer: `mem a` is the header read at distance `a` from
`buf_`. A header that is no longer linked stays in `mem`, as its bytes stay in the buffer, so a
pointer that was not updated reads whatever header was last written there.

Pointers are distances from `buf_` and `none` is the null pointer. A function that dereferences a
null pointer ends in `Fault.nullDeref`. The two pointer loops of the source (`while`) run on fuel,
and `Fault.spin` is a loop that did not end within one turn for every byte of the block.
-/
namespace DevFramework.MemPool
set_option autoImplicit false
set_option maxHeartbeats 250000

/-- `static const int block_size = 10 * 1024 * 1024`. -/
def blockSize : ℤ := 10 * 1024 * 1024

/-- `block_t::alloc_unit`. -/
structure AllocUnit where
  offset : ℤ
  size : ℤ
  bfree : Bool
  prev : Option ℤ
  next : Option ℤ
  deriving DecidableEq, Repr

/-- The header that stands for untouched bytes in closed runs. -/
def blank : AllocUnit := { offset := 0, size := 0, bfree := false, prev := none, next := none }

/-- `sizeof(alloc_unit)`: three `int`s and two pointers, the pointers aligned. -/
def sizeofAllocUnit : Target → ℤ
  | .x86 => 20
  | .x64 => 32

theorem sizeofAllocUnit_pos (t : Target) : 0 < sizeofAllocUnit t := by
  cases t <;> decide

theorem sizeofAllocUnit_lt (t : Target) : sizeofAllocUnit t < blockSize := by
  cases t <;> decide

inductive Fault where
  | nullDeref
  | spin
  deriving DecidableEq, Repr

/-- `block_t`; `buf_` is address `0`. -/
structure Block where
  mem : ℤ → AllocUnit
  totalSize : ℤ
  freeCount : ℤ
  head : ℤ

namespace Block

/-- Rewrite fields of the header at `p`. -/
def modify (b : Block) (p : ℤ) (f : AllocUnit → AllocUnit) : Block :=
  { b with mem := Function.update b.mem p (f (b.mem p)) }

@[simp] theorem modify_totalSize (b : Block) (p : ℤ) (f : AllocUnit → AllocUnit) :
    (b.modify p f).totalSize = b.totalSize := rfl

@[simp] theorem modify_freeCount (b : Block) (p : ℤ) (f : AllocUnit → AllocUnit) :
    (b.modify p f).freeCount = b.freeCount := rfl

@[simp] theorem modify_head (b : Block) (p : ℤ) (f : AllocUnit → AllocUnit) :
    (b.modify p f).head = b.head := rfl

@[simp] theorem modify_mem_self (b : Block) (p : ℤ) (f : AllocUnit → AllocUnit) :
    (b.modify p f).mem p = f (b.mem p) := by
  simp [modify]

theorem modify_mem_ne (b : Block) (p a : ℤ) (f : AllocUnit → AllocUnit) (h : a ≠ p) :
    (b.modify p f).mem a = b.mem a := by
  simp [modify, Function.update_of_ne h]

/-- `i_write_head_info`; the callers never pass a null `p`. -/
def iWriteHeadInfo (b : Block) (p : ℤ) (offset size : ℤ) (bfree : Bool)
    (prev next : Option ℤ) : Block :=
  b.modify p fun _ =>
    { offset, size, bfree, prev := if some p = prev then none else prev, next }

def addFree (b : Block) (d : ℤ) : Block := { b with freeCount := b.freeCount + d }

@[simp] theorem addFree_mem (b : Block) (d : ℤ) : (b.addFree d).mem = b.mem := rfl
@[simp] theorem addFree_totalSize (b : Block) (d : ℤ) :
    (b.addFree d).totalSize = b.totalSize := rfl
@[simp] theorem addFree_head (b : Block) (d : ℤ) : (b.addFree d).head = b.head := rfl
@[simp] theorem addFree_freeCount (b : Block) (d : ℤ) :
    (b.addFree d).freeCount = b.freeCount + d := rfl

/-- A block straight from its constructor (`i_init`): one free unit over the whole buffer. What
the buffer holds elsewhere is whatever `new char[]` left there. -/
def fresh (junk : ℤ → AllocUnit) : Block :=
  let b : Block := { mem := junk, totalSize := blockSize, freeCount := 1, head := 0 }
  b.iWriteHeadInfo 0 0 blockSize true none none

/-- One turn of a pointer loop for every byte of the block, and one to see its end. -/
def fuel (b : Block) : ℕ := b.totalSize.toNat + 1

/-- The loop of `best_match`: `tmp` runs along `next`, `alpha` is the smallest gap so far and
`bm` the unit it was found at. -/
def bestMatchLoop (t : Target) (b : Block) (size : ℤ) :
    ℕ → Option ℤ → ℤ → Option ℤ → Except Fault (Option ℤ)
  | _, none, _, bm => .ok bm
  | 0, some _, _, _ => .error .spin
  | n + 1, some tmp, alpha, bm =>
    let u := b.mem tmp
    if u.bfree ∧ size + sizeofAllocUnit t ≤ u.size then
      let gap := u.size - size
      let alpha' := if gap < alpha then gap else alpha
      let bm' := if gap < alpha then some tmp else bm
      if alpha' = 0 then .ok bm' else bestMatchLoop t b size n u.next alpha' bm'
    else bestMatchLoop t b size n u.next alpha bm

/-- `best_match`, called with `cur = head_`: the unit found and its `prev` pointer. -/
def bestMatch (t : Target) (b : Block) (size : ℤ) : Except Fault (Option (ℤ × Option ℤ)) :=
  (bestMatchLoop t b size b.fuel (some b.head) intMax none).map fun bm =>
    bm.map fun cur => (cur, (b.mem cur).prev)

/-- The part of `alloc_buffer` behind `best_match`: cut `size` bytes and a header off the unit
`cur`, or hand out all of it when no more than a header would remain. -/
def takeUnit (t : Target) (b : Block) (cur : ℤ) (prev : Option ℤ) (size : ℤ) : Block :=
  let offset := cur - b.head
  let curLen := (b.mem cur).size
  let needLen := size + sizeofAllocUnit t
  let next := (b.mem cur).next
  if next.isSome ∧ curLen - needLen ≤ sizeofAllocUnit t then
    (b.iWriteHeadInfo cur offset curLen false prev next).addFree (-1)
  else
    let tempNext := next
    let nextSize := curLen - needLen
    if nextSize ≤ sizeofAllocUnit t then
      (b.iWriteHeadInfo cur offset curLen false prev next).addFree (-1)
    else
      let next := cur + needLen
      (b.iWriteHeadInfo cur offset needLen false prev (some next)).iWriteHeadInfo
        next (next - b.head) nextSize true (some cur) tempNext

/-- `alloc_buffer`: the buffer handed out (null when no unit fits) and the block after it. -/
def allocBuffer (t : Target) (b : Block) (size : ℤ) : Except Fault (Option ℤ × Block) :=
  match bestMatch t b size with
  | .error e => .error e
  | .ok none => .ok (none, b)
  | .ok (some (cur, prev)) =>
    .ok (some (cur + sizeofAllocUnit t), b.takeUnit t cur prev size)

/-- `realloc_buffer`: null when the buffer cannot grow where it is. -/
def reallocBuffer (t : Target) (b : Block) (oldBuf : ℤ) (newSize : ℤ) :
    Except Fault (Option ℤ × Block) :=
  let cur := oldBuf - sizeofAllocUnit t
  let u := b.mem cur
  if newSize ≤ u.size then .ok (some oldBuf, b)
  else match u.next with
  | none => .error .nullDeref  -- `next->bfree` with `next` null
  | some next =>
    let n := b.mem next
    if !n.bfree then .ok (none, b)
    else
      let sizeAble := u.size + n.size - sizeofAllocUnit t
      let remain := sizeAble - newSize
      if 0 ≤ remain then
        if remain ≤ sizeofAllocUnit t then
          .ok (some oldBuf,
            (b.iWriteHeadInfo cur u.offset (sizeAble + sizeofAllocUnit t) false u.prev
              n.next).addFree (-1))
        else
          let next' := cur + newSize + sizeofAllocUnit t
          .ok (some oldBuf,
            (b.iWriteHeadInfo cur u.offset (newSize + sizeofAllocUnit t) false u.prev
              (some next')).iWriteHeadInfo next' (next' - b.head) remain true (some cur) n.next)
      else .ok (none, b)

/-- First loop of `i_merge_unit`: `while(cur->prev && cur->prev->bfree) cur = cur->prev`. -/
def rewind (b : Block) : ℕ → ℤ → Except Fault ℤ
  | 0, _ => .error .spin
  | n + 1, cur =>
    match (b.mem cur).prev with
    | none => .ok cur
    | some p => if (b.mem p).bfree then rewind b n p else .ok cur

/-- `if(cur->next) cur->next->prev = cur`. -/
def backLink (b : Block) (cur : ℤ) : Block :=
  match (b.mem cur).next with
  | none => b
  | some m => b.modify m fun u => { u with prev := some cur }

/-- Second loop of `i_merge_unit`: swallow the units behind `cur` as long as they are free. -/
def absorb : ℕ → Block → ℤ → Except Fault Block
  | 0, _, _ => .error .spin
  | n + 1, b, cur =>
    match (b.mem cur).next with
    | none => .ok b
    | some m =>
      if (b.mem m).bfree then
        let b := (b.modify cur fun u => { u with size := u.size + (b.mem m).size }).addFree (-1)
        let b := b.modify cur fun u => { u with next := (b.mem m).next }
        absorb n (b.backLink cur) cur
      else .ok b

def iMergeUnit (b : Block) (cur : ℤ) : Except Fault Block :=
  if (b.mem cur).prev = none ∧ (b.mem cur).next = none then .ok b
  else if (b.mem cur).bfree = false then .ok b
  else do
    let cur ← b.rewind b.fuel cur
    let b ← absorb b.fuel b cur
    return b.backLink cur

/-- `free_buffer`, for a non-null `buf`. -/
def freeBuffer (t : Target) (b : Block) (buf : ℤ) : Except Fault Block :=
  if buf < b.head + sizeofAllocUnit t ∨ b.head + b.totalSize < buf then .ok b
  else
    let cur := buf - sizeofAllocUnit t
    let b := (b.modify cur fun u => { u with bfree := true }).addFree 1
    b.iMergeUnit cur

/-! ## What the links reach -/

/-- The headers met from `cur` along `next`. -/
def linkedFrom (b : Block) : ℕ → Option ℤ → List ℤ
  | _, none => []
  | 0, some _ => []
  | n + 1, some cur => cur :: linkedFrom b n (b.mem cur).next

def linked (b : Block) : List ℤ := b.linkedFrom b.fuel (some b.head)

/-- Whoever writes in the block without touching a linked header. -/
def overwrite (b : Block) (bytes : ℤ → AllocUnit) : Block :=
  { b with mem := fun a => if a ∈ b.linked then b.mem a else bytes a }

/-- The headers that the first loop of `i_merge_unit` comes to from `cur`. -/
def trail (b : Block) : ℕ → ℤ → List ℤ
  | 0, _ => []
  | n + 1, cur =>
    match (b.mem cur).prev with
    | none => []
    | some p => if (b.mem p).bfree then p :: trail b n p else []

/-- The merge that `free_buffer` starts at `buf` walks back over linked headers only. -/
def Retraces (t : Target) (b : Block) (buf : ℤ) : Prop :=
  let cur := buf - sizeofAllocUnit t
  let b := (b.modify cur fun u => { u with bfree := true }).addFree 1
  ∀ p ∈ b.trail b.fuel cur, p ∈ b.linked

/-- The buffer holds `newSize` bytes where it is, or does so together with the unit behind it. -/
def Fits (t : Target) (b : Block) (buf : ℤ) (newSize : ℤ) : Prop :=
  let u := b.mem (buf - sizeofAllocUnit t)
  newSize ≤ u.size ∨ ∃ next, u.next = some next ∧ (b.mem next).bfree = true ∧
    newSize ≤ u.size + (b.mem next).size - sizeofAllocUnit t

/-- The unit of the buffer lies in the block. -/
def Contains (t : Target) (b : Block) (buf : ℤ) : Prop :=
  let cur := buf - sizeofAllocUnit t
  b.head ≤ cur ∧ sizeofAllocUnit t < (b.mem cur).size ∧
    cur + (b.mem cur).size ≤ b.head + b.totalSize

end Block

/-! ## Sessions -/

/-- A block together with the buffers handed out and not given back. -/
structure Session where
  block : Block
  live : List ℤ

inductive Call where
  | alloc (size : ℤ)
  | realloc (buf : ℤ) (newSize : ℤ)
  | free (buf : ℤ)
  deriving DecidableEq, Repr

/-- What a caller has to keep: sizes are positive, and only live buffers are passed back. -/
def Session.Admissible (s : Session) : Call → Prop
  | .alloc size => 0 < size
  | .realloc buf newSize => buf ∈ s.live ∧ 0 < newSize
  | .free buf => buf ∈ s.live

instance (s : Session) (c : Call) : Decidable (s.Admissible c) := by
  cases c <;> unfold Session.Admissible <;> infer_instance

/-- The call itself; `none` is undefined behaviour. -/
def Session.exec (t : Target) (s : Session) : Call → Option Session
  | .alloc size =>
    match s.block.allocBuffer t size with
    | .error _ => none
    | .ok (none, b) => some { s with block := b }
    | .ok (some p, b) => some { block := b, live := p :: s.live }
  | .realloc buf newSize =>
    match s.block.reallocBuffer t buf newSize with
    | .error _ => none
    | .ok (_, b) => some { s with block := b }
  | .free buf =>
    match s.block.freeBuffer t buf with
    | .error _ => none
    | .ok b => some { block := b, live := s.live.filter (· ≠ buf) }

/-- An admissible call. -/
def Session.step (t : Target) (s : Session) (c : Call) : Option Session :=
  if s.Admissible c then s.exec t c else none

def Session.fresh (junk : ℤ → AllocUnit) : Session := { block := .fresh junk, live := [] }

end DevFramework.MemPool
