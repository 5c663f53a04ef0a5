import Nibble.Lib.Layout
import Nibble.Lib.Run
import Mathlib.Order.Interval.Set.Basic
import Mathlib.Order.CompletePartialOrder
import Mathlib.Data.Set.Lattice

/-!
# The arena allocator

The arena of `allocator.c`: blocks that `malloc` provides, each with a footer behind it that
names the block before, and a cursor in the newest block. Addresses are numbers below `2 ^ 64`,
and zero is the null pointer. A run follows which allocations its client may still use.
-/

namespace Nibble

/-- What a `size_t` or a `uintptr_t` keeps. -/
def u64 (n : Nat) : Nat := n % 2 ^ 64

/-- `MemBlockFooter`: where the block before begins and ends, and its cursor. -/
structure MemBlockFooter where
  pbuffer : Nat
  pat : Nat
  pend : Nat
  deriving DecidableEq, Repr

/-- `sizeof(MemBlockFooter)` -/
def MEM_BLOCK_FOOTER_SIZE : Nat := 24

/-- A block that `malloc` returned. Its footer begins at `end_`. -/
structure MemBlock where
  buffer : Nat
  end_ : Nat
  footer : MemBlockFooter
  deriving DecidableEq, Repr

/-- `Allocator`, with the blocks that it has not freed, the newest first. -/
structure Allocator where
  buffer : Nat := 0
  end_ : Nat := 0
  at_ : Nat := 0
  pat : Nat := 0
  numExpanded : Nat := 0
  heap : List MemBlock := []
  deriving DecidableEq, Repr

/-- `AllocatorState`, of the one allocator there is. -/
structure AllocatorState where
  buffer : Nat
  at_ : Nat
  pat : Nat
  deriving DecidableEq, Repr

/-- `ALIGN_UP` -/
def ALIGN_UP (p a : Nat) : Nat := (Lib.alignUpMask (BitVec.ofNat 64 p) (BitVec.ofNat 64 a)).toNat

namespace Allocator

/-- `alloc_mem_block`; `block` is what `malloc` returns. -/
def allocMemBlock (arena : Allocator) (block blockSize : Nat) : Option Allocator :=
  if block = 0 then none
  else
    let end_ := u64 (block + blockSize)
    some
      { buffer := block, at_ := block, pat := 0, end_
        numExpanded := u64 (arena.numExpanded + 1)
        heap := ⟨block, end_, ⟨arena.buffer, arena.at_, arena.end_⟩⟩ :: arena.heap }

/-- The size of the block that `mem_allocate` adds. -/
def blockSize (arena : Allocator) (size align : Nat) : Nat :=
  let blockSize := u64 (arena.end_ + (2 ^ 64 - arena.buffer))
  let worstSize := u64 (size + align)
  u64 ((if blockSize < worstSize then worstSize else blockSize) * 2)

/-- `mem_allocate`, with the address it returns. `block` is what `malloc` returns if there is not
enough room; `none` is a failed assertion. -/
def memAllocate (arena : Allocator) (block size align : Nat) : Option (Nat × Allocator) :=
  if 0 < align ∧ align &&& (align - 1) = 0 then
    let take (arena : Allocator) : Nat × Allocator :=
      let alignedAt := ALIGN_UP arena.at_ align
      (alignedAt, { arena with pat := alignedAt, at_ := u64 (alignedAt + size) })
    if arena.end_ < u64 (ALIGN_UP arena.at_ align + size) then
      match arena.allocMemBlock block (arena.blockSize size align) with
      | none => some (0, arena)
      | some arena => some (take arena)
    else some (take arena)
  else none

/-- `mem_free` -/
def memFree (arena : Allocator) (ptr : Nat) : Allocator :=
  if arena.pat ≠ 0 ∧ ptr = arena.pat then { arena with at_ := arena.pat, pat := 0 } else arena

/-- `allocator_create`; `block` is what `malloc` returns. -/
def create (block initSize : Nat) : Allocator :=
  let allocator : Allocator := {}
  (allocator.allocMemBlock block initSize).getD allocator

/-- `allocator_get_state` -/
def getState (arena : Allocator) : AllocatorState := ⟨arena.buffer, arena.at_, arena.pat⟩

/-- One round of the loop of `allocator_restore_state`: the footer at `end_` is read and the block
is freed. -/
def restoreStep (arena : Allocator) : Option Allocator := do
  let block ← arena.heap.find? fun b => b.end_ = arena.end_
  some
    { arena with
      buffer := block.footer.pbuffer
      end_ := block.footer.pend
      heap := arena.heap.eraseP fun b => b.buffer = arena.buffer }

/-- `allocator_restore_state`; there is a round for each block at most. -/
def restoreState (arena : Allocator) (state : AllocatorState) : Option Allocator :=
  (Lib.runSteps restoreStep (fun a => a.buffer = state.buffer) (arena.heap.length + 1) arena).map
    fun a => { a with at_ := state.at_, pat := state.pat }

end Allocator

/-! ## Runs -/

/-- What `mem_allocate` returned, the `id`-th time that it returned something. -/
structure Allocation where
  id : Nat
  ptr : Nat
  size : Nat
  align : Nat
  deriving DecidableEq, Repr

namespace Allocation

def stop (p : Allocation) : Nat := p.ptr + p.size

def bytes (p : Allocation) : Set Nat := Set.Ico p.ptr p.stop

end Allocation

/-- A state that was taken, with the arena as it was and the number of allocations by then. -/
structure Saved where
  state : AllocatorState
  arena : Allocator
  mark : Nat

/-- The arena and what its client knows: the allocations that are live and the states that may be
restored, the newest first. -/
structure ArenaUse where
  arena : Allocator
  next : Nat := 0
  live : List Allocation := []
  saved : List Saved := []

/-- `malloc` returns a null pointer, or a block of `n` bytes apart from all the others. -/
def Allocator.Fresh (arena : Allocator) (block n : Nat) : Prop :=
  block = 0 ∨ block + n ≤ 2 ^ 64 ∧
    ∀ b ∈ arena.heap, b.end_ + MEM_BLOCK_FOOTER_SIZE ≤ block ∨ block + n ≤ b.buffer

/-- The allocation needs no address from `2 ^ 64` on, and no block of such a size. -/
def Allocator.NoOverflow (arena : Allocator) (size align : Nat) : Prop :=
  arena.at_ + align + size < 2 ^ 64 ∧
    2 * max (arena.end_ - arena.buffer) (size + align) + MEM_BLOCK_FOOTER_SIZE < 2 ^ 64

namespace ArenaUse

/-- After an allocation; there is none if it failed. -/
def allocated (r : ArenaUse) (ptr size align : Nat) (arena : Allocator) : ArenaUse :=
  if ptr = 0 then { r with arena }
  else { r with arena, next := r.next + 1, live := ⟨r.next, ptr, size, align⟩ :: r.live }

/-- After `p` was freed. -/
def freed (r : ArenaUse) (p : Allocation) : ArenaUse :=
  { r with arena := r.arena.memFree p.ptr, live := r.live.filter (· ≠ p) }

/-- After the state was taken. -/
def marked (r : ArenaUse) : ArenaUse :=
  { r with saved := ⟨r.arena.getState, r.arena, r.next⟩ :: r.saved }

/-- After a state was restored: the allocations since are dead, and so are the states. -/
def restored (r : ArenaUse) (s : Saved) (older : List Saved) (arena : Allocator) : ArenaUse :=
  { r with arena, live := r.live.filter (·.id < s.mark), saved := s :: older }

/-- What the client comes to. It frees only what is live, and only where `ok` holds; a state that
it restores is the newest of those that it still wants. -/
inductive Reached (ok : Allocator → Allocation → Prop) : ArenaUse → Prop
  | create (block initSize : Nat)
      (hfresh : Allocator.Fresh {} block (initSize + MEM_BLOCK_FOOTER_SIZE)) :
    Reached ok { arena := Allocator.create block initSize }
  | allocate {r : ArenaUse} (h : Reached ok r) (block size k : Nat) (hk : k < 64)
      (hsize : r.arena.NoOverflow size (2 ^ k))
      (hfresh : r.arena.Fresh block (r.arena.blockSize size (2 ^ k) + MEM_BLOCK_FOOTER_SIZE))
      {ptr : Nat} {arena : Allocator}
      (hptr : r.arena.memAllocate block size (2 ^ k) = some (ptr, arena)) :
    Reached ok (r.allocated ptr size (2 ^ k) arena)
  | free {r : ArenaUse} (h : Reached ok r) (p : Allocation) (hp : p ∈ r.live)
      (hok : ok r.arena p) : Reached ok (r.freed p)
  | getState {r : ArenaUse} (h : Reached ok r) : Reached ok r.marked
  | restoreState {r : ArenaUse} (h : Reached ok r) (newer : List Saved) (s : Saved)
      (older : List Saved) (hs : r.saved = newer ++ s :: older) {arena : Allocator}
      (hrestore : r.arena.restoreState s.state = some arena) :
    Reached ok (r.restored s older arena)

/-! ## What is promised -/

/-- Every live allocation is inside one block, aligned, and apart from the others. -/
structure Sound (r : ArenaUse) : Prop where
  inside : ∀ p ∈ r.live, ∃ b ∈ r.arena.heap, b.buffer ≤ p.ptr ∧ p.stop ≤ b.end_
  aligned : ∀ p ∈ r.live, p.align ∣ p.ptr
  disjoint : ∀ p ∈ r.live, ∀ q ∈ r.live, p ≠ q → Disjoint p.bytes q.bytes

/-- To free `p` releases no byte of another allocation. -/
def FreesOwn (r : ArenaUse) (p : Allocation) : Prop :=
  Set.Ico (r.arena.memFree p.ptr).at_ r.arena.at_ ⊆ p.bytes

/-- To restore the state `s` frees the blocks that came since, and no other one, and makes the
arena what it was before the allocations since. -/
def Restores (r : ArenaUse) (s : Saved) : Prop :=
  s.arena.heap <:+ r.arena.heap ∧
    r.arena.restoreState s.state = some { s.arena with numExpanded := r.arena.numExpanded }

end ArenaUse

end Nibble
