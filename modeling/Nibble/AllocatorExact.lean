import Nibble.Allocator

/-!
# What the arena keeps

The blocks are linked by their footers and apart, and the live allocations of the newest block end
at the cursor or before. A remembered allocation is the last one of its block; where it is not the
one that is freed, but shares its address, the cursor goes back behind the one that was freed only
if that one ends where the cursor was.
-/

namespace Nibble

open Lib (alignUp le_alignUp alignUp_lt dvd_alignUp)

theorem u64_of_lt {n : Nat} (h : n < 2 ^ 64) : u64 n = n := Nat.mod_eq_of_lt h

theorem ALIGN_UP_eq {p k : Nat} (hk : k < 64) (h : alignUp p (2 ^ k) < 2 ^ 64) :
    ALIGN_UP p (2 ^ k) = alignUp p (2 ^ k) := by
  rw [ALIGN_UP, Lib.alignUpMask_ofNat hk, BitVec.toNat_ofNat, Nat.mod_eq_of_lt h]

/-- The assertions of `mem_allocate` hold of a power of two. -/
theorem two_pow_and (k : Nat) : 2 ^ k &&& (2 ^ k - 1) = 0 := by
  rw [Nat.and_two_pow_sub_one_eq_mod, Nat.mod_self]

/-- The blocks and their footers are apart. -/
def MemBlock.Apart (b c : MemBlock) : Prop :=
  b.end_ + MEM_BLOCK_FOOTER_SIZE ≤ c.buffer ∨ c.end_ + MEM_BLOCK_FOOTER_SIZE ≤ b.buffer

/-- The footers lead from the block between `buffer` and `end_` through the blocks. -/
def Linked (buffer end_ : Nat) : List MemBlock → Prop
  | [] => buffer = 0 ∧ end_ = 0
  | b :: heap => b.buffer = buffer ∧ b.end_ = end_ ∧ Linked b.footer.pbuffer b.footer.pend heap

theorem Linked.unique {b e b' e' : Nat} {heap : List MemBlock} (h : Linked b e heap)
    (h' : Linked b' e' heap) : b = b' ∧ e = e' := by
  cases heap with
  | nil => exact ⟨h.1.trans h'.1.symm, h.2.trans h'.2.symm⟩
  | cons c heap => exact ⟨h.1.symm.trans h'.1, h.2.1.symm.trans h'.2.1⟩

namespace Allocator

/-- The blocks are blocks, and the cursor is in the newest one. -/
structure WF (arena : Allocator) : Prop where
  linked : Linked arena.buffer arena.end_ arena.heap
  bounds : ∀ b ∈ arena.heap, 0 < b.buffer ∧ b.buffer ≤ b.end_ ∧ b.end_ < 2 ^ 64
  apart : arena.heap.Pairwise MemBlock.Apart
  le_cursor : arena.buffer ≤ arena.at_
  cursor_le : arena.at_ ≤ arena.end_

/-! ## `mem_allocate` -/

/-- The arena with a new block of `n` bytes. -/
def grown (arena : Allocator) (block n : Nat) : Allocator where
  buffer := block
  at_ := block
  pat := 0
  end_ := block + n
  numExpanded := u64 (arena.numExpanded + 1)
  heap := ⟨block, block + n, ⟨arena.buffer, arena.at_, arena.end_⟩⟩ :: arena.heap

/-- The arena behind an allocation in the newest block. -/
def bumped (arena : Allocator) (size align : Nat) : Allocator :=
  { arena with pat := alignUp arena.at_ align, at_ := alignUp arena.at_ align + size }

theorem allocMemBlock_eq (arena : Allocator) {block n : Nat} (hne : block ≠ 0)
    (h : block + n < 2 ^ 64) : arena.allocMemBlock block n = some (arena.grown block n) := by
  simp [allocMemBlock, grown, hne, u64_of_lt h]

variable {arena : Allocator} {size k block : Nat}

theorem WF.end_lt (h : arena.WF) : arena.end_ < 2 ^ 64 := by
  have hlinked := h.linked
  cases hheap : arena.heap with
  | nil =>
    rw [hheap] at hlinked
    exact hlinked.2 ▸ Nat.two_pow_pos 64
  | cons b heap =>
    rw [hheap] at hlinked
    exact hlinked.2.1 ▸ (h.bounds b (hheap ▸ List.mem_cons_self)).2.2

theorem blockSize_eq (h : arena.WF) (hsize : arena.NoOverflow size (2 ^ k)) :
    arena.blockSize size (2 ^ k) = 2 * max (arena.end_ - arena.buffer) (size + 2 ^ k) := by
  obtain ⟨-, hroom⟩ := hsize
  have hend := h.end_lt
  have hle := Nat.le_trans h.le_cursor h.cursor_le
  have hlen : u64 (arena.end_ + (2 ^ 64 - arena.buffer)) = arena.end_ - arena.buffer := by
    rw [show arena.end_ + (2 ^ 64 - arena.buffer) = arena.end_ - arena.buffer + 2 ^ 64 by omega,
      u64, Nat.add_mod_right]
    exact Nat.mod_eq_of_lt (by omega)
  have hworst : u64 (size + 2 ^ k) = size + 2 ^ k := u64_of_lt (by omega)
  simp only [blockSize, hlen, hworst]
  split
  · rw [u64_of_lt (by omega)]
    omega
  · rw [u64_of_lt (by omega)]
    omega

/-- An allocation is put into the newest block if that has room, and else into a new one if there
is memory for it. -/
theorem memAllocate_eq (h : arena.WF) (hk : k < 64) (hsize : arena.NoOverflow size (2 ^ k))
    (hfresh : arena.Fresh block (arena.blockSize size (2 ^ k) + MEM_BLOCK_FOOTER_SIZE)) :
    arena.memAllocate block size (2 ^ k) =
      some (if alignUp arena.at_ (2 ^ k) + size ≤ arena.end_ then
        (alignUp arena.at_ (2 ^ k), arena.bumped size (2 ^ k))
      else if block = 0 then (0, arena)
      else
        let arena := arena.grown block (arena.blockSize size (2 ^ k))
        (alignUp arena.at_ (2 ^ k), arena.bumped size (2 ^ k))) := by
  have hpos := Nat.two_pow_pos k
  have hlt := alignUp_lt arena.at_ hpos
  have hat : alignUp arena.at_ (2 ^ k) + size < 2 ^ 64 := by
    have := hsize.1
    omega
  have hup : ALIGN_UP arena.at_ (2 ^ k) = alignUp arena.at_ (2 ^ k) := ALIGN_UP_eq hk (by omega)
  have hnew : u64 (alignUp arena.at_ (2 ^ k) + size) = alignUp arena.at_ (2 ^ k) + size :=
    u64_of_lt hat
  unfold memAllocate
  rw [if_pos ⟨hpos, two_pow_and k⟩]
  simp only [hup, hnew]
  by_cases hroom : alignUp arena.at_ (2 ^ k) + size ≤ arena.end_
  · rw [if_neg (Nat.not_lt.mpr hroom), if_pos hroom]
    rfl
  rw [if_pos (Nat.not_le.mp hroom), if_neg hroom]
  by_cases hblock : block = 0
  · simp [allocMemBlock, hblock]
  -- the new block has room for twice the size and the alignment
  have hn := blockSize_eq h hsize
  have hmax : size + 2 ^ k ≤ arena.blockSize size (2 ^ k) := by omega
  have hend : block + arena.blockSize size (2 ^ k) < 2 ^ 64 := by
    have := (hfresh.resolve_left hblock).1
    rw [MEM_BLOCK_FOOTER_SIZE] at this
    omega
  have hblt := alignUp_lt block hpos
  rw [allocMemBlock_eq arena hblock hend, if_neg hblock]
  have hbup : ALIGN_UP block (2 ^ k) = alignUp block (2 ^ k) := ALIGN_UP_eq hk (by omega)
  have hbnew : u64 (alignUp block (2 ^ k) + size) = alignUp block (2 ^ k) + size :=
    u64_of_lt (by omega)
  simp only [grown, bumped, hbup, hbnew]

theorem WF.grown (h : arena.WF) {n : Nat} (hne : block ≠ 0)
    (hfresh : arena.Fresh block (n + MEM_BLOCK_FOOTER_SIZE)) : (arena.grown block n).WF := by
  obtain ⟨hend, hapart⟩ := hfresh.resolve_left hne
  refine ⟨⟨rfl, rfl, h.linked⟩, ?_, List.Pairwise.cons ?_ h.apart, Nat.le_refl _,
    Nat.le_add_right _ _⟩
  · intro b hb
    rcases List.mem_cons.mp hb with rfl | hb
    · have hlt : block + n < 2 ^ 64 := by
        rw [MEM_BLOCK_FOOTER_SIZE] at hend
        omega
      exact ⟨Nat.pos_of_ne_zero hne, Nat.le_add_right _ _, hlt⟩
    · exact h.bounds b hb
  · intro b hb
    rcases hapart b hb with hlo | hhi
    · exact .inr hlo
    · have hlt : block + n + MEM_BLOCK_FOOTER_SIZE ≤ b.buffer := by omega
      exact .inl hlt

/-! ## Live allocations -/

/-- Where the live allocations are, those of the newest block against the cursor and against the
allocation that is remembered. -/
structure Layout (arena : Allocator) (live : List Allocation) : Prop extends arena.WF where
  inside : ∀ p ∈ live, ∃ b ∈ arena.heap, b.buffer ≤ p.ptr ∧ p.stop ≤ b.end_
  aligned : ∀ p ∈ live, p.align ∣ p.ptr
  disjoint : ∀ p ∈ live, ∀ q ∈ live, p ≠ q → p.stop ≤ q.ptr ∨ q.stop ≤ p.ptr
  below : ∀ p ∈ live, arena.buffer ≤ p.ptr → p.ptr ≤ arena.end_ → p.stop ≤ arena.at_
  pat_range : arena.pat ≠ 0 → arena.buffer ≤ arena.pat ∧ arena.pat ≤ arena.at_
  pat_last : arena.pat ≠ 0 → ∀ p ∈ live, arena.buffer ≤ p.ptr → p.ptr ≤ arena.end_ →
    p.stop ≤ arena.pat ∨ p.ptr = arena.pat ∧ p.stop = arena.at_

namespace Layout

variable {live : List Allocation} {p : Allocation}

theorem mono (h : arena.Layout live) {live' : List Allocation} (hsub : ∀ p ∈ live', p ∈ live) :
    arena.Layout live' where
  toWF := h.toWF
  inside p hp := h.inside p (hsub p hp)
  aligned p hp := h.aligned p (hsub p hp)
  disjoint p hp q hq := h.disjoint p (hsub p hp) q (hsub q hq)
  below p hp := h.below p (hsub p hp)
  pat_range := h.pat_range
  pat_last hpat p hp := h.pat_last hpat p (hsub p hp)

theorem expanded (h : arena.Layout live) (n : Nat) :
    Layout { arena with numExpanded := n } live :=
  { h with }

/-- An allocation is in the newest block or apart from it. -/
theorem newest_or_apart (h : arena.Layout live) (hp : p ∈ live) :
    (arena.buffer ≤ p.ptr ∧ p.stop ≤ arena.end_) ∨ p.stop < arena.buffer ∨ arena.end_ < p.ptr := by
  obtain ⟨c, hc, hlo, hhi⟩ := h.inside p hp
  have hlinked := h.linked
  have hapart := h.apart
  cases hheap : arena.heap with
  | nil =>
    rw [hheap] at hc
    cases hc
  | cons b heap =>
    rw [hheap] at hc hlinked hapart
    rw [← hlinked.1, ← hlinked.2.1]
    rcases List.mem_cons.mp hc with rfl | hc
    · exact .inl ⟨hlo, hhi⟩
    · have hstop : p.ptr ≤ p.stop := Nat.le_add_right _ _
      have hbc := List.rel_of_pairwise_cons hapart hc
      rw [MemBlock.Apart, MEM_BLOCK_FOOTER_SIZE] at hbc
      right
      omega

/-- A new block is apart from the allocations. -/
theorem grown (h : arena.Layout live) {n : Nat} (hne : block ≠ 0)
    (hfresh : arena.Fresh block (n + MEM_BLOCK_FOOTER_SIZE)) :
    (arena.grown block n).Layout live where
  toWF := h.toWF.grown hne hfresh
  inside p hp := by
    obtain ⟨b, hb, hin⟩ := h.inside p hp
    exact ⟨b, List.mem_cons_of_mem _ hb, hin⟩
  aligned := h.aligned
  disjoint := h.disjoint
  below p hp hlo hhi := by
    obtain ⟨b, hb, hin⟩ := h.inside p hp
    have hstop : p.ptr ≤ p.stop := Nat.le_add_right _ _
    have hlo : block ≤ p.ptr := hlo
    have hhi : p.ptr ≤ block + n := hhi
    have hapart := (hfresh.resolve_left hne).2 b hb
    rw [MEM_BLOCK_FOOTER_SIZE] at hapart
    omega
  pat_range hpat := absurd rfl hpat
  pat_last hpat := absurd rfl hpat

/-- The cursor moves past what it makes room for. -/
theorem bumped (h : arena.Layout live)
    (hroom : alignUp arena.at_ (2 ^ k) + size ≤ arena.end_) :
    (arena.bumped size (2 ^ k)).Layout live where
  linked := h.linked
  bounds := h.bounds
  apart := h.apart
  le_cursor := by
    have := le_alignUp arena.at_ (Nat.two_pow_pos k)
    exact Nat.le_trans h.le_cursor (Nat.le_trans this (Nat.le_add_right _ _))
  cursor_le := hroom
  inside := h.inside
  aligned := h.aligned
  disjoint := h.disjoint
  below p hp hlo hhi := by
    have hup := le_alignUp arena.at_ (Nat.two_pow_pos k)
    exact Nat.le_trans (h.below p hp hlo hhi) (Nat.le_trans hup (Nat.le_add_right _ _))
  pat_range _ :=
    ⟨Nat.le_trans h.le_cursor (le_alignUp arena.at_ (Nat.two_pow_pos k)), Nat.le_add_right _ _⟩
  pat_last _ p hp hlo hhi :=
    .inl (Nat.le_trans (h.below p hp hlo hhi) (le_alignUp arena.at_ (Nat.two_pow_pos k)))

/-- What it made room for is an allocation. -/
theorem allocate (h : arena.Layout live)
    (hroom : alignUp arena.at_ (2 ^ k) + size ≤ arena.end_) (hne : alignUp arena.at_ (2 ^ k) ≠ 0)
    (id : Nat) :
    (arena.bumped size (2 ^ k)).Layout (⟨id, alignUp arena.at_ (2 ^ k), size, 2 ^ k⟩ :: live) := by
  have hup := le_alignUp arena.at_ (Nat.two_pow_pos k)
  have hbump := h.bumped hroom
  have hlo := Nat.le_trans h.le_cursor hup
  -- the allocations before end at the cursor, or are in another block
  have hold : ∀ q ∈ live, q.stop ≤ alignUp arena.at_ (2 ^ k) ∨
      alignUp arena.at_ (2 ^ k) + size ≤ q.ptr := by
    intro q hq
    have hstop : q.ptr ≤ q.stop := Nat.le_add_right _ _
    rcases h.newest_or_apart hq with hnew | hlt | hgt
    · exact .inl (Nat.le_trans (h.below q hq hnew.1 (Nat.le_trans hstop hnew.2)) hup)
    · exact .inl (by omega)
    · exact .inr (by omega)
  refine { hbump with inside := ?_, aligned := ?_, disjoint := ?_, below := ?_, pat_last := ?_ }
  · refine List.forall_mem_cons.mpr ⟨?_, hbump.inside⟩
    have hlinked := h.linked
    cases hheap : arena.heap with
    | nil =>
      rw [hheap] at hlinked
      have hend := hlinked.2
      omega
    | cons b heap =>
      rw [hheap] at hlinked
      refine ⟨b, hheap ▸ List.mem_cons_self, ?_, ?_⟩
      · exact hlinked.1 ▸ hlo
      · exact hlinked.2.1 ▸ hroom
  · exact List.forall_mem_cons.mpr ⟨dvd_alignUp _ _, hbump.aligned⟩
  · intro p hp q hq hpq
    rcases List.mem_cons.mp hp with rfl | hp <;> rcases List.mem_cons.mp hq with rfl | hq
    · exact absurd rfl hpq
    · exact (hold q hq).symm
    · exact hold p hp
    · exact hbump.disjoint p hp q hq hpq
  · exact List.forall_mem_cons.mpr ⟨fun _ _ => Nat.le_refl _, hbump.below⟩
  · intro hpat
    exact List.forall_mem_cons.mpr ⟨fun _ _ => .inr ⟨rfl, rfl⟩, hbump.pat_last hpat⟩

theorem ptr_ne_zero (h : arena.Layout live) (hp : p ∈ live) : p.ptr ≠ 0 := by
  obtain ⟨b, hb, hlo, -⟩ := h.inside p hp
  have := (h.bounds b hb).1
  omega

end Layout

/-! ## `mem_free` -/

/-- The cursor is not behind the end of `p`, if `p` has the address that is remembered. -/
def FreeOk (arena : Allocator) (p : Allocation) : Prop := arena.pat = p.ptr → arena.at_ ≤ p.stop

namespace Layout

variable {live : List Allocation} {p : Allocation}

theorem memFree_eq (h : arena.Layout live) (hp : p ∈ live) :
    arena.memFree p.ptr =
      if arena.pat = p.ptr then { arena with at_ := p.ptr, pat := 0 } else arena := by
  unfold memFree
  by_cases hpat : arena.pat = p.ptr
  · have hne := h.ptr_ne_zero hp
    rw [if_pos ⟨hpat ▸ hne, hpat.symm⟩, if_pos hpat, hpat]
  · rw [if_neg fun hc => hpat hc.2.symm, if_neg hpat]

theorem memFree (h : arena.Layout live) (hp : p ∈ live) (hok : arena.FreeOk p) :
    (arena.memFree p.ptr).Layout (live.filter (· ≠ p)) := by
  have hsub : ∀ q ∈ live.filter (· ≠ p), q ∈ live := fun q hq => (List.mem_filter.mp hq).1
  rw [h.memFree_eq hp]
  by_cases hpat : arena.pat = p.ptr
  · have hne : arena.pat ≠ 0 := hpat ▸ h.ptr_ne_zero hp
    obtain ⟨hlo, hhi⟩ := h.pat_range hne
    rw [if_pos hpat]
    refine
      { h.mono hsub with
        le_cursor := hpat ▸ hlo
        cursor_le := hpat ▸ Nat.le_trans hhi h.cursor_le
        below := ?_
        pat_range := fun hc => absurd rfl hc
        pat_last := fun hc => absurd rfl hc }
    intro q hq hqlo hqhi
    have hqp : q ≠ p := by simpa using (List.mem_filter.mp hq).2
    have hstop := hok hpat
    -- an allocation at the address of `p` is empty, or `p` is and the cursor did not pass it
    rcases h.pat_last hne q (hsub q hq) hqlo hqhi with hq' | ⟨hptr, hend⟩
    · exact hpat ▸ hq'
    · rcases h.disjoint q (hsub q hq) p hp hqp with hle | hle
      · exact hle
      · have hend : q.stop ≤ p.ptr := by omega
        exact hend
  · rw [if_neg hpat]
    exact h.mono hsub

/-- An allocation that is not empty can be freed: no other one has its address. -/
theorem freeOk (h : arena.Layout live) (hp : p ∈ live) (hsize : 0 < p.size) : arena.FreeOk p := by
  intro hpat
  have hne : arena.pat ≠ 0 := hpat ▸ h.ptr_ne_zero hp
  obtain ⟨hlo, hhi⟩ := h.pat_range hne
  have hlt : p.ptr < p.stop := Nat.lt_add_of_pos_right hsize
  have hend := h.cursor_le
  rcases h.pat_last hne p hp (by omega) (by omega) with hle | ⟨-, hstop⟩
  · omega
  · exact hstop ▸ Nat.le_refl _

end Layout

/-! ## `allocator_restore_state` -/

/-- What the loop keeps: blocks that came later than those of `arena`. -/
structure Rewinding (arena : Allocator) (expanded : Nat) (a : Allocator) : Prop where
  linked : Linked a.buffer a.end_ a.heap
  bounds : ∀ b ∈ a.heap, 0 < b.buffer ∧ b.buffer ≤ b.end_ ∧ b.end_ < 2 ^ 64
  apart : a.heap.Pairwise MemBlock.Apart
  suffix : arena.heap <:+ a.heap
  expanded_eq : a.numExpanded = expanded

variable {a : Allocator} {expanded : Nat}

/-- A round frees a block that came later. -/
theorem Rewinding.step (hsaved : arena.WF) (h : arena.Rewinding expanded a)
    (hne : ¬ a.buffer = arena.buffer) :
    ∃ a', a.restoreStep = some a' ∧ arena.Rewinding expanded a' ∧
      a'.heap.length < a.heap.length := by
  obtain ⟨hlinked, hbounds, hapart, hsuffix, hexpanded⟩ := h
  cases hheap : a.heap with
  | nil =>
    rw [hheap] at hlinked hsuffix
    have hsame := hsaved.linked
    rw [List.suffix_nil.mp hsuffix] at hsame
    exact absurd (hlinked.1.trans hsame.1.symm) hne
  | cons b heap =>
    rw [hheap] at hlinked hbounds hapart hsuffix
    refine ⟨{ a with buffer := b.footer.pbuffer, end_ := b.footer.pend, heap }, ?_, ?_, ?_⟩
    · simp [restoreStep, hheap, hlinked.1, hlinked.2.1]
    · refine ⟨hlinked.2.2, fun c hc => hbounds c (List.mem_cons_of_mem b hc), hapart.of_cons, ?_,
        hexpanded⟩
      rcases List.suffix_cons_iff.mp hsuffix with heq | hsuffix
      · have hsame := hsaved.linked
        rw [heq] at hsame
        exact absurd (hlinked.1.symm.trans hsame.1) hne
      · exact hsuffix
    · exact Nat.lt_succ_self heap.length

/-- The loop ends at the blocks of `arena`. -/
theorem Rewinding.heap_eq (hsaved : arena.WF) (h : arena.Rewinding expanded a)
    (hbuffer : a.buffer = arena.buffer) : a.heap = arena.heap := by
  obtain ⟨newer, hnewer⟩ := h.suffix
  cases newer with
  | nil => exact hnewer.symm
  | cons b newer =>
    have hlinked := h.linked
    have hapart := h.apart
    rw [← hnewer] at hlinked hapart
    have hsame := hsaved.linked
    have hb : 0 < b.buffer ∧ b.buffer ≤ b.end_ ∧ b.end_ < 2 ^ 64 :=
      h.bounds b (hnewer ▸ List.mem_cons_self)
    have hbeq : b.buffer = arena.buffer := hlinked.1.trans hbuffer
    cases hheap : arena.heap with
    | nil =>
      rw [hheap] at hsame
      have := hsame.1
      omega
    | cons c heap =>
      rw [hheap] at hsame hapart
      have hc := hsaved.bounds c (hheap ▸ List.mem_cons_self)
      have hbc : b.Apart c := List.rel_of_pairwise_cons hapart (by simp)
      have hceq := hsame.1
      rw [MemBlock.Apart, MEM_BLOCK_FOOTER_SIZE] at hbc
      omega

/-- The state of an earlier arena is restored in a later one. -/
theorem restoreState_eq {later : Allocator} (hsaved : arena.WF) (hlater : later.WF)
    (hsuffix : arena.heap <:+ later.heap) :
    later.restoreState arena.getState = some { arena with numExpanded := later.numExpanded } := by
  have hstart : arena.Rewinding later.numExpanded later :=
    ⟨hlater.linked, hlater.bounds, hlater.apart, hsuffix, rfl⟩
  obtain ⟨a, hrun, hinv, hhalt⟩ :=
    Lib.runSteps_halts (fun a h hne => h.step hsaved hne) hstart (Nat.lt_succ_self _)
  have hheap := hinv.heap_eq hsaved hhalt
  have hlinked := hinv.linked
  rw [hheap] at hlinked
  obtain ⟨hbuffer, hend⟩ := hlinked.unique hsaved.linked
  have hrun : Lib.runSteps restoreStep (fun a => a.buffer = arena.getState.buffer)
      (later.heap.length + 1) later = some a := hrun
  rw [restoreState, hrun]
  simp [getState, hbuffer, hend, hheap, hinv.expanded_eq]

end Allocator

/-! ## Runs -/

namespace ArenaUse

open Allocator (FreeOk Layout)

/-- The arena of a state that was taken, with what is still live of its allocations. -/
def SavedIn (r : ArenaUse) (s : Saved) : Prop :=
  s.state = s.arena.getState ∧ s.mark ≤ r.next ∧ s.arena.heap <:+ r.arena.heap ∧
    s.arena.Layout (r.live.filter (·.id < s.mark))

/-- What a run keeps. -/
structure Inv (r : ArenaUse) : Prop where
  layout : r.arena.Layout r.live
  ids : ∀ p ∈ r.live, p.id < r.next
  saved : ∀ s ∈ r.saved, r.SavedIn s
  stacked : r.saved.Pairwise fun new old => old.mark ≤ new.mark ∧ old.arena.heap <:+ new.arena.heap

theorem SavedIn.restores {r : ArenaUse} {s : Saved} (h : r.SavedIn s) (hr : r.Inv) :
    r.Restores s := by
  obtain ⟨hstate, -, hsuffix, hlayout⟩ := h
  refine ⟨hsuffix, ?_⟩
  rw [hstate]
  exact Allocator.restoreState_eq hlayout.toWF hr.layout.toWF hsuffix

theorem create_inv (block initSize : Nat)
    (hfresh : Allocator.Fresh {} block (initSize + MEM_BLOCK_FOOTER_SIZE)) :
    Inv { arena := Allocator.create block initSize } := by
  have hempty : Layout {} [] :=
    { linked := ⟨rfl, rfl⟩
      bounds := fun b hb => by cases hb
      apart := .nil
      le_cursor := Nat.le_refl 0
      cursor_le := Nat.le_refl 0
      inside := fun p hp => by cases hp
      aligned := fun p hp => by cases hp
      disjoint := fun p hp => by cases hp
      below := fun p hp => by cases hp
      pat_range := fun hpat => absurd rfl hpat
      pat_last := fun hpat => absurd rfl hpat }
  refine ⟨?_, fun p hp => (by cases hp), fun s hs => (by cases hs), .nil⟩
  unfold Allocator.create
  by_cases hblock : block = 0
  · simpa [Allocator.allocMemBlock, hblock] using hempty
  · have hend := (hfresh.resolve_left hblock).1
    rw [MEM_BLOCK_FOOTER_SIZE] at hend
    have hlt : block + initSize < 2 ^ 64 := by omega
    have hgrown := Allocator.allocMemBlock_eq {} hblock hlt
    simpa only [hgrown, Option.getD_some] using hempty.grown hblock hfresh

namespace Inv

variable {r : ArenaUse}

/-- The steps that leave the states alone and keep what they hold. -/
theorem update (h : r.Inv) {r' : ArenaUse} (hlayout : r'.arena.Layout r'.live)
    (hids : ∀ p ∈ r'.live, p.id < r'.next) (hsaved : r'.saved = r.saved) (hnext : r.next ≤ r'.next)
    (hheap : r.arena.heap <:+ r'.arena.heap)
    (hlive : ∀ p ∈ r'.live, p ∈ r.live ∨ r.next ≤ p.id) : r'.Inv := by
  refine ⟨hlayout, hids, fun s hs => ?_, hsaved ▸ h.stacked⟩
  obtain ⟨hstate, hmark, hsuffix, hold⟩ := h.saved s (hsaved ▸ hs)
  refine ⟨hstate, Nat.le_trans hmark hnext, hsuffix.trans hheap, hold.mono fun p hp => ?_⟩
  obtain ⟨hp, hid⟩ := List.mem_filter.mp hp
  have hid : p.id < s.mark := by simpa using hid
  rcases hlive p hp with hp | hnew
  · exact List.mem_filter.mpr ⟨hp, by simpa using hid⟩
  · omega

theorem allocate (h : r.Inv) {block size k ptr : Nat} {arena : Allocator} (hk : k < 64)
    (hsize : r.arena.NoOverflow size (2 ^ k))
    (hfresh : r.arena.Fresh block (r.arena.blockSize size (2 ^ k) + MEM_BLOCK_FOOTER_SIZE))
    (hptr : r.arena.memAllocate block size (2 ^ k) = some (ptr, arena)) :
    (r.allocated ptr size (2 ^ k) arena).Inv := by
  -- with room in the newest block of `a`, which keeps the allocations
  have hbump : ∀ a : Allocator, a.Layout r.live → r.arena.heap <:+ a.heap →
      alignUp a.at_ (2 ^ k) + size ≤ a.end_ →
      (r.allocated (alignUp a.at_ (2 ^ k)) size (2 ^ k) (a.bumped size (2 ^ k))).Inv := by
    intro a ha hheap hroom
    unfold allocated
    split
    · exact h.update (ha.bumped hroom) h.ids rfl (Nat.le_refl _) hheap fun p hp => .inl hp
    · rename_i hne
      refine h.update (ha.allocate hroom hne r.next) ?_ rfl (Nat.le_succ _) hheap ?_
      · refine List.forall_mem_cons.mpr ⟨Nat.lt_succ_self _, fun p hp => ?_⟩
        exact Nat.lt_succ_of_lt (h.ids p hp)
      · exact List.forall_mem_cons.mpr ⟨.inr (Nat.le_refl _), fun p hp => .inl hp⟩
  rw [Allocator.memAllocate_eq h.layout.toWF hk hsize hfresh] at hptr
  split at hptr
  · cases hptr
    exact hbump r.arena h.layout (List.suffix_refl _) ‹_›
  split at hptr
  · cases hptr
    exact h
  · rename_i hne
    cases hptr
    refine hbump _ (h.layout.grown hne hfresh) (List.suffix_cons _ _) ?_
    have hblt := Lib.alignUp_lt block (Nat.two_pow_pos k)
    have hn := Allocator.blockSize_eq h.layout.toWF hsize
    change alignUp block (2 ^ k) + size ≤ block + r.arena.blockSize size (2 ^ k)
    omega

theorem free (h : r.Inv) {p : Allocation} (hp : p ∈ r.live) (hok : FreeOk r.arena p) :
    (r.freed p).Inv := by
  have hsub : ∀ q ∈ r.live.filter (· ≠ p), q ∈ r.live := fun q hq => (List.mem_filter.mp hq).1
  refine h.update (h.layout.memFree hp hok) (fun q hq => h.ids q (hsub q hq)) rfl (Nat.le_refl _)
    ?_ fun q hq => .inl (hsub q hq)
  have hheap : (r.freed p).arena.heap = r.arena.heap := by
    unfold freed Allocator.memFree
    dsimp only
    split <;> rfl
  exact hheap ▸ List.suffix_refl _

theorem marked (h : r.Inv) : r.marked.Inv := by
  refine ⟨h.layout, h.ids, ?_, .cons (fun s hs => ?_) h.stacked⟩
  · refine List.forall_mem_cons.mpr ⟨?_, h.saved⟩
    refine ⟨rfl, Nat.le_refl _, List.suffix_refl _, h.layout.mono fun p hp => ?_⟩
    exact (List.mem_filter.mp hp).1
  · exact ⟨(h.saved s hs).2.1, (h.saved s hs).2.2.1⟩

theorem restored (h : r.Inv) {newer older : List Saved} {s : Saved} {arena : Allocator}
    (hs : r.saved = newer ++ s :: older) (hrestore : r.arena.restoreState s.state = some arena) :
    (r.restored s older arena).Inv := by
  have hsaved := h.saved s (by simp [hs])
  have hstack := h.stacked
  rw [hs] at hstack
  have hstack := (List.pairwise_append.mp hstack).2.1
  have hrestores := (SavedIn.restores hsaved h).2
  rw [hrestores] at hrestore
  obtain ⟨hstate, hmark, -, hlayout⟩ := hsaved
  cases hrestore
  refine ⟨hlayout.expanded _, ?_, ?_, hstack⟩
  · exact fun p hp => h.ids p (List.mem_filter.mp hp).1
  refine List.forall_mem_cons.mpr ⟨?_, fun old hold => ?_⟩
  · refine ⟨hstate, hmark, List.suffix_refl _, hlayout.mono fun p hp => ?_⟩
    exact (List.mem_filter.mp hp).1
  · obtain ⟨hstate, hmark, -, hold'⟩ := h.saved old (by simp [hs, hold])
    have hbelow := List.rel_of_pairwise_cons hstack hold
    refine ⟨hstate, hmark, hbelow.2, hold'.mono fun p hp => ?_⟩
    obtain ⟨hp, hid⟩ := List.mem_filter.mp hp
    exact List.mem_filter.mpr ⟨(List.mem_filter.mp hp).1, hid⟩

end Inv

theorem Reached.inv {r : ArenaUse} (h : Reached FreeOk r) : r.Inv := by
  induction h with
  | create block initSize hfresh => exact create_inv block initSize hfresh
  | allocate _ block size k hk hsize hfresh hptr ih => exact ih.allocate hk hsize hfresh hptr
  | free _ p hp hok ih => exact ih.free hp hok
  | getState _ ih => exact ih.marked
  | restoreState _ newer s older hs hrestore ih => exact ih.restored hs hrestore

theorem Inv.sound {r : ArenaUse} (h : r.Inv) : r.Sound where
  inside := h.layout.inside
  aligned := h.layout.aligned
  disjoint p hp q hq hpq := by
    refine Set.disjoint_left.mpr fun x hx hx' => ?_
    have hx := Set.mem_Ico.mp hx
    have hx' := Set.mem_Ico.mp hx'
    rcases h.layout.disjoint p hp q hq hpq with hle | hle <;> omega

theorem Inv.freesOwn_iff {r : ArenaUse} (h : r.Inv) {p : Allocation} (hp : p ∈ r.live) :
    r.FreesOwn p ↔ FreeOk r.arena p := by
  unfold FreesOwn FreeOk
  rw [h.layout.memFree_eq hp]
  by_cases hpat : r.arena.pat = p.ptr
  · rw [if_pos hpat]
    have hlt := (h.layout.pat_range (hpat ▸ h.layout.ptr_ne_zero hp)).2
    constructor
    · intro hsub _
      by_contra hgt
      have hstop : p.ptr ≤ p.stop := Nat.le_add_right _ _
      -- the byte at the end of `p` is released, and is none of its bytes
      have hx : p.stop ∈ p.bytes := hsub ⟨hstop, Nat.not_le.mp hgt⟩
      exact Nat.lt_irrefl _ hx.2
    · exact fun hle => Set.Ico_subset_Ico (Nat.le_refl _) (hle hpat)
  · rw [if_neg hpat, Set.Ico_self]
    exact iff_of_true (Set.empty_subset _) fun hc => absurd hc hpat

/-- A run that frees no empty allocation is one whose frees are of what reaches to the cursor. -/
theorem Reached.of_pos {r : ArenaUse} (h : Reached (fun _ p => 0 < p.size) r) :
    Reached FreeOk r := by
  induction h with
  | create block initSize hfresh => exact .create block initSize hfresh
  | allocate _ block size k hk hsize hfresh hptr ih =>
    exact .allocate ih block size k hk hsize hfresh hptr
  | free _ p hp hsize ih => exact .free ih p hp (ih.inv.layout.freeOk hp hsize)
  | getState _ ih => exact .getState ih
  | restoreState _ newer s older hs hrestore ih => exact .restoreState ih newer s older hs hrestore

/-- In every run whose frees are of allocations that reach to the cursor, or that are not at the
address that is remembered, the live allocations are sound, a free releases what it is to release
exactly where it is such a free, and a state is restored as it was. -/
theorem arena_exact {r : ArenaUse} (h : Reached FreeOk r) :
    r.Sound ∧ (∀ p ∈ r.live, r.FreesOwn p ↔ FreeOk r.arena p) ∧ ∀ s ∈ r.saved, r.Restores s :=
  ⟨h.inv.sound, fun _ hp => h.inv.freesOwn_iff hp, fun s hs => (h.inv.saved s hs).restores h.inv⟩

/-- Two allocations, the second one behind a state that was taken. -/
theorem arena_two_allocations : ∃ p q s r, Reached FreeOk r ∧ r.live = [q, p] ∧ r.saved = [s] ∧
    r.Sound ∧ (∀ p ∈ r.live, r.FreesOwn p ↔ FreeOk r.arena p) ∧ ∀ s ∈ r.saved, r.Restores s := by
  have hcreate : Reached FreeOk { arena := Allocator.create 4096 64 } :=
    .create 4096 64 (.inr ⟨by decide, fun b hb => by cases hb⟩)
  have hfirst := hcreate.allocate 0 8 3 (by decide) ⟨by decide, by decide⟩ (.inl rfl) rfl
  have hsecond := hfirst.getState.allocate 0 8 3 (by decide) ⟨by decide, by decide⟩ (.inl rfl) rfl
  exact ⟨_, _, _, _, hsecond, rfl, rfl, arena_exact hsecond⟩

/-- An allocation of no bytes shares its address with the next one, which is released with it. -/
theorem empty_allocation_releases_next :
    ¬ ∀ r, Reached (fun _ _ => True) r →
      r.Sound ∧ (∀ p ∈ r.live, r.FreesOwn p) ∧ ∀ s ∈ r.saved, r.Restores s := by
  intro h
  have hcreate : Reached (fun _ _ => True) { arena := Allocator.create 4096 64 } :=
    .create 4096 64 (.inr ⟨by decide, fun b hb => by cases hb⟩)
  have hempty := hcreate.allocate 0 0 0 (by decide) ⟨by decide, by decide⟩ (.inl rfl) rfl
  have hnext := hempty.allocate 0 8 0 (by decide) ⟨by decide, by decide⟩ (.inl rfl) rfl
  have hfree := hnext.free ⟨0, 4096, 0, 1⟩ (by decide) trivial
  have hover := hfree.allocate 0 8 0 (by decide) ⟨by decide, by decide⟩ (.inl rfl) rfl
  have hdisjoint := (h _ hover).1.disjoint ⟨1, 4096, 8, 1⟩ (by decide) ⟨2, 4096, 8, 1⟩ (by decide)
    (by decide)
  have hbyte : 4096 ∈ Allocation.bytes ⟨1, 4096, 8, 1⟩ := ⟨by decide, by decide⟩
  exact Set.disjoint_left.mp hdisjoint hbyte ⟨by decide, by decide⟩

end ArenaUse

end Nibble
