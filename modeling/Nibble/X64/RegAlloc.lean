import Nibble.Lib.Layout
import Nibble.Lib.Worklist
import Nibble.X64.Emit

/-!
# Register allocation

The linear scan of `x64_gen/reg_alloc.c` over the live intervals of a procedure. Intervals are
taken by increasing start; those that have ended give their register back. An interval whose
control forces it into a register takes one that is free, and the others take a free register
that no later interval forces, or send the interval that ends last to the stack. `none` is a
failed assertion of the source or a result without `success`.
-/

namespace Nibble.X64

open Nibble.Lib
open Nibble.XIR (XReg callerSavedRegMask)

/-- `x64_reg_classes`. -/
def Reg.cls : Reg → RegClass
  | .int _ => .int
  | .xmm _ => .flt

/-- `X64_is_caller_saved_reg`. -/
def Reg.isCallerSaved (r : Reg) : Bool := RegMask.mem callerSavedRegMask r

/-- `X64_is_callee_saved_reg`. -/
def Reg.isCalleeSaved (r : Reg) : Bool := !RegMask.mem callerSavedRegMask r

/-- `XIR_RegAllocControlKind`, with the member of `ra_ctrl` it selects. -/
inductive AllocCtrl where
  | none
  | forceReg (preg : Reg)
  | forceAnyReg (pregMask : RegMask)
  | forceRegOrSpill (pregMask : RegMask)
  | hintLirReg (lreg : XReg)
  | hintPhysReg (preg : Reg)
  deriving DecidableEq, Repr

/-- The control kinds that leave no choice but a register. -/
def AllocCtrl.forcesReg : AllocCtrl → Bool
  | forceReg _ | forceAnyReg _ => true
  | _ => false

/-- `XIR_RegRange`, less the location the allocator writes. -/
structure RegRange where
  lreg : XReg
  start : Int
  stop : Int
  regClass : RegClass
  ctrl : AllocCtrl
  deriving DecidableEq, Repr

/-- The part of `XIR_Builder` that the allocator reads; of a call site, its instruction number.
`XIR_next_reg` gives every range its own index. -/
structure LirRegs where
  ranges : List RegRange
  aliases : List XReg
  callSites : List Int
  lregs : ranges.map RegRange.lreg = List.range ranges.length

/-- `XIR_find_alias_reg` leaves exactly the roots of the alias forest where they are. -/
def LirRegs.isRoot (b : LirRegs) (r : RegRange) : Bool := b.aliases[r.lreg]? = some r.lreg

/-- The unhandled list: the roots by increasing start, added from the last. -/
def LirRegs.unhandled (b : LirRegs) : List RegRange :=
  (b.ranges.reverse.filter b.isRoot).foldl (fun l x => addBy RegRange.start x l) []

namespace LirRegs

variable (b : LirRegs)

theorem unhandled_perm : b.unhandled.Perm (b.ranges.reverse.filter b.isRoot) := by
  have h := @foldl_addBy_perm _ RegRange.start (b.ranges.reverse.filter b.isRoot) []
  rwa [List.append_nil] at h

theorem unhandled_sorted : SortedBy RegRange.start b.unhandled :=
  foldl_addBy_sorted _ List.Pairwise.nil

theorem mem_unhandled {x : RegRange} : x ∈ b.unhandled ↔ x ∈ b.ranges ∧ b.isRoot x = true := by
  rw [b.unhandled_perm.mem_iff, List.mem_filter, List.mem_reverse]

/-- No virtual register has two intervals. -/
theorem unhandled_nodup : (b.unhandled.map RegRange.lreg).Nodup := by
  refine (b.unhandled_perm.map _).nodup_iff.mpr ?_
  have h : (b.ranges.reverse.map RegRange.lreg).Nodup := by
    rw [List.map_reverse, List.nodup_reverse, b.lregs]
    exact List.nodup_range
  exact h.sublist (List.filter_sublist.map _)

theorem lreg_getElem? {l : XReg} {x : RegRange} (h : b.ranges[l]? = some x) : x.lreg = l := by
  obtain ⟨hl, -⟩ := List.getElem?_eq_some_iff.mp h
  have hx : (b.ranges.map RegRange.lreg)[l]? = some x.lreg := by simp only [List.getElem?_map, h,
    Option.map_some]
  rw [b.lregs, List.getElem?_range hl] at hx
  exact (Option.some.inj hx).symm

end LirRegs

/-- `X64_ScratchRegs`, by class. -/
abbrev ScratchRegs := RegClass → List Reg

/-- `x64_linux_leaf_scratch_regs`. -/
def leafScratchRegs : ScratchRegs
  | .int => [.int .r10, .int .r11, .int .rax, .int .rdi, .int .rsi, .int .rdx, .int .rcx,
      .int .r8, .int .r9, .int .r12, .int .r13, .int .r14, .int .r15, .int .rbx]
  | .flt => [.xmm 0, .xmm 1, .xmm 2, .xmm 3, .xmm 4, .xmm 5, .xmm 6, .xmm 7, .xmm 8, .xmm 9,
      .xmm 10, .xmm 11, .xmm 12, .xmm 13, .xmm 14, .xmm 15]

/-- `x64_linux_nonleaf_scratch_regs`. -/
def nonleafScratchRegs : ScratchRegs
  | .int => [.int .r12, .int .r13, .int .r14, .int .r15, .int .rbx, .int .r10, .int .r11,
      .int .rax, .int .rdi, .int .rsi, .int .rdx, .int .rcx, .int .r8, .int .r9]
  | .flt => [.xmm 10, .xmm 11, .xmm 12, .xmm 13, .xmm 14, .xmm 15, .xmm 0, .xmm 1, .xmm 2,
      .xmm 3, .xmm 4, .xmm 5, .xmm 6, .xmm 7, .xmm 8, .xmm 9]

/-- `XIR_RegAllocState` with the locations of the intervals. A location is `none` while it is
unassigned, and an entry of `rmap` while the register is free. -/
structure AllocState where
  active : List RegRange
  handled : List RegRange
  loc : XReg → Option (Loc Reg)
  rmap : Reg → Option XReg
  stackOffset : BitVec 32
  usedCalleeRegs : RegMask

namespace AllocState

/-- The state before the first interval. -/
def init (stackOffset : BitVec 32) : AllocState :=
  ⟨[], [], fun _ => none, fun _ => none, stackOffset, 0⟩

/-- The register an interval sits in. -/
def reg? (s : AllocState) (x : RegRange) : Option Reg :=
  match s.loc x.lreg with
  | some (.reg r) => some r
  | _ => none

/-- `X64_alloc_reg`. -/
def allocReg (s : AllocState) (r : Reg) (lreg : XReg) : AllocState :=
  { s with
    rmap := Function.update s.rmap r (some lreg)
    usedCalleeRegs := if r.isCalleeSaved then s.usedCalleeRegs.set r else s.usedCalleeRegs }

/-- Give an interval a register and make it active. -/
def place (s : AllocState) (x : RegRange) (r : Reg) : AllocState :=
  { s with
    loc := Function.update s.loc x.lreg (some (.reg r))
    active := addBy RegRange.stop x s.active }

/-- `X64_spill_reg_loc`. -/
def spillRegLoc (s : AllocState) (x : RegRange) : AllocState :=
  { s with
    stackOffset := s.stackOffset + 8
    loc := Function.update s.loc x.lreg (some (.stack (-(s.stackOffset + 8))))
    handled := addBy RegRange.start x s.handled }

/-- `X64_steal_reg`. -/
def stealReg (s : AllocState) (donor x : RegRange) : Option AllocState :=
  (s.reg? donor).map fun r =>
    { s with
      loc := Function.update s.loc x.lreg (some (.reg r))
      rmap := Function.update s.rmap r (some x.lreg)
      active := addBy RegRange.stop x (s.active.erase donor) : AllocState }.spillRegLoc donor

/-- The active intervals that end no later than `start` give their registers back. -/
def expire (start : Int) : List RegRange → AllocState → Option AllocState
  | [], s => some s
  | e :: rest, s =>
    if start < e.stop then some s
    else (s.reg? e).bind fun r =>
      expire start rest
        { s with
          active := rest
          rmap := Function.update s.rmap r none
          handled := addBy RegRange.start e s.handled }

/-- A register that is neither taken nor banned. -/
def isFree (s : AllocState) (banned : RegMask) (r : Reg) : Bool :=
  s.rmap r = none && !banned.mem r

/-- `X64_next_reg`; the register is `none` where the source returns `X64_REG_COUNT`. -/
def nextReg (s : AllocState) (scratch : ScratchRegs) (x : RegRange) (banned : RegMask)
    (hint : Option Reg) : Option (Option Reg) :=
  match hint.filter (s.isFree banned) with
  | some r => if r.cls = x.regClass then some (some r) else none
  | none =>
    match (scratch x.regClass).find? (s.isFree banned) with
    | some r =>
      if r.cls = x.regClass ∧ r ≠ .int .rbp ∧ r ≠ .int .rsp then some (some r) else none
    | none => some none

end AllocState

/-- The registers that later intervals force while this one is live. -/
def bannedRegs (stop : Int) : List RegRange → RegMask → RegMask
  | [], banned => banned
  | j :: rest, banned =>
    if stop ≤ j.start then banned
    else
      bannedRegs stop rest
        (match j.ctrl with
        | .forceReg p => banned.set p
        | _ => banned)

namespace AllocState

/-- The latest active interval of a class that is not forced into a register and does not sit
in a banned one. -/
def lastActive (s : AllocState) (cls : RegClass) (banned : RegMask) : Option RegRange :=
  s.active.reverse.find? fun e =>
    !e.ctrl.forcesReg && e.regClass = cls && !(s.reg? e).any banned.mem

/-- The hint of a control kind. Outer `none`: it names a register that does not exist. -/
def pregHint (s : AllocState) (b : LirRegs) : AllocCtrl → Option (Option Reg)
  | .hintPhysReg p => some (some p)
  | .hintLirReg l =>
    (b.ranges[l]?).map s.reg?
  | _ => some none

/-- The number of active intervals of a class. -/
def classCount (s : AllocState) (cls : RegClass) : Nat :=
  s.active.countP fun e => e.regClass = cls

/-- The last branch of the loop: an interval without a forced register. -/
def allocUnforced (b : LirRegs) (scratch : ScratchRegs) (s : AllocState) (x : RegRange)
    (rest : List RegRange) : Option AllocState :=
  let banned := bannedRegs x.stop rest 0
  let used := s.classCount x.regClass
  let total := (scratch x.regClass).length
  if total < used then none
  else if used = total then
    match s.lastActive x.regClass banned with
    | none => if x.ctrl.forcesReg then none else some (s.spillRegLoc x)
    | some last =>
      if x.ctrl.forcesReg || x.stop < last.stop then s.stealReg last x
      else some (s.spillRegLoc x)
  else do
    let hint ← s.pregHint b x.ctrl
    let reg ← s.nextReg scratch x banned hint
    let r ← reg
    return (s.allocReg r x.lreg).place x r

/-- One interval, after the old ones have expired. -/
def allocInterval (b : LirRegs) (scratch : ScratchRegs) (s : AllocState) (x : RegRange)
    (rest : List RegRange) : Option AllocState :=
  match x.ctrl with
  | .forceReg p => if s.rmap p = none then some ((s.allocReg p x.lreg).place x p) else none
  | .forceAnyReg mask =>
    if mask = 0 then none
    else do
      let reg ← s.nextReg scratch x (~~~mask) none
      let r ← reg
      return (s.allocReg r x.lreg).place x r
  | .forceRegOrSpill mask =>
    if mask = 0 then none
    else do
      match ← s.nextReg scratch x (~~~mask) none with
      | some r => return (s.allocReg r x.lreg).place x r
      | none => return s.spillRegLoc x
  | _ => s.allocUnforced b scratch x rest

/-- The body of the loop over the unhandled intervals. -/
def handle (b : LirRegs) (scratch : ScratchRegs) (s : AllocState) (x : RegRange)
    (rest : List RegRange) : Option AllocState :=
  (expire x.start s.active s).bind fun s => s.allocInterval b scratch x rest

/-- The intervals that are still active at the end become handled. -/
def finish (s : AllocState) : List RegRange :=
  s.active.foldl (fun l x => addBy RegRange.start x l) s.handled

/-- An interval in a caller-saved register, live across an instruction. -/
def savesAt (s : AllocState) (ino : Int) (x : RegRange) : Option Reg :=
  if x.start < ino ∧ ino < x.stop then (s.reg? x).filter Reg.isCallerSaved else none

/-- Scan forward to the first interval that intersects with a call site, or past the site. -/
def skipTo (s : AllocState) (ino : Int) : List RegRange → List RegRange
  | [] => []
  | x :: rest =>
    if ino ≤ x.start then x :: rest
    else if (s.savesAt ino x).isSome then x :: rest
    else s.skipTo ino rest

/-- Accumulate the registers to save across a call site. -/
def saveRegMask (s : AllocState) (ino : Int) : List RegRange → RegMask → RegMask
  | [], mask => mask
  | x :: rest, mask =>
    if ino ≤ x.start then mask
    else
      saveRegMask s ino rest
        (match s.savesAt ino x with
        | some r => mask.set r
        | none => mask)

/-- The masks of the call sites in turn; the scan for a site starts where the last one stopped. -/
def saveRegMasks (s : AllocState) : List Int → List RegRange → List RegMask
  | [], _ => []
  | ino :: sites, xs =>
    let xs := s.skipTo ino xs
    s.saveRegMask ino xs 0 :: s.saveRegMasks sites xs

end AllocState

/-- `X64_RegAllocResult`, with what the allocator writes to the ranges and the call sites. -/
structure RegAllocResult where
  stackOffset : BitVec 32
  usedCalleeRegs : RegMask
  loc : XReg → Option (Loc Reg)
  saveRegMasks : List RegMask

/-- `X64_linear_scan_reg_alloc`. -/
def linearScanRegAlloc (b : LirRegs) (scratch : ScratchRegs) (initStackOffset : BitVec 32) :
    Option RegAllocResult := do
  let s ← scan (AllocState.handle b scratch) (.init initStackOffset) b.unhandled
  if b.unhandled.length = s.finish.length then
    return ⟨alignUpMask s.stackOffset 16, s.usedCalleeRegs, s.loc,
      s.saveRegMasks b.callSites s.finish⟩
  else none

end Nibble.X64
