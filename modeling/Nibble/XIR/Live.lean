import Nibble.XIR.Instr

/-!
# Live intervals

`XIR_compute_live_intervals` goes once through the instructions in the order of
the blocks. The interval of a register, or of the registers it is aliased with,
starts at the first instruction that mentions it and ends at the last one.
Control flow plays no part in it.
-/

namespace Nibble.XIR

open Nibble.IR (BBlockId)

/-- The registers of an address; an index without a scale is none. -/
def XMemAddr.lregs : XMemAddr → List XReg
  | .sibd a => a.baseReg.toList ++ (if a.scale = 0 then [] else a.indexReg.toList)
  | _ => []

/-- The registers of a value of a call. -/
def CallValue.lregs : CallValue → List XReg
  | reg r => [r]
  | addr a => a.lregs

namespace Call

def argLregs (c : Call) : List XReg := c.args.flatMap fun arg => arg.val.lregs

/-- The registers of the result or of its address. -/
def dstLregs (c : Call) : List XReg := if c.retType = .void then [] else c.dst.lregs

/-- The register that the result is written to. -/
def resultLregs (c : Call) : List XReg :=
  match c.dst with
  | .reg r => if c.retType = .void then [] else [r]
  | .addr _ => []

/-- The registers of the address that the result is written to. -/
def addrLregs (c : Call) : List XReg :=
  match c.dst with
  | .reg _ => []
  | .addr a => if c.retType = .void then [] else a.lregs

theorem mem_dstLregs {c : Call} {l : XReg} :
    l ∈ c.dstLregs ↔ l ∈ c.addrLregs ∨ l ∈ c.resultLregs := by
  obtain ⟨retType, dst, args, stackSize, mask, hsub⟩ := c
  cases dst <;> simp [dstLregs, addrLregs, resultLregs, CallValue.lregs]

end Call

namespace Instr

/-- The registers that `XIR_compute_bblock_live_intervals` touches, in its order. -/
def touched : Instr → List XReg
  | arithRR _ _ dst src | fltRR _ _ dst src | shiftRR _ _ dst src => [dst, src]
  | arithRI _ _ dst _ | shiftRI _ _ dst _ | unary _ _ dst | movRI _ dst _ | setcc _ dst => [dst]
  | arithRM _ _ dst src | fltRM _ _ dst src => dst :: src.lregs
  | raxR _ _ dx ax src => dx.toList ++ [ax, src]
  | raxM _ _ dx ax src => dx.toList ++ ax :: src.lregs
  | sextAxToDx _ dx ax => [ax, dx]
  | repMovsb rdi rsi rcx => [rdi, rsi, rcx]
  | repStosb rdi al rcx => [rdi, al, rcx]
  | syscall nr args rcx r11 => nr :: rcx :: r11 :: args
  | movRRH dst src | movRR _ dst src | movExtRR _ _ dst _ src | movFltRR _ dst src
  | cvtFltRR _ dst src | cvtFltIntRR _ _ dst src | cvtIntFltRR _ dst _ src => [src, dst]
  | movRM _ dst src | movExtRM _ _ dst _ src | movFltRM _ dst src | cvtFltRM _ dst src
  | cvtFltIntRM _ _ dst src | cvtIntFltRM _ dst _ src | lea dst src => src.lregs ++ [dst]
  | movMR _ dst src | cmpMR _ dst src => dst.lregs ++ [src]
  | movFltMR _ dst src => src :: dst.lregs
  | movMI _ dst _ | cmpMI _ dst _ => dst.lregs
  | ucomisRR _ op1 op2 => [op1, op2]
  | ucomisRM _ op1 op2 => op1 :: op2.lregs
  | jmp _ | jmpcc _ _ _ => []
  | ret ax dx => ax.toList ++ dx.toList
  | call _ c => c.argLregs ++ c.dstLregs
  | callR procLoc c => procLoc :: (c.argLregs ++ c.dstLregs)

/-- The registers whose values an instruction uses. The `xor` of a register with itself is the way
to clear it, and a multiplication only writes the upper half. -/
def reads : Instr → List XReg
  | arithRR op _ dst src => if op = .alu .xor ∧ dst = src then [] else [dst, src]
  | fltRR _ _ dst src | shiftRR _ _ dst src => [dst, src]
  | arithRI _ _ dst _ | shiftRI _ _ dst _ | unary _ _ dst => [dst]
  | movRI _ _ _ | setcc _ _ | jmp _ | jmpcc _ _ _ => []
  | arithRM _ _ dst src | fltRM _ _ dst src => dst :: src.lregs
  | raxR op _ dx ax src => (if op = .mul ∨ op = .imul then [] else dx.toList) ++ [ax, src]
  | raxM op _ dx ax src => (if op = .mul ∨ op = .imul then [] else dx.toList) ++ ax :: src.lregs
  | sextAxToDx _ _ ax => [ax]
  | repMovsb rdi rsi rcx => [rdi, rsi, rcx]
  | repStosb rdi al rcx => [rdi, al, rcx]
  | syscall nr args _ _ => nr :: args
  | movRRH _ src | movRR _ _ src | movExtRR _ _ _ _ src | movFltRR _ _ src | cvtFltRR _ _ src
  | cvtFltIntRR _ _ _ src | cvtIntFltRR _ _ _ src => [src]
  | movRM _ _ src | movExtRM _ _ _ _ src | movFltRM _ _ src | cvtFltRM _ _ src
  | cvtFltIntRM _ _ _ src | cvtIntFltRM _ _ _ src | lea _ src => src.lregs
  | movMR _ dst src | cmpMR _ dst src | movFltMR _ dst src => dst.lregs ++ [src]
  | movMI _ dst _ | cmpMI _ dst _ => dst.lregs
  | ucomisRR _ op1 op2 => [op1, op2]
  | ucomisRM _ op1 op2 => op1 :: op2.lregs
  | ret ax dx => ax.toList ++ dx.toList
  | call _ c => c.argLregs ++ c.addrLregs
  | callR procLoc c => procLoc :: (c.argLregs ++ c.addrLregs)

/-- The registers that an instruction gives a new value. -/
def writes : Instr → List XReg
  | arithRR op _ dst _ | arithRI op _ dst _ | arithRM op _ dst _ =>
    if op = .alu .cmp then [] else [dst]
  | fltRR _ _ dst _ | fltRM _ _ dst _ | shiftRR _ _ dst _ | shiftRI _ _ dst _ | unary _ _ dst
  | movRI _ dst _ | setcc _ dst | movRRH dst _ | movRR _ dst _ | movExtRR _ _ dst _ _
  | movFltRR _ dst _ | cvtFltRR _ dst _ | cvtFltIntRR _ _ dst _ | cvtIntFltRR _ dst _ _
  | movRM _ dst _ | movExtRM _ _ dst _ _ | movFltRM _ dst _ | cvtFltRM _ dst _
  | cvtFltIntRM _ _ dst _ | cvtIntFltRM _ dst _ _ | lea dst _ => [dst]
  | raxR _ _ dx ax _ | raxM _ _ dx ax _ => dx.toList ++ [ax]
  | sextAxToDx _ dx _ => [dx]
  | repMovsb rdi rsi rcx => [rdi, rsi, rcx]
  | repStosb rdi _ rcx => [rdi, rcx]
  | syscall nr _ rcx r11 => [nr, rcx, r11]
  | movMR _ _ _ | cmpMR _ _ _ | movFltMR _ _ _ | movMI _ _ _ | cmpMI _ _ _ | ucomisRR _ _ _
  | ucomisRM _ _ _ | jmp _ | jmpcc _ _ _ | ret _ _ => []
  | call _ c | callR _ c => c.resultLregs

/-- What is read or written is touched. -/
theorem mem_touched {i : Instr} {l : XReg} (h : l ∈ i.reads ∨ l ∈ i.writes) : l ∈ i.touched := by
  cases i with
  | call sym c =>
    simp only [reads, writes, touched, List.mem_append, Call.mem_dstLregs] at h ⊢
    rwa [or_assoc] at h
  | callR procLoc c =>
    simp only [reads, writes, touched, List.mem_append, List.mem_cons, Call.mem_dstLregs] at h ⊢
    rwa [or_assoc, or_assoc] at h
  | _ =>
    simp only [reads, writes, touched] at h ⊢
    grind

end Instr

/-! ## Aliases -/

/-- `XIR_find_alias_reg`: follow the alias forest to a root. The source halves the path on the
way, which leaves the roots. -/
def findAliasReg (aliases : List XReg) : Nat → XReg → Option XReg
  | 0, _ => none
  | fuel + 1, r => do
    let next ← aliases[r]?
    if next = r then return r else findAliasReg aliases fuel next

theorem findAliasReg_root {aliases : List XReg} {fuel : Nat} {r root : XReg}
    (h : findAliasReg aliases fuel r = some root) : aliases[root]? = some root := by
  induction fuel generalizing r with
  | zero => cases h
  | succ fuel ih =>
    obtain ⟨next, hn, h⟩ := Option.bind_eq_some_iff.mp h
    split at h
    next he =>
      cases h
      rw [hn, he]
    next => exact ih h

/-! ## Intervals -/

/-- The ends of an `XIR_RegRange`. -/
structure LiveRange where
  start : Nat
  stop : Nat
  deriving DecidableEq, Repr

/-- The intervals of the alias roots; `none` is one that starts at -1. -/
abbrev LiveRanges := XReg → Option LiveRange

/-- The part of `XIR_Builder` that the intervals depend on. -/
structure LirProc where
  bblocks : List (List Instr)
  lregAliases : List XReg
  lregRbp : XReg

namespace LirProc

variable (p : LirProc)

/-- `XIR_find_alias_reg`. -/
def find (l : XReg) : Option XReg := findAliasReg p.lregAliases p.lregAliases.length l

/-- `XIR_touch_lreg`. -/
def touchLreg (ino : Nat) (ranges : LiveRanges) (lreg : XReg) : Option LiveRanges := do
  let root ← p.find lreg
  match ranges root with
  | none => some (Function.update ranges root (some ⟨ino, ino⟩))
  | some r =>
    if r.stop ≤ ino then some (Function.update ranges root (some ⟨r.start, ino⟩)) else none

/-- `XIR_compute_bblock_live_intervals` for one instruction. -/
def touchInstr (ranges : LiveRanges) (i : Instr × Nat) : Option LiveRanges :=
  i.1.touched.foldlM (p.touchLreg i.2) ranges

/-- The instructions in the order of their numbers. -/
def instrs : List Instr := p.bblocks.flatten

/-- What the last call of `XIR_compute_bblock_live_intervals` returns. -/
def lastIno : Nat := if p.bblocks.getLast? = some [] then 0 else p.instrs.length - 1

/-- `XIR_compute_live_intervals`. -/
def computeLiveIntervals : Option LiveRanges := do
  let ranges ← p.instrs.zipIdx.foldlM p.touchInstr fun _ => none
  p.touchLreg p.lastIno ranges p.lregRbp

/-! ## Control flow -/

/-- The number of the first instruction of a block. -/
def bblockStart (b : BBlockId) : Nat := (p.bblocks.take b).flatten.length

/-- Control goes from one instruction number to another. -/
def Succ (i j : Nat) : Prop :=
  match p.instrs[i]? with
  | some (.jmp target) => j = p.bblockStart target
  | some (.jmpcc _ trueBb falseBb) =>
    (∃ t ∈ trueBb, j = p.bblockStart t) ∨ j = p.bblockStart falseBb
  | some (.ret _ _) | none => False
  | some _ => j = i + 1

/-- The register, or one aliased with it, is read by an instruction. -/
def Reads (root : XReg) (i : Nat) : Prop :=
  ∃ x ∈ p.instrs[i]?, ∃ l ∈ x.reads, p.find l = some root

def Writes (root : XReg) (i : Nat) : Prop :=
  ∃ x ∈ p.instrs[i]?, ∃ l ∈ x.writes, p.find l = some root

end LirProc

end Nibble.XIR
