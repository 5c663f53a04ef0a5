import Nibble.Lib.Run
import Nibble.X64.RegAlloc

/-!
# Aliased registers

`XIR_find_alias_reg` and `XIR_alias_regs` of `ir_to_xir.c`, which force the registers of a phi
instruction together, and `XIR_next_reg`, which makes the registers. `none` is an access outside
of an array or a failed assertion.
-/

namespace Nibble.XIR

open Nibble.Lib
open Nibble.X64 (RegClass RegRange)

/-- `XIR_REG_COUNT` -/
def XIR_REG_COUNT : Nat := 0xFFFFFFFF

/-- The part of `XIR_Builder` that keeps registers apart or together. -/
structure AliasRegs where
  numRegs : Nat := 0
  lregRanges : List RegRange := []
  lregAliases : List XReg := []
  lregSizes : List Nat := []
  deriving DecidableEq, Repr

/-- A register on the way to its root. -/
structure AliasWalk where
  roots : List XReg
  r : XReg
  deriving DecidableEq, Repr

/-- The condition of the loop does not hold. -/
def AliasWalk.AtRoot (s : AliasWalk) : Prop := s.roots[s.r]? = some s.r

instance : DecidablePred AliasWalk.AtRoot := fun _ => inferInstanceAs (Decidable (_ = _))

/-- The body of the loop: the register moves to its grandparent, the walk to its parent. -/
def AliasWalk.step (s : AliasWalk) : Option AliasWalk := do
  let nextR ← s.roots[s.r]?
  let root ← s.roots[nextR]?
  some { roots := s.roots.set s.r root, r := nextR }

/-- A `u32` that is added to. -/
def addU32 (a b : Nat) : Nat := (a + b) % 2 ^ 32

/-- `XIR_merge_ranges` -/
def mergeRanges (ranges : List RegRange) (dst src : XReg) : Option (List RegRange) := do
  let srcRange ← ranges[src]?
  let dstRange ← ranges[dst]?
  if srcRange.ctrl = .none then some ranges
  else
    match dstRange.ctrl with
    | .none | .hintLirReg _ | .hintPhysReg _ =>
      some (ranges.set dst { dstRange with ctrl := srcRange.ctrl })
    | _ => none

namespace AliasRegs

/-- `XIR_find_alias_reg`: as many rounds as there are registers are enough. -/
def findAliasReg (b : AliasRegs) (r : XReg) : Option (AliasRegs × XReg) := do
  let s ← runSteps AliasWalk.step AliasWalk.AtRoot b.lregAliases.length ⟨b.lregAliases, r⟩
  some ({ b with lregAliases := s.roots }, s.r)

/-- The root `src` is put under the root `dst`. -/
def linkRoots (b : AliasRegs) (dst src : XReg) (dstSize srcSize : Nat) : Option AliasRegs := do
  let lregRanges ← mergeRanges b.lregRanges dst src
  some { b with
    lregRanges
    lregAliases := b.lregAliases.set src dst
    lregSizes := b.lregSizes.set dst (addU32 dstSize srcSize) }

/-- `XIR_alias_regs` -/
def aliasRegs (b : AliasRegs) (u v : XReg) : Option AliasRegs := do
  let (b, rootU) ← b.findAliasReg u
  let (b, rootV) ← b.findAliasReg v
  if rootU = rootV then some b
  else
    let sizeU ← b.lregSizes[rootU]?
    let sizeV ← b.lregSizes[rootV]?
    if sizeU > sizeV then b.linkRoots rootU rootV sizeU sizeV
    else b.linkRoots rootV rootU sizeV sizeU

/-- `XIR_next_reg` -/
def nextReg (b : AliasRegs) (regClass : RegClass) : Option AliasRegs :=
  if b.numRegs = XIR_REG_COUNT then none
  else some {
    numRegs := b.numRegs + 1
    lregRanges := b.lregRanges ++ [⟨b.numRegs, -1, -1, regClass, .none⟩]
    lregAliases := b.lregAliases ++ [b.numRegs]
    lregSizes := b.lregSizes ++ [1] }

/-- What calls make of a builder without registers, with the pairs that were aliased. The control of
a range may be set in between. -/
inductive Reached : AliasRegs → List (XReg × XReg) → Prop
  | start : Reached {} []
  | next {b b' : AliasRegs} {pairs : List (XReg × XReg)} (h : Reached b pairs)
      (regClass : RegClass) (hb : b.nextReg regClass = some b') : Reached b' pairs
  | find {b b' : AliasRegs} {pairs : List (XReg × XReg)} (h : Reached b pairs) (r root : XReg)
      (hb : b.findAliasReg r = some (b', root)) : Reached b' pairs
  | aliased {b b' : AliasRegs} {pairs : List (XReg × XReg)} (h : Reached b pairs) (u v : XReg)
      (hb : b.aliasRegs u v = some b') : Reached b' ((u, v) :: pairs)
  | control {b : AliasRegs} {pairs : List (XReg × XReg)} (h : Reached b pairs) (r : XReg)
      (ctrl : X64.AllocCtrl) :
      Reached { b with lregRanges := b.lregRanges.modify r fun range => { range with ctrl } } pairs

/-- The representative of a register. -/
def rep (b : AliasRegs) (r : XReg) : Option XReg := (b.findAliasReg r).map Prod.snd

/-- The registers that a register represents. -/
def members (b : AliasRegs) (root : XReg) : List XReg :=
  (List.range b.numRegs).filter fun r => b.rep r = some root

end AliasRegs

end Nibble.XIR
