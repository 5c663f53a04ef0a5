import Nibble.Lib.Sweep
import Nibble.X64.Encode

/-!
# Text of a procedure

`X64_elf_gen_instrs`: the instructions of each basic block go to the block's
buffer, except its jump; the displacements of jumps depend on the sizes of the
blocks in between, so `X64_update_jmp` runs over all blocks until no jump
changes its size. Then the blocks are written out one after the other.
Displacements that refer to a global entity are recorded with the place they
are written to.
-/

namespace Nibble.X64

open Nibble.IR (ConditionKind SymId)
open Nibble.Lib

/-! ## Blocks -/

/-- A jump that waits for the sizes of the blocks; no condition for `JMP` and `JMP_TO_RET`. -/
structure JmpInstr where
  target : Nat
  cond : Option ConditionKind
  deriving DecidableEq, Repr

/-- `X64_TextBBlock`. The opcode is kept as the bytes that are used of it. -/
structure TextBBlock where
  buffer : List UInt8
  jmpInstr : Option JmpInstr
  jmpOpcode : List UInt8
  jmpOffset : BitVec 32
  jmpOffsetLen : Nat
  deriving DecidableEq, Repr

def TextBBlock.empty : TextBBlock := ⟨[], none, [], 0, 0⟩

/-- `X64_InternalReloc`. -/
structure InternalReloc where
  bblockIndex : Nat
  bblockOffset : BitVec 32
  bytesToNextIp : Int
  refAddr : ConstAddr
  deriving DecidableEq, Repr

/-- What a symbol that code refers to may be. -/
inductive SymKind where
  | var
  | foreignProc
  | proc
  deriving DecidableEq, Repr

/-- The two arrays of `X64_TextGenState`. -/
structure Usages where
  relocs : List InternalReloc
  procOffPatches : List InternalReloc
  deriving DecidableEq, Repr

/-- `X64_record_global_entity_offset_usage`. The usages of procedures of the program are patched by
the compiler, all others by the linker. -/
def Usages.record (symKind : SymId → SymKind) (u : Usages) (index offset : Nat)
    (entity : ConstAddr) : Usages :=
  let usage : InternalReloc := ⟨index, BitVec.ofNat 32 offset, 4, entity⟩
  match entity with
  | .strLit _ | .floatLit _ => { u with relocs := u.relocs ++ [usage] }
  | .sym s =>
    match symKind s with
    | .var | .foreignProc => { u with relocs := u.relocs ++ [usage] }
    | .proc => { u with procOffPatches := u.procOffPatches ++ [usage] }

/-- The jump an instruction is. -/
def Instr.jmpInstr : Instr → Option JmpInstr
  | .jmp target | .jmpToRet target => some ⟨target, none⟩
  | .jmpcc target cond => some ⟨target, some cond⟩
  | _ => none

/-- The code of an instruction at the end of a block. -/
def writeCode (symKind : SymId → SymKind) (index : Nat) (b : TextBBlock) (u : Usages) (c : Code) :
    TextBBlock × Usages :=
  ({ b with buffer := b.buffer ++ c.bytes },
    match c.disp with
    | .bytes _ => u
    | .patched entity => u.record symKind index (b.buffer.length + c.head.length) entity)

/-- `X64_elf_gen_instr`. A block has one jump at most. -/
def genInstr (symKind : SymId → SymKind) (index : Nat) (s : TextBBlock × Usages) (i : Instr) :
    Option (TextBBlock × Usages) :=
  match i.jmpInstr with
  | some j => if s.1.jmpInstr.isSome then none else some ({ s.1 with jmpInstr := some j }, s.2)
  | none => (genCode i).map (writeCode symKind index s.1 s.2)

/-- The instructions of all blocks, from block `index` on. -/
def genBBlocks (symKind : SymId → SymKind) (index : Nat) (u : Usages) :
    List (List Instr) → Option (List TextBBlock × Usages)
  | [] => some ([], u)
  | is :: rest => do
    let (b, u) ← is.foldlM (genInstr symKind index) (.empty, u)
    let (bs, u) ← genBBlocks symKind (index + 1) u rest
    pure (b :: bs, u)

/-! ## Jumps -/

/-- `X64_get_bblock_best_case_size`. A jump not encoded yet counts two bytes. -/
def bblockBestCaseSize (b : TextBBlock) : BitVec 32 :=
  let jmpOpcodeLen := if b.jmpOpcode.length = 0 ∧ b.jmpInstr.isSome then 1 else b.jmpOpcode.length
  let jmpOffsetLen := if b.jmpOffsetLen = 0 ∧ b.jmpInstr.isSome then 1 else b.jmpOffsetLen
  BitVec.ofNat 32 b.buffer.length + BitVec.ofNat 32 jmpOpcodeLen + BitVec.ofNat 32 jmpOffsetLen

/-- The offset of a jump from the instruction after it to its target. `none` is the failed
assertion. -/
def jmpOffsetTo (src : Nat) (b : TextBBlock) (j : JmpInstr) (bblocks : List TextBBlock) :
    Option (BitVec 32) :=
  if src < j.target then
    some (((bblocks.take j.target).drop (src + 1)).foldl
      (fun offset b => offset + bblockBestCaseSize b) 0)
  else
    let offset := ((bblocks.take src).drop j.target).foldl
      (fun offset b => offset - bblockBestCaseSize b) 0 - BitVec.ofNat 32 b.buffer.length
    if 0 < offset.toInt then none
    else if -128 + 2 ≤ offset.toInt then some (offset - 2)
    else some (offset - if j.cond.isSome then 6 else 5)

/-- The opcodes of jumps. -/
def JmpInstr.opcode (j : JmpInstr) (short : Bool) : List UInt8 :=
  match j.cond with
  | none => if short then [0xEB] else [0xE9]
  | some c => if short then [0x70 + condBits c] else [0x0F, 0x80 + condBits c]

/-- `X64_update_jmp`, and whether the jump changed its size. -/
def updateJmp (src : Nat) (bblocks : List TextBBlock) (b : TextBBlock) :
    Option (TextBBlock × Bool) :=
  match b.jmpInstr with
  | none => some ({ b with jmpOpcode := [], jmpOffsetLen := 0 }, false)
  | some j => do
    let offset ← jmpOffsetTo src b j bblocks
    if b.jmpOpcode.length = 0 ∨ b.jmpOffsetLen = 0 ∨ b.jmpOffset ≠ offset then
      let oldFits := b.jmpOffsetLen ≤ 1
      let newFits := dispIsImm8 offset
      if oldFits ∧ ¬ dispIsImm8 b.jmpOffset then none
      else
        some ({ b with
          jmpOpcode := j.opcode newFits, jmpOffset := offset,
          jmpOffsetLen := if newFits then 1 else 4 }, oldFits != newFits)
    else some (b, false)

/-- One block's turn in the loop over all blocks. -/
def updateStep (src : Nat) (bblocks : List TextBBlock) : Option (List TextBBlock × Bool) := do
  let b ← bblocks[src]?
  let (b, changed) ← updateJmp src bblocks b
  pure (bblocks.set src b, changed)

/-- `while (update_jmps)`. -/
def relaxJmps (fuel : Nat) (bblocks : List TextBBlock) : Option (List TextBBlock) :=
  sweepLoop updateStep bblocks.length fuel bblocks

/-! ## Serialization -/

/-- The bytes a block adds to the buffer. -/
def TextBBlock.bytes (b : TextBBlock) : List UInt8 :=
  b.buffer ++ if b.jmpInstr.isSome then b.jmpOpcode ++ leBytes b.jmpOffsetLen b.jmpOffset.toNat
    else []

/-- The blocks are appended to the buffer; their final offsets are where they start. -/
def serialize (buffer : List UInt8) : List TextBBlock → Option (List UInt8 × List Nat)
  | [] => some (buffer, [])
  | b :: bs =>
    if b.jmpInstr.isSome ∧ ¬ (0 < b.jmpOpcode.length ∧ 0 < b.jmpOffsetLen) then none
    else do
      let (out, offsets) ← serialize (buffer ++ b.bytes) bs
      pure (out, buffer.length :: offsets)

/-! ## Procedures -/

/-- `X64_TextReloc`. -/
structure TextReloc where
  usageOff : Int
  bytesToNextIp : Int
  refAddr : ConstAddr
  deriving DecidableEq, Repr

/-- A usage with the final offset of its block. -/
def InternalReloc.toText (offsets : List Nat) (r : InternalReloc) : Option TextReloc :=
  offsets[r.bblockIndex]?.map fun off : Nat =>
    ⟨off + r.bblockOffset.toInt, r.bytesToNextIp, r.refAddr⟩

/-- The arrays a procedure is appended to. -/
structure TextOut where
  buffer : List UInt8
  relocs : List TextReloc
  procOffPatches : List TextReloc
  deriving DecidableEq, Repr

/-- `X64_elf_gen_instrs`. -/
def elfGenInstrs (fuel : Nat) (symKind : SymId → SymKind) (bblocks : List (List Instr))
    (o : TextOut) : Option TextOut := do
  let (text, usages) ← genBBlocks symKind 0 ⟨[], []⟩ bblocks
  let text ← relaxJmps fuel text
  let (buffer, offsets) ← serialize o.buffer text
  let relocs ← usages.relocs.mapM (InternalReloc.toText offsets)
  let patches ← usages.procOffPatches.mapM (InternalReloc.toText offsets)
  pure ⟨buffer, o.relocs ++ relocs, o.procOffPatches ++ patches⟩

end Nibble.X64
