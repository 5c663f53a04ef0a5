import Nibble.XIR.Const

/-!
# Where the constants of an instruction go

A constant operand is carried by one XIR instruction: an immediate form, or
the move that puts it in a register. `constUses` lists the constants of an IR
instruction with their carriers; each of them is in the converted code, with
the instruction that reads the register after it.
-/

namespace Nibble.XIR

open Nibble.IR hiding Instr
open Nibble.X64 (Size AluOp RaxOp ShiftOp Gpr)

/-- A constant operand, by the way it is converted. `next` is the register that holds it if the
immediate form does not. -/
inductive ConstUse where
  /-- Loaded by `XIR_load_op_ria` to the register that is worked on. -/
  | load (size : Size) (dst : XReg) (imm : Word)
  /-- Moved to a register at its size. -/
  | move (size : Size) (dst : XReg) (imm : Word)
  | arith (op : ArithOp) (size : Size) (dst : XReg) (imm : Word) (next : XReg)
  | cmpMem (size : Size) (op1 : XMemAddr) (imm : Word) (next : XReg)
  | store (size : Size) (addr : XMemAddr) (imm : Word) (next : XReg)
  | shift (op : ShiftOp) (size : Size) (dst : XReg) (imm : Word)
  deriving DecidableEq, Repr

namespace ConstUse

/-- The size of the operand. -/
def size : ConstUse → Size
  | load s _ _ | move s _ _ | arith _ s _ _ _ | cmpMem s _ _ _ | store s _ _ _ | shift _ s _ _ => s

def imm : ConstUse → Word
  | load _ _ c | move _ _ c | arith _ _ _ c _ | cmpMem _ _ c _ | store _ _ c _ | shift _ _ _ c => c

/-- The XIR instruction with the constant. -/
def carrier : ConstUse → Instr
  | load size dst c => .movRI (Regs.loadSize size c) dst c
  | move size dst c => .movRI size dst c
  | arith op size dst c next =>
    if immFits4bytes c size then .arithRI op size dst c else .movRI size next c
  | cmpMem size op1 c next =>
    if immFits4bytes c size then .cmpMI size op1 c else .movRI size next c
  | store size addr c next =>
    if immFits4bytes c size then .movMI size addr c else .movRI size next c
  | shift op size dst c => .shiftRI op size dst c

/-- The instruction that reads the register `next`. -/
def reader : ConstUse → List Instr
  | load _ _ _ | move _ _ _ | shift _ _ _ _ => []
  | arith op size dst c next =>
    if immFits4bytes c size then [] else [.arithRR op size dst next]
  | cmpMem size op1 c next => if immFits4bytes c size then [] else [.cmpMR size op1 next]
  | store size addr c next => if immFits4bytes c size then [] else [.movMR size addr next]

def code (u : ConstUse) : List Instr := u.carrier :: u.reader

end ConstUse

/-- The constant of an operand. -/
def operandUse (use : Word → ConstUse) : OpRIA → List ConstUse
  | .imm c => [use c]
  | _ => []

namespace Regs

variable (ρ : Regs)

/-- The constants of a two-operand instruction with an immediate form. -/
def arithUses (op : ArithOp) (size : Size) (r : Reg) (a b : OpRIA) : List ConstUse :=
  operandUse (.load size (ρ.reg r)) a ++
    operandUse (fun c => .arith op size (ρ.reg r) c ρ.next) b

/-- The constants of an instruction on `_ax`. -/
def raxUses (size : Size) (a b : OpRIA) : List ConstUse :=
  operandUse (.load size (ρ.phys .rax)) a ++ operandUse (.move size ρ.next) b

def shiftUses (op : ShiftOp) (size : Size) (r : Reg) (a b : OpRIA) : List ConstUse :=
  operandUse (.load size (ρ.reg r)) a ++ operandUse (.shift op size (ρ.reg r)) b

def intBinaryUses (op : IntBinOp) (signed : Bool) (size : Size) (r : Reg) (a b : OpRIA) :
    List ConstUse :=
  match op with
  | .add => ρ.arithUses (.alu .add) size r a b
  | .sub => ρ.arithUses (.alu .sub) size r a b
  | .and => ρ.arithUses (.alu .and) size r a b
  | .or => ρ.arithUses (.alu .or) size r a b
  | .xor => ρ.arithUses (.alu .xor) size r a b
  | .mul => if signed && size ≠ .b1 then ρ.arithUses .imul size r a b else ρ.raxUses size a b
  | .div | .mod => ρ.raxUses size a b
  | .sar => ρ.shiftUses .sar size r a b
  | .shl => ρ.shiftUses .shl size r a b

def cmpUses (size : Size) : OpRIA → OpRIA → List ConstUse
  | .imm c, _ => [.move size ρ.next c]
  | .reg a, b => operandUse (fun c => .arith (.alu .cmp) size (ρ.reg a) c ρ.next) b
  | .addr a, b => operandUse (fun c => .cmpMem size (ρ.addr a).2 c ρ.next) b

def syscallUses (args : List (Gpr × OpRIA)) : List ConstUse :=
  args.flatMap fun (g, a) => operandUse (.load .b8 (ρ.phys g)) a

/-- The constants of an IR instruction, in the order of the operands. -/
def constUses : IR.Instr → List ConstUse
  | .intBinary op type r a b =>
    (sizeOf? type.size).elim [] fun size => ρ.intBinaryUses op type.isSigned size r a b
  | .divMod type _ _ a b => (sizeOf? type.size).elim [] fun size => ρ.raxUses size a b
  | .lImm type r imm => (sizeOf? type.size).elim [] fun size => [.move size (ρ.reg r) imm]
  | .store type addr a =>
    (sizeOf? type.size).elim [] fun size =>
      operandUse (fun c => .store size (ρ.addr addr).2 c ρ.next) (OpRI.toRIA a)
  | .intCmp type _ _ a b => (sizeOf? type.size).elim [] fun size => ρ.cmpUses size a b
  | .memcpy _ _ size => operandUse (.load .b8 (ρ.phys .rcx)) (OpRI.toRIA size)
  | .memset _ value size =>
    operandUse (.load .b1 (ρ.phys .rax)) (OpRI.toRIA value) ++
      operandUse (.load .b8 (ρ.phys .rcx)) (OpRI.toRIA size)
  | .syscall nr args _ =>
    operandUse (.load .b8 (ρ.phys .rax)) nr ++ ρ.syscallUses (syscallArgRegs.zip args)
  | _ => []

end Regs

/-! ## The constants of an instruction -/

/-- The constant of an operand with its size. -/
def sizedConst (size : Size) : OpRIA → List (Size × Word)
  | .imm c => [(size, c)]
  | _ => []

/-- The constant operands of an IR instruction with their sizes. -/
def constants : IR.Instr → List (Size × Word)
  | .intBinary _ type _ a b | .divMod type _ _ a b | .intCmp type _ _ a b =>
    (sizeOf? type.size).elim [] fun size => sizedConst size a ++ sizedConst size b
  | .lImm type _ imm => (sizeOf? type.size).elim [] fun size => [(size, imm)]
  | .store type _ a => (sizeOf? type.size).elim [] fun size => sizedConst size (OpRI.toRIA a)
  | .memcpy _ _ size => sizedConst .b8 (OpRI.toRIA size)
  | .memset _ value size => sizedConst .b1 (OpRI.toRIA value) ++ sizedConst .b8 (OpRI.toRIA size)
  | .syscall nr args _ => (nr :: args).flatMap (sizedConst .b8)
  | _ => []

def ConstUse.sized (u : ConstUse) : Size × Word := (u.size, u.imm)

theorem sized_operandUse {use : Word → ConstUse} {size : Size}
    (h : ∀ c, (use c).sized = (size, c)) (a : OpRIA) :
    (operandUse use a).map ConstUse.sized = sizedConst size a := by
  cases a with
  | imm c => simp [operandUse, sizedConst, h]
  | reg r => rfl
  | addr m => rfl

namespace Regs

variable {ρ : Regs}

theorem sized_arithUses (op : ArithOp) (size : Size) (r : Reg) (a b : OpRIA) :
    (ρ.arithUses op size r a b).map ConstUse.sized = sizedConst size a ++ sizedConst size b := by
  rw [arithUses, List.map_append, sized_operandUse fun _ => rfl, sized_operandUse fun _ => rfl]

theorem sized_raxUses (size : Size) (a b : OpRIA) :
    (ρ.raxUses size a b).map ConstUse.sized = sizedConst size a ++ sizedConst size b := by
  rw [raxUses, List.map_append, sized_operandUse fun _ => rfl, sized_operandUse fun _ => rfl]

theorem sized_shiftUses (op : ShiftOp) (size : Size) (r : Reg) (a b : OpRIA) :
    (ρ.shiftUses op size r a b).map ConstUse.sized = sizedConst size a ++ sizedConst size b := by
  rw [shiftUses, List.map_append, sized_operandUse fun _ => rfl, sized_operandUse fun _ => rfl]

theorem sized_intBinaryUses (op : IntBinOp) (signed : Bool) (size : Size) (r : Reg)
    (a b : OpRIA) : (ρ.intBinaryUses op signed size r a b).map ConstUse.sized =
      sizedConst size a ++ sizedConst size b := by
  cases op with
  | mul =>
    simp only [intBinaryUses]
    split
    · exact sized_arithUses _ _ _ _ _
    · exact sized_raxUses _ _ _
  | div | mod => exact sized_raxUses _ _ _
  | sar | shl => exact sized_shiftUses _ _ _ _ _
  | _ => exact sized_arithUses _ _ _ _ _

theorem sized_syscallUses (regs : List Gpr) (args : List OpRIA) (h : args.length ≤ regs.length) :
    (ρ.syscallUses (regs.zip args)).map ConstUse.sized = args.flatMap (sizedConst .b8) := by
  induction regs generalizing args with
  | nil =>
    cases args with
    | nil => rfl
    | cons a args => cases h
  | cons g regs ih =>
    cases args with
    | nil => rfl
    | cons a args =>
      simp only [syscallUses, List.zip_cons_cons, List.flatMap_cons, List.map_append]
      rw [sized_operandUse fun _ => rfl]
      congr 1
      exact ih args (Nat.le_of_succ_le_succ h)

/-- Every constant operand has a carrier, in order. -/
theorem sized_constUses {i : IR.Instr} {next : Option IR.Instr} {l : List Instr}
    (h : ρ.convert i next = some l) : (ρ.constUses i).map ConstUse.sized = constants i := by
  cases i with
  | intBinary op type r a b =>
    simp only [constUses, constants]
    cases sizeOf? type.size with
    | none => rfl
    | some size => exact sized_intBinaryUses _ _ _ _ _ _
  | divMod type q r a b =>
    simp only [constUses, constants]
    cases sizeOf? type.size with
    | none => rfl
    | some size => exact sized_raxUses _ _ _
  | lImm type r imm =>
    simp only [constUses, constants]
    cases sizeOf? type.size <;> rfl
  | store type addr a =>
    simp only [constUses, constants]
    cases sizeOf? type.size with
    | none => rfl
    | some size => exact sized_operandUse (fun _ => rfl) _
  | intCmp type cond r a b =>
    simp only [convert, Option.bind_eq_bind, Option.bind_eq_some_iff, convertIntCmp] at h
    obtain ⟨size, hsize, code, hcode, -⟩ := h
    simp only [constUses, constants, hsize, Option.elim_some]
    cases a with
    | imm c => cases b <;> first | rfl | cases hcode
    | reg x =>
      simpa only [cmpUses, sizedConst, List.nil_append] using sized_operandUse (fun _ => rfl) b
    | addr m =>
      simpa only [cmpUses, sizedConst, List.nil_append] using sized_operandUse (fun _ => rfl) b
  | memcpy dst src size => exact sized_operandUse (fun _ => rfl) _
  | memset dst value size =>
    rw [constUses, List.map_append, sized_operandUse fun _ => rfl, sized_operandUse fun _ => rfl]
    rfl
  | syscall nr args r =>
    simp only [convert, convertSyscall] at h
    split at h
    · rename_i hlen
      rw [constUses, List.map_append, sized_operandUse fun _ => rfl, sized_syscallUses _ _ hlen]
      rfl
    · cases h
  | _ => rfl

/-! ## The code of a constant -/

theorem code_mem_loadOp {size : Size} {dst : XReg} {a : OpRIA} {u : ConstUse}
    (h : u ∈ operandUse (.load size dst) a) : u.code = ρ.loadOp size dst a := by
  cases a with
  | imm c => cases List.mem_singleton.mp h; rfl
  | reg r => cases h
  | addr m => cases h

theorem code_mem_arithOperand {op : ArithOp} {size : Size} {r : XReg} {b : OpRIA} {u : ConstUse}
    (h : u ∈ operandUse (fun c => .arith op size r c ρ.next) b) :
    u.code = ρ.arithOperand op size r b := by
  cases b with
  | imm c =>
    cases List.mem_singleton.mp h
    simp only [ConstUse.code, ConstUse.carrier, ConstUse.reader, arithOperand]
    split <;> rfl
  | reg r => cases h
  | addr m => cases h

theorem code_mem_raxOperand {op : RaxOp} {size : Size} {dx : Option XReg} {b : OpRIA}
    {u : ConstUse} (h : u ∈ operandUse (.move size ρ.next) b) :
    u.code <:+: ρ.raxOperand op size dx b := by
  cases b with
  | imm c =>
    cases List.mem_singleton.mp h
    exact ⟨[], _, rfl⟩
  | reg r => cases h
  | addr m => cases h

theorem code_mem_shiftOperand {op : ShiftOp} {size : Size} {r : XReg} {b : OpRIA} {u : ConstUse}
    (h : u ∈ operandUse (.shift op size r) b) : u.code = ρ.shiftOperand op size r b := by
  cases b with
  | imm c => cases List.mem_singleton.mp h; rfl
  | reg r => cases h
  | addr m => cases h

theorem code_mem_cmpMemOperand {size : Size} {a : XMemAddr} {b : OpRIA} {u : ConstUse}
    (h : u ∈ operandUse (fun c => .cmpMem size a c ρ.next) b) :
    u.code = ρ.cmpMemOperand size a b := by
  cases b with
  | imm c =>
    cases List.mem_singleton.mp h
    simp only [ConstUse.code, ConstUse.carrier, ConstUse.reader, cmpMemOperand]
    split <;> rfl
  | reg r => cases h
  | addr m => cases h

/-- The constants of an instruction whose code is that of its operands around `mid`. -/
theorem code_mem_operands {us vs : List ConstUse} {la lb mid post l : List Instr}
    {u : ConstUse} (ha : ∀ u ∈ us, u.code <:+: la) (hb : ∀ u ∈ vs, u.code <:+: lb)
    (hl : la ++ mid ++ lb ++ post = l) (hu : u ∈ us ++ vs) : u.code <:+: l := by
  subst hl
  rw [List.append_assoc, List.append_assoc]
  rcases List.mem_append.mp hu with h | h
  · exact List.infix_append_of_infix_left (ha u h)
  · exact List.infix_append_of_infix_right (List.infix_append_of_infix_right
      (List.infix_append_of_infix_left (hb u h)))

theorem infix_of_eq {l l' : List Instr} (h : l = l') : l <:+: l' := h ▸ List.infix_rfl

theorem code_mem_arithUses {op : ArithOp} {size : Size} {r : Reg} {a b : OpRIA} {u : ConstUse}
    {l : List Instr} (h : ρ.convertIntBinary op size r a b = some l)
    (hu : u ∈ ρ.arithUses op size r a b) : u.code <:+: l := by
  simp only [convertIntBinary] at h
  split at h
  · cases h
  · cases h
    have hl : ρ.loadOp size (ρ.reg r) a ++ [] ++ ρ.arithOperand op size (ρ.reg r) b ++ [] =
        ρ.loadOp size (ρ.reg r) a ++ ρ.arithOperand op size (ρ.reg r) b := by simp
    exact code_mem_operands (fun _ h => infix_of_eq (code_mem_loadOp h))
      (fun _ h => infix_of_eq (code_mem_arithOperand h)) hl hu

theorem code_mem_raxUses {op : RaxOp} {size : Size} {dx : Option XReg} {a b : OpRIA}
    {u : ConstUse} {mid post l : List Instr}
    (hl : ρ.loadOp size (ρ.phys .rax) a ++ mid ++ ρ.raxOperand op size dx b ++ post = l)
    (hu : u ∈ ρ.raxUses size a b) : u.code <:+: l :=
  code_mem_operands (fun _ h => infix_of_eq (code_mem_loadOp h))
    (fun _ h => code_mem_raxOperand h) hl hu

theorem code_mem_divide {signed : Bool} {size : Size} {a b : OpRIA} {u : ConstUse}
    {post : List Instr} (hu : u ∈ ρ.raxUses size a b) :
    u.code <:+: ρ.divide signed size a b ++ post := code_mem_raxUses rfl hu

theorem code_mem_mulUses {signed : Bool} {size : Size} {r : Reg} {a b : OpRIA} {u : ConstUse}
    {l : List Instr} (h : ρ.convertIntMul signed size r a b = some l)
    (hu : u ∈ ρ.intBinaryUses .mul signed size r a b) : u.code <:+: l := by
  simp only [intBinaryUses] at hu
  cases signed with
  | false =>
    simp only [Bool.false_and, Bool.false_eq_true, ite_false] at hu
    simp only [convertIntMul, Bool.false_and, Bool.false_eq_true, ite_false,
      Option.some.injEq] at h
    exact code_mem_raxUses h hu
  | true =>
    by_cases h1 : size = .b1
    · subst h1
      have hl : ρ.loadOp .b1 (ρ.phys .rax) a ++ [] ++ ρ.raxOperand .imul .b1 none b ++
          [.movRR .b1 (ρ.reg r) (ρ.phys .rax)] = ρ.convertSigned1byteMul r a b := by
        simp [convertSigned1byteMul]
      cases h
      exact code_mem_raxUses hl hu
    · simp only [h1, Bool.true_and, ne_eq, not_false_eq_true, decide_true, ite_true] at hu
      simp only [convertIntMul, h1, Bool.true_and, decide_false, Bool.false_eq_true, ite_false,
        ite_true] at h
      exact code_mem_arithUses h hu

theorem code_mem_shiftUses {op : ShiftOp} {size : Size} {r : Reg} {a b : OpRIA} {u : ConstUse}
    (hu : u ∈ ρ.shiftUses op size r a b) : u.code <:+: ρ.convertShift op size r a b := by
  have hl : ρ.loadOp size (ρ.reg r) a ++ [] ++ ρ.shiftOperand op size (ρ.reg r) b ++ [] =
      ρ.convertShift op size r a b := by simp [convertShift]
  exact code_mem_operands (fun _ h => infix_of_eq (code_mem_loadOp h))
    (fun _ h => infix_of_eq (code_mem_shiftOperand h)) hl hu

theorem code_mem_store {type : Ty} {addr : MemAddr} {a : OpRI} {size : Size} {u : ConstUse}
    {l : List Instr} (h : ρ.convertStore type addr a = some l)
    (hsize : sizeOf? type.size = some size)
    (hu : u ∈ operandUse (fun c => .store size (ρ.addr addr).2 c ρ.next) (OpRI.toRIA a)) :
    u.code <:+: l := by
  cases a with
  | reg s => cases hu
  | imm c =>
    cases List.mem_singleton.mp hu
    simp only [convertStore] at h
    cases hf : type.floatKind? with
    | some k => simp [hf] at h
    | none =>
      simp only [hf, hsize, Option.bind_eq_bind, Option.bind_some, pure, Option.some.injEq] at h
      subst h
      refine List.infix_append_of_infix_right (infix_of_eq ?_)
      simp only [ConstUse.code, ConstUse.carrier, ConstUse.reader]
      split <;> rfl

theorem code_mem_compare {size : Size} {a b : OpRIA} {u : ConstUse} {l : List Instr}
    (h : ρ.compare size a b = some l) (hu : u ∈ ρ.cmpUses size a b) : u.code <:+: l := by
  cases a with
  | imm c =>
    cases List.mem_singleton.mp hu
    cases b with
    | imm c' => cases h
    | reg b => cases h; exact ⟨[], _, rfl⟩
    | addr m => cases h; exact ⟨[], _, rfl⟩
  | reg x => cases h; exact infix_of_eq (code_mem_arithOperand hu)
  | addr m =>
    cases h
    exact List.infix_append_of_infix_right (infix_of_eq (code_mem_cmpMemOperand hu))

theorem code_mem_intCmp {size : Size} {cond : ConditionKind} {r : Reg} {a b : OpRIA}
    {next : Option IR.Instr} {u : ConstUse} {l : List Instr}
    (h : ρ.convertIntCmp size cond r a b next = some l) (hu : u ∈ ρ.cmpUses size a b) :
    u.code <:+: l := by
  simp only [convertIntCmp, Option.bind_eq_bind, Option.bind_eq_some_iff] at h
  obtain ⟨code, hcode, h⟩ := h
  have hmem := code_mem_compare hcode hu
  split at h
  · split at h <;> cases h <;> exact List.infix_append_of_infix_left hmem
  · cases h
    exact List.infix_append_of_infix_left hmem

theorem code_mem_loadArgs {args : List (Gpr × OpRIA)} {u : ConstUse}
    (hu : u ∈ ρ.syscallUses args) : u.code <:+: ρ.loadArgs args := by
  induction args with
  | nil => cases hu
  | cons arg args ih =>
    simp only [syscallUses, loadArgs, List.flatMap_cons] at hu ⊢
    rcases List.mem_append.mp hu with h | h
    · exact List.infix_append_of_infix_left (infix_of_eq (code_mem_loadOp h))
    · exact List.infix_append_of_infix_right (ih h)

/-- The code of every constant operand is in the converted code. -/
theorem code_mem_convert {i : IR.Instr} {next : Option IR.Instr} {l : List Instr} {u : ConstUse}
    (h : ρ.convert i next = some l) (hu : u ∈ ρ.constUses i) : u.code <:+: l := by
  cases i with
  | intBinary op type r a b =>
    simp only [convert, Option.bind_eq_bind, Option.bind_eq_some_iff] at h
    obtain ⟨size, hsize, h⟩ := h
    simp only [constUses, hsize, Option.elim_some] at hu
    cases op with
    | mul => exact code_mem_mulUses h hu
    | div => cases h; exact code_mem_divide hu
    | mod => cases h; exact code_mem_divide hu
    | sar => cases h; exact code_mem_shiftUses hu
    | shl => cases h; exact code_mem_shiftUses hu
    | _ => exact code_mem_arithUses h hu
  | divMod type q r a b =>
    simp only [convert, Option.bind_eq_bind, Option.bind_eq_some_iff] at h
    obtain ⟨size, hsize, h⟩ := h
    simp only [constUses, hsize, Option.elim_some] at hu
    cases h
    exact code_mem_divide hu
  | lImm type r imm =>
    simp only [convert, Option.bind_eq_bind, Option.bind_eq_some_iff] at h
    obtain ⟨size, hsize, h⟩ := h
    simp only [constUses, hsize, Option.elim_some] at hu
    cases List.mem_singleton.mp hu
    cases h
    exact List.infix_rfl
  | store type addr a =>
    cases hsize : sizeOf? type.size with
    | none => simp [constUses, hsize] at hu
    | some size =>
      simp only [constUses, hsize, Option.elim_some] at hu
      exact code_mem_store h hsize hu
  | intCmp type cond r a b =>
    simp only [convert, Option.bind_eq_bind, Option.bind_eq_some_iff] at h
    obtain ⟨size, hsize, h⟩ := h
    simp only [constUses, hsize, Option.elim_some] at hu
    exact code_mem_intCmp h hu
  | memcpy dst src size =>
    cases h
    exact List.infix_append_of_infix_left
      (List.infix_append_of_infix_right (infix_of_eq (code_mem_loadOp hu)))
  | memset dst value size =>
    cases h
    rw [constUses] at hu
    rcases List.mem_append.mp hu with h | h
    · exact List.infix_append_of_infix_left (List.infix_append_of_infix_left
        (List.infix_append_of_infix_right (infix_of_eq (code_mem_loadOp h))))
    · exact List.infix_append_of_infix_left
        (List.infix_append_of_infix_right (infix_of_eq (code_mem_loadOp h)))
  | syscall nr args r =>
    simp only [convert, convertSyscall] at h
    split at h
    · cases h
      rw [constUses] at hu
      rcases List.mem_append.mp hu with h | h
      · exact List.infix_append_of_infix_left
          (List.infix_append_of_infix_left (infix_of_eq (code_mem_loadOp h)))
      · exact List.infix_append_of_infix_left
          (List.infix_append_of_infix_right (code_mem_loadArgs h))
    · cases h
  | _ => cases hu

/-! ## Byte operands -/

theorem mem_operandUse {use : Word → ConstUse} {a : OpRIA} {u : ConstUse}
    (h : u ∈ operandUse use a) : ∃ c, u = use c := by
  cases a with
  | imm c => exact ⟨c, List.mem_singleton.mp h⟩
  | reg r => cases h
  | addr m => cases h

/-- Signed bytes are not multiplied by an immediate. -/
theorem imul_size {i : IR.Instr} {size : Size} {dst next : XReg} {c : Word}
    (h : .arith .imul size dst c next ∈ ρ.constUses i) : size ≠ .b1 := by
  have hop : ∀ {use : Word → ConstUse} {a : OpRIA},
      (∀ c', ConstUse.arith .imul size dst c next ≠ use c') →
      ConstUse.arith .imul size dst c next ∉ operandUse use a := by
    intro use a hne hmem
    obtain ⟨c', hc'⟩ := mem_operandUse hmem
    exact hne c' hc'
  cases i with
  | intBinary op type r a b =>
    cases hsize : sizeOf? type.size with
    | none => simp [constUses, hsize] at h
    | some s =>
      simp only [constUses, hsize, Option.elim_some] at h
      cases op with
      | mul =>
        simp only [intBinaryUses] at h
        split at h
        · rename_i hs
          rcases List.mem_append.mp h with h | h
          · exact absurd h (hop (by simp))
          · obtain ⟨c', hc'⟩ := mem_operandUse h
            cases hc'
            simpa using (Bool.and_eq_true_iff.mp hs).2
        · rcases List.mem_append.mp h with h | h <;> exact absurd h (hop (by simp))
      | _ => rcases List.mem_append.mp h with h | h <;> exact absurd h (hop (by simp))
  | divMod type q r a b =>
    cases hsize : sizeOf? type.size with
    | none => simp [constUses, hsize] at h
    | some s =>
      simp only [constUses, hsize, Option.elim_some] at h
      rcases List.mem_append.mp h with h | h <;> exact absurd h (hop (by simp))
  | lImm type r imm =>
    cases hsize : sizeOf? type.size <;> simp [constUses, hsize] at h
  | store type addr a =>
    cases hsize : sizeOf? type.size with
    | none => simp [constUses, hsize] at h
    | some s =>
      simp only [constUses, hsize, Option.elim_some] at h
      exact absurd h (hop (by simp))
  | intCmp type cond r a b =>
    cases hsize : sizeOf? type.size with
    | none => simp [constUses, hsize] at h
    | some s =>
      simp only [constUses, hsize, Option.elim_some] at h
      cases a with
      | imm c' => simp [cmpUses] at h
      | reg x => exact absurd h (hop (by simp))
      | addr m => exact absurd h (hop (by simp))
  | memcpy d s size => exact absurd h (hop (by simp))
  | memset d value size =>
    rcases List.mem_append.mp h with h | h <;> exact absurd h (hop (by simp))
  | syscall nr args r =>
    rcases List.mem_append.mp h with h | h
    · exact absurd h (hop (by simp))
    · obtain ⟨⟨g, a⟩, -, h⟩ := List.mem_flatMap.mp h
      exact absurd h (hop (by simp))
  | _ => cases h

end Regs

end Nibble.XIR
