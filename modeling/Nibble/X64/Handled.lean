import Nibble.X64.EmitCall
import Nibble.X64.Encode
import Nibble.XIR.Const

/-!
# Which instructions the encoder knows

`X64_elf_gen_instr` has a case for every kind of instruction but one: `imul`
of a memory operand by an immediate. The table of the emitters for memory
destinations has it, but no emitter asks the table for it.
-/

namespace Nibble.X64

open Nibble.IR (BBlockId)
open Nibble.XIR (XReg XMemAddr ArithOp CallValue CallArg Call ArgReg)

/-- The kinds that `X64_elf_gen_instr` has a case for. -/
def Instr.isHandled : Instr → Bool
  | .imulMI _ _ _ => false
  | _ => true

/-- The default case: a fatal error. -/
theorem genCode_eq_none_of_not_isHandled {i : Instr} (h : i.isHandled = false) :
    genCode i = none := by
  unfold Instr.isHandled at h
  split at h
  · rfl
  · cases h

/-- Code whose kinds are all known. -/
def Handled (code : List Instr) : Prop := ∀ i ∈ code, i.isHandled = true

section Handled

variable {i : Instr} {c₁ c₂ code : List Instr}

@[simp] theorem handled_nil : Handled [] := fun _ h => absurd h List.not_mem_nil

@[simp] theorem handled_cons : Handled (i :: code) ↔ i.isHandled = true ∧ Handled code := by
  simp [Handled]

@[simp] theorem handled_append : Handled (c₁ ++ c₂) ↔ Handled c₁ ∧ Handled c₂ := by
  simp [Handled, or_imp, forall_and]

@[simp] theorem handled_ite {p : Prop} [Decidable p] :
    Handled (if p then c₁ else c₂) ↔ (p → Handled c₁) ∧ (¬ p → Handled c₂) := by
  split <;> simp_all

theorem handled_flatMap {α : Type} {f : α → List Instr} {xs : List α}
    (h : ∀ x, Handled (f x)) : Handled (xs.flatMap f) := by
  intro i hi
  obtain ⟨x, -, hx⟩ := List.mem_flatMap.mp hi
  exact h x i hx

/-- What each argument is emitted as is known, so all of it is. -/
theorem handled_mapM {α : Type} {f : α → Option (List Instr)} {xs : List α}
    {codes : List (List Instr)} (hf : ∀ x c, f x = some c → Handled c)
    (h : xs.mapM f = some codes) : Handled codes.flatten := by
  induction xs generalizing codes with
  | nil => cases h; exact handled_nil
  | cons x xs ih =>
    rw [List.mapM_cons] at h
    obtain ⟨c, hc, h⟩ := Option.bind_eq_some_iff.mp h
    obtain ⟨cs, hcs, h⟩ := Option.bind_eq_some_iff.mp h
    cases h
    exact handled_append.mpr ⟨hf x c hc, ih hcs⟩

/-- What surrounds an operation on a spilled operand. -/
@[simp] theorem isHandled_push (g : Gpr) : (Instr.push g).isHandled = true := rfl
@[simp] theorem isHandled_pop (g : Gpr) : (Instr.pop g).isHandled = true := rfl
@[simp] theorem isHandled_movRM (size : Size) (g : Gpr) (a : SibdAddr) :
    (Instr.movRM size g a).isHandled = true := rfl
@[simp] theorem isHandled_movMR (h : Bool) (size : Size) (g : Gpr) (a : SibdAddr) :
    (Instr.movMR h size a g).isHandled = true := rfl
@[simp] theorem isHandled_movFltRM (k : FloatKind) (x : Xmm) (a : SibdAddr) :
    (Instr.movFltRM k x a).isHandled = true := rfl
@[simp] theorem isHandled_movFltMR (k : FloatKind) (x : Xmm) (a : SibdAddr) :
    (Instr.movFltMR k a x).isHandled = true := rfl

@[simp] theorem handled_pushReg (r : Reg) : Handled (pushReg r) := by
  cases r <;> simp [pushReg, Instr.isHandled]

@[simp] theorem handled_popReg (r : Reg) : Handled (popReg r) := by
  cases r <;> simp [popReg, Instr.isHandled]

end Handled

/-! ## Tables -/

section Tables

variable {kind : BinKind} {size size' : Size} {d s : Gpr} {addr : SibdAddr} {imm : BitVec 32}

theorem binIntRREmit_isHandled {emit : Size → Gpr → Gpr → Instr}
    (h : binIntRREmit kind = some emit) : (emit size d s).isHandled = true := by
  unfold binIntRREmit at h
  split at h <;> cases h <;> rfl

theorem binIntRMEmit_isHandled {emit : Size → Gpr → SibdAddr → Instr}
    (h : binIntRMEmit kind = some emit) : (emit size d addr).isHandled = true := by
  unfold binIntRMEmit at h
  split at h <;> cases h <;> rfl

theorem binIntRIEmit_isHandled {emit : Size → Gpr → BitVec 32 → Instr}
    (h : binIntRIEmit kind = some emit) : (emit size d imm).isHandled = true := by
  unfold binIntRIEmit at h
  split at h <;> cases h <;> rfl

theorem binIntMREmit_isHandled {emit : Size → SibdAddr → Gpr → Instr}
    (h : binIntMREmit kind = some emit) : (emit size addr s).isHandled = true := by
  unfold binIntMREmit at h
  split at h <;> cases h <;> rfl

/-- The table for memory destinations has one kind that the encoder does not. -/
theorem binIntMIEmit_isHandled {emit : Size → SibdAddr → BitVec 32 → Instr}
    (h : binIntMIEmit kind = some emit) :
    (emit size addr imm).isHandled = decide (kind.op ≠ .imul) := by
  unfold binIntMIEmit at h
  split at h <;> cases h <;> rfl

/-- The table knows the kinds of its own form only. -/
theorem binIntMIEmit_form {emit : Size → SibdAddr → BitVec 32 → Instr}
    (h : binIntMIEmit kind = some emit) : kind.form = .mi := by
  unfold binIntMIEmit at h
  split at h <;> first | rfl | cases h

theorem movExtRREmit_isHandled {kind : ExtKind} {emit : Size → Gpr → Size → Gpr → Instr}
    (h : movExtRREmit kind = some emit) : (emit size d size' s).isHandled = true := by
  unfold movExtRREmit at h
  split at h <;> cases h <;> rfl

theorem movExtRMEmit_isHandled {kind : ExtKind} {emit : Size → Gpr → Size → SibdAddr → Instr}
    (h : movExtRMEmit kind = some emit) : (emit size d size' addr).isHandled = true := by
  unfold movExtRMEmit at h
  split at h <;> cases h <;> rfl

variable {fltKind : FloatKind} {x y : Xmm}

theorem binFltRREmit_isHandled {kind : FltKind} {emit : FloatKind → Xmm → Xmm → Instr}
    (h : binFltRREmit kind = some emit) : (emit fltKind x y).isHandled = true := by
  unfold binFltRREmit at h
  split at h <;> cases h <;> rfl

theorem binFltRMEmit_isHandled {kind : FltKind} {emit : FloatKind → Xmm → SibdAddr → Instr}
    (h : binFltRMEmit kind = some emit) : (emit fltKind x addr).isHandled = true := by
  unfold binFltRMEmit at h
  split at h <;> cases h <;> rfl

theorem binFltMREmit_isHandled {kind : FltKind} {emit : FloatKind → SibdAddr → Xmm → Instr}
    (h : binFltMREmit kind = some emit) : (emit fltKind addr x).isHandled = true := by
  unfold binFltMREmit at h
  split at h <;> cases h
  rfl

end Tables

namespace ProcState

variable {P : ProcState} {x y : XReg} {addr : XMemAddr} {size : Size} {kind : FloatKind}
  {store : Bool} {banned : RegMask} {code : List Instr}

/-! ## Emitters -/

theorem handled_withInt {body : Gpr → Option (List Instr)} (hb : ∀ g c, body g = some c → Handled c)
    (h : P.withInt x size store banned body = some code) : Handled code := by
  unfold withInt getInt at h
  cases hx : P.intLoc x with
  | reg g =>
    simp only [hx, Option.bind_eq_bind, Option.bind_some] at h
    obtain ⟨c, hc, h⟩ := Option.bind_eq_some_iff.mp h
    cases h
    simpa [endRegGroup, beginRegGroup] using hb g c hc
  | stack offset =>
    simp only [hx, Option.bind_eq_bind, Option.bind_assoc] at h
    obtain ⟨g, -, h⟩ := Option.bind_eq_some_iff.mp h
    simp only [Option.pure_def, Option.bind_some] at h
    obtain ⟨c, hc, h⟩ := Option.bind_eq_some_iff.mp h
    cases h
    simp [endRegGroup, beginRegGroup, TmpReg.close, hb g c hc]

theorem handled_withFlt {body : Xmm → Option (List Instr)} (hb : ∀ r c, body r = some c → Handled c)
    (h : P.withFlt x kind store banned body = some code) : Handled code := by
  unfold withFlt getFlt at h
  cases hx : P.fltLoc x with
  | reg r =>
    simp only [hx, Option.bind_eq_bind, Option.bind_some] at h
    obtain ⟨c, hc, h⟩ := Option.bind_eq_some_iff.mp h
    cases h
    simpa [endRegGroup, beginRegGroup] using hb r c hc
  | stack offset =>
    simp only [hx, Option.bind_eq_bind, Option.bind_assoc] at h
    obtain ⟨r, -, h⟩ := Option.bind_eq_some_iff.mp h
    simp only [Option.pure_def, Option.bind_some] at h
    obtain ⟨c, hc, h⟩ := Option.bind_eq_some_iff.mp h
    cases h
    simp [endRegGroup, beginRegGroup, TmpReg.close, hb r c hc]

theorem handled_emitBinIntRR {kind : BinKind} {w allowMR : Bool}
    (h : P.emitBinIntRR kind w allowMR size x y = some code) : Handled code := by
  unfold emitBinIntRR at h
  split at h
  case h_1 =>
    obtain ⟨emit, he, h⟩ := Option.bind_eq_some_iff.mp h
    cases h
    simp [binIntRREmit_isHandled he]
  case h_2 =>
    obtain ⟨emit, he, h⟩ := Option.bind_eq_some_iff.mp h
    cases h
    simp [binIntRMEmit_isHandled he]
  case h_3 =>
    split at h <;> obtain ⟨emit, he, h⟩ := Option.bind_eq_some_iff.mp h <;> cases h
    · simp [binIntMREmit_isHandled he]
    · simp [binIntRREmit_isHandled he]
  case h_4 =>
    obtain ⟨emit, he, h⟩ := Option.bind_eq_some_iff.mp h
    cases h
    simp [binIntRMEmit_isHandled he]

theorem handled_emitBinFltRR {kind : FltKind} {fltKind : FloatKind} {allowMR : Bool}
    (h : P.emitBinFltRR kind fltKind x y allowMR = some code) : Handled code := by
  unfold emitBinFltRR at h
  split at h
  case h_1 =>
    obtain ⟨emit, he, h⟩ := Option.bind_eq_some_iff.mp h
    cases h
    simp [binFltRREmit_isHandled he]
  case h_2 =>
    obtain ⟨emit, he, h⟩ := Option.bind_eq_some_iff.mp h
    cases h
    simp [binFltRMEmit_isHandled he]
  case h_3 =>
    split at h <;> obtain ⟨emit, he, h⟩ := Option.bind_eq_some_iff.mp h <;> cases h
    · simp [binFltMREmit_isHandled he]
    · simp [binFltRREmit_isHandled he]
  case h_4 =>
    obtain ⟨emit, he, h⟩ := Option.bind_eq_some_iff.mp h
    cases h
    simp [binFltRMEmit_isHandled he]

theorem handled_emitMovExtRR {kind : ExtKind} {size' : Size}
    (h : P.emitMovExtRR kind size x size' y = some code) : Handled code := by
  refine handled_withInt (fun d c hc => ?_) h
  split at hc <;> obtain ⟨emit, he, hc⟩ := Option.bind_eq_some_iff.mp hc <;> cases hc
  · simp [movExtRREmit_isHandled he]
  · simp [movExtRMEmit_isHandled he]

theorem handled_emitMovExtRM {kind : ExtKind} {size' : Size}
    (h : P.emitMovExtRM kind size x size' addr = some code) : Handled code := by
  obtain ⟨⟨m, used⟩, -, h⟩ := Option.bind_eq_some_iff.mp h
  refine handled_withInt (fun d c hc => ?_) h
  obtain ⟨emit, he, hc⟩ := Option.bind_eq_some_iff.mp hc
  cases hc
  simp [movExtRMEmit_isHandled he]

theorem handled_emitBinIntRM {kind : BinKind} {w : Bool}
    (h : P.emitBinIntRM kind w size x addr = some code) : Handled code := by
  obtain ⟨⟨m, used⟩, -, h⟩ := Option.bind_eq_some_iff.mp h
  refine handled_withInt (fun d c hc => ?_) h
  obtain ⟨emit, he, hc⟩ := Option.bind_eq_some_iff.mp hc
  cases hc
  simp [binIntRMEmit_isHandled he]

theorem handled_emitBinIntMR {kind : BinKind}
    (h : P.emitBinIntMR kind size addr x = some code) : Handled code := by
  obtain ⟨⟨m, used⟩, -, h⟩ := Option.bind_eq_some_iff.mp h
  refine handled_withInt (fun d c hc => ?_) h
  obtain ⟨emit, he, hc⟩ := Option.bind_eq_some_iff.mp hc
  cases hc
  simp [binIntMREmit_isHandled he]

theorem handled_emitBinFltRM {kind : FltKind} {w : Bool} {fltKind : FloatKind}
    (h : P.emitBinFltRM kind w fltKind x addr = some code) : Handled code := by
  obtain ⟨⟨m, used⟩, -, h⟩ := Option.bind_eq_some_iff.mp h
  refine handled_withFlt (fun d c hc => ?_) h
  obtain ⟨emit, he, hc⟩ := Option.bind_eq_some_iff.mp hc
  cases hc
  simp [binFltRMEmit_isHandled he]

theorem handled_emitBinFltMR {kind : FltKind} {fltKind : FloatKind}
    (h : P.emitBinFltMR kind fltKind addr x = some code) : Handled code := by
  obtain ⟨⟨m, used⟩, -, h⟩ := Option.bind_eq_some_iff.mp h
  refine handled_withFlt (fun d c hc => ?_) h
  obtain ⟨emit, he, hc⟩ := Option.bind_eq_some_iff.mp hc
  cases hc
  simp [binFltMREmit_isHandled he]

theorem handled_emitBinIntMI {kind : BinKind} {imm : BitVec 64} (hk : kind.op ≠ .imul)
    (h : P.emitBinIntMI kind size addr imm = some code) : Handled code := by
  obtain ⟨⟨m, used⟩, -, h⟩ := Option.bind_eq_some_iff.mp h
  obtain ⟨emit, he, h⟩ := Option.bind_eq_some_iff.mp h
  cases h
  simp [binIntMIEmit_isHandled he, hk]

/-- For a spilled destination the table is asked for the kind of the register form. -/
theorem handled_emitBinIntRI {kind : BinKind} {imm : BitVec 64} (hk : kind.form = .ri)
    (h : P.emitBinIntRI kind size x imm = some code) : Handled code := by
  unfold emitBinIntRI at h
  split at h <;> obtain ⟨emit, he, h⟩ := Option.bind_eq_some_iff.mp h <;> cases h
  · simp [binIntRIEmit_isHandled he]
  · rw [binIntMIEmit_form he] at hk
    cases hk

theorem handled_emitRegMem {r : Gpr → Instr} {m : SibdAddr → Instr}
    (hr : ∀ g, (r g).isHandled = true) (hm : ∀ a, (m a).isHandled = true) :
    Handled (P.emitRegMem x r m) := by
  unfold emitRegMem
  split <;> simp [hr, hm]

theorem handled_readFlt {r : Xmm → Instr} {m : SibdAddr → Instr}
    (hr : ∀ g, (r g).isHandled = true) (hm : ∀ a, (m a).isHandled = true)
    (h : P.readFlt x r m = some code) : Handled code := by
  unfold readFlt at h
  split at h <;> cases h <;> simp [hr, hm]

theorem handled_emitCvtFltRR (h : P.emitCvtFltRR kind x y = some code) : Handled code :=
  handled_withFlt (fun _ _ hc => handled_readFlt (fun _ => rfl) (fun _ => rfl) hc) h

theorem handled_emitCvtFltRM (h : P.emitCvtFltRM kind x addr = some code) : Handled code := by
  obtain ⟨⟨m, used⟩, -, h⟩ := Option.bind_eq_some_iff.mp h
  exact handled_withFlt (fun d c hc => by cases hc; simp [Instr.isHandled]) h

theorem handled_emitCvtFltIntRR (h : P.emitCvtFltIntRR kind size x y = some code) :
    Handled code :=
  handled_withInt (fun _ _ hc => handled_readFlt (fun _ => rfl) (fun _ => rfl) hc) h

theorem handled_emitCvtFltIntRM (h : P.emitCvtFltIntRM kind size x addr = some code) :
    Handled code := by
  obtain ⟨⟨m, used⟩, -, h⟩ := Option.bind_eq_some_iff.mp h
  exact handled_withInt (fun d c hc => by cases hc; simp [Instr.isHandled]) h

theorem handled_emitCvtIntFltRR (h : P.emitCvtIntFltRR kind x size y = some code) :
    Handled code := by
  unfold emitCvtIntFltRR at h
  split at h
  · cases h
  refine handled_withFlt (fun d c hc => ?_) h
  cases hc
  exact handled_emitRegMem (fun _ => rfl) fun _ => rfl

theorem handled_emitCvtIntFltRM (h : P.emitCvtIntFltRM kind x size addr = some code) :
    Handled code := by
  unfold emitCvtIntFltRM at h
  split at h
  · cases h
  obtain ⟨⟨m, used⟩, -, h⟩ := Option.bind_eq_some_iff.mp h
  exact handled_withFlt (fun d c hc => by cases hc; simp [Instr.isHandled]) h

theorem handled_emitUcomisRR (h : P.emitUcomisRR kind x y = some code) : Handled code :=
  handled_withFlt (fun _ _ hc => handled_readFlt (fun _ => rfl) (fun _ => rfl) hc) h

theorem handled_emitUcomisRM (h : P.emitUcomisRM kind x addr = some code) : Handled code := by
  obtain ⟨⟨m, used⟩, -, h⟩ := Option.bind_eq_some_iff.mp h
  exact handled_withFlt (fun d c hc => by cases hc; simp [Instr.isHandled]) h

theorem handled_emitLea (h : P.emitLea x addr = some code) : Handled code := by
  obtain ⟨⟨m, used⟩, -, h⟩ := Option.bind_eq_some_iff.mp h
  exact handled_withInt (fun d c hc => by cases hc; simp [Instr.isHandled]) h

theorem handled_emitMovRI {imm : BitVec 64} (h : P.emitMovRI size x imm = some code) :
    Handled code := handled_withInt (fun d c hc => by cases hc; simp [Instr.isHandled]) h

theorem handled_emitMovRRH (h : P.emitMovRRH x y = some code) : Handled code := by
  unfold emitMovRRH at h
  split at h <;> cases h
  exact handled_emitRegMem (fun _ => rfl) fun _ => rfl

theorem handled_emitShiftRR {op : ShiftOp} (h : P.emitShiftRR op size x y = some code) :
    Handled code := by
  unfold emitShiftRR at h
  split at h <;> cases h
  exact handled_emitRegMem (fun _ => rfl) fun _ => rfl

theorem handled_emitMovzxRR {size' : Size} (h : P.emitMovzxRR size x size' y = some code) :
    Handled code := by
  unfold emitMovzxRR at h
  split at h
  · exact handled_emitMovExtRR h
  split at h
  · exact handled_emitBinIntRR h
  · cases h

theorem handled_emitMovzxRM {size' : Size} (h : P.emitMovzxRM size x size' addr = some code) :
    Handled code := by
  unfold emitMovzxRM at h
  split at h
  · exact handled_emitMovExtRM h
  split at h
  · exact handled_emitBinIntRM h
  · cases h

/-! ## Calls -/

theorem handled_loadPrim {n : Nat} {r : Reg} {m : SibdAddr} {i : Instr}
    (h : loadPrim n r m = some i) : i.isHandled = true := by
  cases r <;> obtain ⟨_, -, rfl⟩ := Option.map_eq_some_iff.mp h <;> rfl

theorem handled_copyToRegs {rs : List ArgReg} {m : SibdAddr} (h : copyToRegs rs m = some code) :
    Handled code := by
  induction rs generalizing m code with
  | nil => cases h; exact handled_nil
  | cons r rs ih =>
    obtain ⟨load, hl, h⟩ := Option.bind_eq_some_iff.mp h
    obtain ⟨next, -, h⟩ := Option.bind_eq_some_iff.mp h
    obtain ⟨rest, hrest, h⟩ := Option.bind_eq_some_iff.mp h
    cases h
    exact handled_cons.mpr ⟨handled_loadPrim hl, ih hrest⟩

theorem handled_placePrimInReg {n : Nat} {r : Reg} (h : P.placePrimInReg n x r = some code) :
    Handled code := by
  unfold placePrimInReg at h
  have load {q : Reg} {offset : BitVec 32}
      (h : (loadPrim n q (rbpOffsetAddr offset)).map ([·]) = some code) : Handled code := by
    obtain ⟨i, hi, rfl⟩ := Option.map_eq_some_iff.mp h
    exact handled_cons.mpr ⟨handled_loadPrim hi, handled_nil⟩
  have there {p : Prop} [Decidable p] (h : (if p then some [] else none) = some code) :
      Handled code := by
    split at h <;> cases h
    exact handled_nil
  cases r <;> simp only at h <;> split at h
  exacts [load h, there h, load h, there h]

theorem handled_placeArgInReg {arg : CallArg} (h : P.placeArgInReg arg = some code) :
    Handled code := by
  unfold placeArgInReg at h
  split at h
  case h_1 => cases h; exact handled_nil
  case h_2 | h_3 =>
    split at h
    · obtain ⟨⟨m, used⟩, -, h⟩ := Option.bind_eq_some_iff.mp h
      exact handled_copyToRegs h
    · cases h
  case h_4 =>
    split at h
    · cases h
    · exact handled_placePrimInReg h
  case h_5 => cases h

theorem handled_copyStructArg {arg : CallArg} (h : P.copyStructArg arg = some code) :
    Handled code := by
  unfold copyStructArg at h
  split at h
  case h_2 => cases h; exact handled_nil
  case h_1 =>
    split at h
    case isFalse => cases h
    obtain ⟨⟨m, used⟩, -, h⟩ := Option.bind_eq_some_iff.mp h
    cases m <;> cases h
    simp [Instr.isHandled]

theorem handled_placeStructArgsInStack {args : List CallArg}
    (h : P.placeStructArgsInStack args = some code) : Handled code := by
  obtain ⟨codes, hc, h⟩ := Option.bind_eq_some_iff.mp h
  have hcode := handled_mapM (fun _ _ => handled_copyStructArg) hc
  split at h <;> cases h
  · exact handled_nil
  · simp [hcode]

theorem handled_placeRegArgInStack {arg : CallArg} (h : P.placeRegArgInStack arg = some code) :
    Handled code := by
  unfold placeRegArgInStack at h
  split at h
  case h_2 => cases h; exact handled_nil
  case h_1 =>
    split at h <;> split at h
    · cases h; simp
    · cases h; exact handled_nil
    · obtain ⟨s, -, rfl⟩ := Option.map_eq_some_iff.mp h
      simp
    · cases h; exact handled_nil

theorem handled_placeSpilledArgInStack {arg : CallArg}
    (h : P.placeSpilledArgInStack arg = some code) : Handled code := by
  unfold placeSpilledArgInStack at h
  split at h
  case h_2 => cases h; exact handled_nil
  case h_1 =>
    split at h
    · obtain ⟨s, -, rfl⟩ := Option.map_eq_some_iff.mp h
      simp
    · cases h; exact handled_nil

theorem handled_placeArgsInStack {args : List CallArg} (h : P.placeArgsInStack args = some code) :
    Handled code := by
  obtain ⟨structs, hs, h⟩ := Option.bind_eq_some_iff.mp h
  obtain ⟨regs, hr, h⟩ := Option.bind_eq_some_iff.mp h
  obtain ⟨spilled, hp, h⟩ := Option.bind_eq_some_iff.mp h
  cases h
  simp only [handled_append]
  exact ⟨⟨handled_placeStructArgsInStack hs, handled_mapM (fun _ _ => handled_placeRegArgInStack) hr⟩,
    handled_mapM (fun _ _ => handled_placeSpilledArgInStack) hp⟩

theorem handled_passRetAddr {retType : Ty} {dst : CallValue}
    (h : P.passRetAddr retType dst = some code) : Handled code := by
  unfold passRetAddr at h
  split at h
  · split at h
    · obtain ⟨⟨m, used⟩, -, h⟩ := Option.bind_eq_some_iff.mp h
      cases h
      simp [Instr.isHandled]
    · cases h
  · cases h; exact handled_nil

theorem handled_fillChunks {fuel rem : Nat} {dst : SibdAddr} {src : Gpr}
    (h : fillChunks fuel dst src rem = some code) : Handled code := by
  induction fuel generalizing dst rem code with
  | zero =>
    cases rem <;> cases h
    exact handled_nil
  | succ fuel ih =>
    cases rem with
    | zero => cases h; exact handled_nil
    | succ rem =>
      simp only [fillChunks] at h
      split at h
      · cases h; simp
      · obtain ⟨next, -, h⟩ := Option.bind_eq_some_iff.mp h
        obtain ⟨rest, hrest, h⟩ := Option.bind_eq_some_iff.mp h
        cases h
        simp [Instr.isHandled, ih hrest]

theorem handled_fillMemFromReg {dst : SibdAddr} {src : Reg} {n rem : Nat}
    (h : fillMemFromReg dst src n = some (code, rem)) : Handled code := by
  unfold fillMemFromReg at h
  split at h
  case h_1 g =>
    split at h
    · cases h; simp
    · obtain ⟨c, hc, h⟩ := Option.map_eq_some_iff.mp h
      cases h
      exact handled_fillChunks hc
  case h_2 x =>
    split at h
    · cases h; simp
    split at h <;> cases h
    simp

theorem handled_cpyRetSmallObj {retType : Ty} (h : P.cpyRetSmallObj retType addr = some code) :
    Handled code := by
  unfold cpyRetSmallObj at h
  split at h
  · cases h; exact handled_nil
  obtain ⟨⟨m, used⟩, -, h⟩ := Option.bind_eq_some_iff.mp h
  obtain ⟨⟨low, rem⟩, hl, h⟩ := Option.bind_eq_some_iff.mp h
  simp only at h
  split at h
  · cases h; exact handled_fillMemFromReg hl
  obtain ⟨next, -, h⟩ := Option.bind_eq_some_iff.mp h
  obtain ⟨⟨high, rem'⟩, hh, h⟩ := Option.bind_eq_some_iff.mp h
  simp only at h
  split at h <;> cases h
  exact handled_append.mpr ⟨handled_fillMemFromReg hl, handled_fillMemFromReg hh⟩

theorem handled_moveResult {retType : Ty} {dst : CallValue}
    (h : P.moveResult retType dst = some code) : Handled code := by
  unfold moveResult at h
  split at h
  case h_1 => cases h; exact handled_nil
  case h_2 =>
    split at h
    · exact handled_cpyRetSmallObj h
    · cases h
  case h_3 =>
    split at h
    · cases h
    split at h
    · split at h <;> cases h <;> simp [Instr.isHandled]
    · obtain ⟨s, -, rfl⟩ := Option.map_eq_some_iff.mp h
      split <;> simp [Instr.isHandled]

theorem handled_subRsp (n : BitVec 64) : Handled (subRsp n) := by
  unfold subRsp
  split <;> simp [Instr.isHandled]

theorem handled_addRsp (n : BitVec 64) : Handled (addRsp n) := by
  unfold addRsp
  split <;> simp [Instr.isHandled]

theorem handled_beforeCall {c : Call} (h : P.beforeCall c = some code) : Handled code := by
  obtain ⟨ret, hret, h⟩ := Option.bind_eq_some_iff.mp h
  obtain ⟨regs, hregs, h⟩ := Option.bind_eq_some_iff.mp h
  obtain ⟨codes, hcodes, hr⟩ := Option.bind_eq_some_iff.mp hregs
  cases hr
  have hargs := handled_mapM (fun _ _ => handled_placeArgInReg) hcodes
  have last {stack : List Instr} (hs : Handled stack)
      (h : (if (totalStackSize c + alignStackSize c) &&& 15 = 0 then
          some ((if alignStackSize c = 0 then [.noop] else subRsp (alignStackSize c)) ++
            saveRegs c.saveRegMask ++ ret ++ subRsp c.stackSize ++ codes.flatten ++ stack)
        else none) = some code) : Handled code := by
    split at h <;> cases h
    simp [handled_passRetAddr hret, hargs, hs, handled_subRsp, saveRegs, handled_flatMap,
      Instr.isHandled]
  by_cases h0 : c.stackSize = 0
  · exact last handled_nil ((if_pos h0).symm.trans h)
  · obtain ⟨stack, hs, h⟩ := Option.bind_eq_some_iff.mp ((if_neg h0).symm.trans h)
    exact last (handled_placeArgsInStack hs) h

theorem handled_afterCall {c : Call} (h : P.afterCall c = some code) : Handled code := by
  obtain ⟨result, hr, h⟩ := Option.bind_eq_some_iff.mp h
  split at h <;> cases h <;>
    simp [handled_moveResult hr, handled_addRsp, restoreRegs, handled_flatMap]

theorem handled_emitCall {c : Call} {call : Instr} (hc : call.isHandled = true)
    (h : P.emitCall call c = some code) : Handled code := by
  obtain ⟨before, hb, h⟩ := Option.bind_eq_some_iff.mp h
  obtain ⟨after, ha, h⟩ := Option.bind_eq_some_iff.mp h
  cases h
  simp [handled_beforeCall hb, hc, handled_afterCall ha]

/-! ## Instructions -/

/-- The encoder knows every kind that is emitted. -/
theorem handled_genInstr {last : Bool} {bb : BBlockId} {i : XIR.Instr}
    (h : P.genInstr last bb i = some code) : Handled code := by
  cases i with
  | movRR size dst src =>
    simp only [genInstr] at h
    split at h
    · cases h; exact handled_nil
    · exact handled_emitBinIntRR h
  | movRM size dst src => exact handled_emitBinIntRM h
  | movMR size dst src => exact handled_emitBinIntMR h
  | movRI size dst src => exact handled_emitMovRI h
  | movMI size dst src => exact handled_emitBinIntMI (by simp) h
  | movRRH dst src => exact handled_emitMovRRH h
  | arithRR op size dst src => cases op <;> exact handled_emitBinIntRR h
  | arithRM op size dst src => cases op <;> exact handled_emitBinIntRM h
  | arithRI op size dst src => cases op <;> exact handled_emitBinIntRI rfl h
  | cmpMR size op1 op2 => exact handled_emitBinIntMR h
  | cmpMI size op1 op2 => exact handled_emitBinIntMI (by simp) h
  | raxR op size dx ax src =>
    cases h
    exact handled_emitRegMem (fun _ => rfl) fun _ => rfl
  | raxM op size dx ax src =>
    obtain ⟨⟨m, used⟩, -, h⟩ := Option.bind_eq_some_iff.mp h
    cases h
    simp [Instr.isHandled]
  | sextAxToDx size dx ax => cases size <;> cases h <;> simp [Instr.isHandled]
  | shiftRR op size dst src => exact handled_emitShiftRR h
  | shiftRI op size dst src =>
    cases h
    exact handled_emitRegMem (fun _ => rfl) fun _ => rfl
  | unary op size dst =>
    cases h
    exact handled_emitRegMem (fun _ => rfl) fun _ => rfl
  | movExtRR op dstSize dst srcSize src =>
    cases op with
    | movsx => exact handled_emitMovExtRR h
    | movzx => exact handled_emitMovzxRR h
  | movExtRM op dstSize dst srcSize src =>
    cases op with
    | movsx => exact handled_emitMovExtRM h
    | movzx => exact handled_emitMovzxRM h
  | fltRR op kind dst src => exact handled_emitBinFltRR h
  | fltRM op kind dst src => exact handled_emitBinFltRM h
  | movFltRR kind dst src =>
    simp only [genInstr] at h
    split at h
    · cases h; exact handled_nil
    · exact handled_emitBinFltRR h
  | movFltRM kind dst src => exact handled_emitBinFltRM h
  | movFltMR kind dst src => exact handled_emitBinFltMR h
  | cvtFltRR srcKind dst src => exact handled_emitCvtFltRR h
  | cvtFltRM srcKind dst src => exact handled_emitCvtFltRM h
  | cvtFltIntRR srcKind dstSize dst src => exact handled_emitCvtFltIntRR h
  | cvtFltIntRM srcKind dstSize dst src => exact handled_emitCvtFltIntRM h
  | cvtIntFltRR dstKind dst srcSize src => exact handled_emitCvtIntFltRR h
  | cvtIntFltRM dstKind dst srcSize src => exact handled_emitCvtIntFltRM h
  | lea dst mem => exact handled_emitLea h
  | ucomisRR kind op1 op2 => exact handled_emitUcomisRR h
  | ucomisRM kind op1 op2 => exact handled_emitUcomisRM h
  | jmp target => cases h; simp [Instr.isHandled]
  | jmpcc cond trueBb falseBb =>
    obtain ⟨t, -, rfl⟩ := Option.map_eq_some_iff.mp h
    simp [Instr.isHandled]
  | setcc cond dst =>
    cases h
    exact handled_emitRegMem (fun _ => rfl) fun _ => rfl
  | repMovsb rdi rsi rcx => cases h; simp [Instr.isHandled]
  | repStosb rdi al rcx => cases h; simp [Instr.isHandled]
  | syscall nr args rcx r11 => cases h; simp [Instr.isHandled]
  | ret ax dx => cases h; simp [Instr.isHandled]
  | call sym c => exact handled_emitCall rfl h
  | callR procLoc c =>
    have hc : (P.callThrough procLoc).isHandled = true := by
      unfold callThrough
      split <;> rfl
    exact handled_emitCall hc h

end ProcState

end Nibble.X64
