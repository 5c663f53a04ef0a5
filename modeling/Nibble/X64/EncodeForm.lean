import Nibble.X64.AddrDecode
import Nibble.X64.Decode

/-!
# Decoding what the writers write

One lemma for the register form and one for the memory form: the prefixes and
the opcode come back, and the ModRM byte gives back its two operands. A byte
register is named correctly exactly if there is a REX prefix or its number is
below 4.
-/

namespace Nibble.X64

open Nibble.Lib

/-! ## Prefixes -/

/-- The bytes of an optional REX prefix. -/
def rexBytes : Option Rex → List UInt8
  | some r => [rexPrefix r.w r.r r.x r.b]
  | none => []

def rexOfRegs (w no8h : Bool) (reg rm : Nat) : Option Rex :=
  if w || 7 < reg || 7 < rm then some ⟨w, 7 < reg, false, 7 < rm⟩
  else if no8h then some ⟨false, false, false, false⟩ else none

def rexOfMem (w no8h : Bool) (reg : Nat) (a : AddrBytes) : Option Rex :=
  if w || 7 < reg || a.rexB || a.rexX then some ⟨w, 7 < reg, a.rexX, a.rexB⟩
  else if no8h then some ⟨false, false, false, false⟩ else none

theorem rexRegs_eq (w no8h : Bool) (reg rm : Nat) :
    rexRegs w no8h reg rm = rexBytes (rexOfRegs w no8h reg rm) := by
  unfold rexRegs rexOfRegs
  split
  · rfl
  · split <;> rfl

theorem rexMem_eq (w no8h : Bool) (reg : Nat) (a : AddrBytes) :
    rexMem w no8h reg a = rexBytes (rexOfMem w no8h reg a) := by
  unfold rexMem rexOfMem
  split
  · rfl
  · split <;> rfl

/-- Where there is no prefix all of its bits would be zero. -/
@[simp] theorem bits_rexOfRegs (p w no8h : Bool) (reg rm : Nat) :
    Prefixes.bits ⟨p, rexOfRegs w no8h reg rm⟩ = ⟨w, 7 < reg, false, 7 < rm⟩ := by
  unfold Prefixes.bits rexOfRegs
  split
  · rfl
  · rename_i h
    simp only [Bool.or_eq_true, decide_eq_true_eq, not_or] at h
    obtain ⟨⟨hw, hreg⟩, hrm⟩ := h
    split <;> simp [hw, hreg, hrm]

@[simp] theorem bits_rexOfMem (p w no8h : Bool) (reg : Nat) (a : AddrBytes) :
    Prefixes.bits ⟨p, rexOfMem w no8h reg a⟩ = ⟨w, 7 < reg, a.rexX, a.rexB⟩ := by
  unfold Prefixes.bits rexOfMem
  split
  · rfl
  · rename_i h
    simp only [Bool.or_eq_true, decide_eq_true_eq, not_or] at h
    obtain ⟨⟨⟨hw, hreg⟩, hb⟩, hx⟩ := h
    split <;> simp [hw, hreg, hb, hx]

@[simp] theorem decodeRex_rexPrefix (w r x b : Bool) :
    decodeRex (rexPrefix w r x b) = some ⟨w, r, x, b⟩ := by
  cases w <;> cases r <;> cases x <;> cases b <;> decide

theorem rexPrefix_ne (w r x b : Bool) : rexPrefix w r x b ≠ 0x66 := by
  cases w <;> cases r <;> cases x <;> cases b <;> decide

/-- A byte that is no prefix. -/
def IsOpcode (b : UInt8) : Prop := b ≠ 0x66 ∧ decodeRex b = none

/-- Prefixes, in the order the writers write them, are read back. -/
theorem decodePrefixes_eq (p : Bool) (r : Option Rex) {b : UInt8} (hb : IsOpcode b)
    (rest : List UInt8) :
    decodePrefixes ((if p then [0x66] else []) ++ rexBytes r ++ b :: rest) =
      (⟨p, r⟩, b :: rest) := by
  have hopt (p : Bool) : decodeRexOpt p (rexBytes r ++ b :: rest) = (⟨p, r⟩, b :: rest) := by
    cases r with
    | none => simp [rexBytes, decodeRexOpt, hb.2]
    | some r => simp [rexBytes, decodeRexOpt]
  cases p with
  | true =>
    simp only [ite_true, List.cons_append, List.nil_append]
    rw [decodePrefixes, if_pos rfl, hopt]
  | false =>
    simp only [Bool.false_eq_true, ite_false, List.nil_append]
    cases r with
    | none =>
      rw [← hopt]
      simp only [rexBytes, List.nil_append, decodePrefixes, hb.1, ite_false]
    | some r =>
      rw [← hopt]
      simp only [rexBytes, List.cons_append, decodePrefixes, rexPrefix_ne, ite_false]

/-- `opcode` is read as `form`. -/
structure Opcode (opcode : List UInt8) (form : Form) : Prop where
  isOpcode : ∃ b bs, opcode = b :: bs ∧ IsOpcode b
  decode : ∀ rest, decodeOpcode (opcode ++ rest) = some (form, rest)

theorem decode_eq (p : Bool) (r : Option Rex) {opcode : List UInt8} {form : Form}
    (h : Opcode opcode form) (rest : List UInt8) :
    decode ((if p then [0x66] else []) ++ rexBytes r ++ opcode ++ rest) =
      decodeForm ⟨p, r⟩ rest form := by
  obtain ⟨b, bs, rfl, hb⟩ := h.isOpcode
  have hd := h.decode rest
  simp only [List.cons_append] at hd
  simp only [decode, List.append_assoc, List.cons_append]
  rw [← List.append_assoc, decodePrefixes_eq p r hb]
  simp only [hd]
  rfl

theorem opSizePrefix_eq (size : Size) :
    opSizePrefix size = if decide (size = .b2) then [0x66] else [] := by
  simp [opSizePrefix]

/-! ## ModRM -/

/-- The register form. -/
theorem decode_regForm {p w no8h : Bool} {pre opcode : List UInt8} {form : Form}
    (hp : pre = if p then [0x66] else []) (h : Opcode opcode form) (reg rm : Nat)
    (rest : List UInt8) :
    decode (regForm pre w no8h opcode reg rm ++ rest) =
      decodeForm ⟨p, rexOfRegs w no8h reg rm⟩ (modrmByte 3 reg rm :: rest) form := by
  subst hp
  rw [regForm, rexRegs_eq, List.append_assoc, decode_eq p _ h]
  rfl

theorem decodeModrm_reg (p : Prefixes) (reg rm : Nat) (rest : List UInt8) :
    decodeModrm p (modrmByte 3 reg rm :: rest) = some (reg % 8, .reg (rm % 8), rest) := by
  simp only [decodeModrm, readLe_one, Option.bind_eq_bind, Option.bind_some, modrmByte_mod,
    modrmByte_reg, modrmByte_rm]
  rfl

/-- What the bytes of a memory operand have to satisfy. -/
structure AddrBytes.For (a : AddrBytes) (op : MemOp) : Prop where
  decodes : Decodes a op
  mod_lt : a.mod < 3
  rm_lt : a.rm < 8
  disp : ∃ d, a.writeDisp = some d ∧ d.toBytes = a.dispBytes

theorem decodeModrm_mem {a : AddrBytes} {op : MemOp} (ha : a.For op) (p w no8h : Bool) (reg : Nat)
    (rest : List UInt8) :
    decodeModrm ⟨p, rexOfMem w no8h reg a⟩ (modrmByte a.mod reg a.rm :: (a.tail ++ rest)) =
      some (reg % 8, .mem op, rest) := by
  have hm := ha.mod_lt
  have hmod : a.mod ≠ 3 := by omega
  have hmod' : a.mod % 4 = a.mod := by omega
  have hrm : a.rm % 8 = a.rm := Nat.mod_eq_of_lt ha.rm_lt
  simp only [decodeModrm, readLe_one, Option.bind_eq_bind, Option.bind_some, modrmByte_mod,
    modrmByte_reg, modrmByte_rm, hmod', hmod, ite_false, hrm, bits_rexOfMem, ha.decodes rest]
  rfl

/-- The memory form. -/
theorem decode_memForm {p w no8h : Bool} {pre opcode : List UInt8} {form : Form} {a : AddrBytes}
    (hp : pre = if p then [0x66] else []) (h : Opcode opcode form) (reg : Nat)
    (rest : List UInt8) :
    decode (memHead pre w no8h opcode reg a ++ a.dispBytes ++ rest) =
      decodeForm ⟨p, rexOfMem w no8h reg a⟩ (modrmByte a.mod reg a.rm :: (a.tail ++ rest))
        form := by
  subst hp
  have hsplit : memHead (if p then [0x66] else []) w no8h opcode reg a ++ a.dispBytes ++ rest =
      (if p then [0x66] else []) ++ rexBytes (rexOfMem w no8h reg a) ++ opcode ++
        (modrmByte a.mod reg a.rm :: (a.tail ++ rest)) := by
    simp [memHead, rexMem_eq, AddrBytes.tail]
  rw [hsplit, decode_eq p _ h]

/-! ## Operands -/

theorem regOp_lo {p : Prefixes} {size : Size} {g : Gpr} {ext : Bool}
    (hext : ext = decide (7 < g.val)) (h8 : size = .b1 → p.rex = none → g.val < 4) : p.regOp size ext (g.val % 8) = .lo g := by
  subst hext
  rw [Prefixes.regOp, if_neg, decodeReg_val]
  rintro ⟨hs, hr, h4⟩
  have := h8 hs hr
  omega

/-- The operand size comes back from the prefixes and the opcode's size bit. -/
theorem size_eq {p : Prefixes} {size : Size} (hp : p.opSize = decide (size = .b2))
    (hw : p.bits.w = decide (size = .b8)) : p.size (decide (size ≠ .b1)) = size := by
  cases size <;> simp [Prefixes.size, hp, hw]

/-- A REX prefix is missing only if no byte operand needs it. -/
theorem val_lt_of_rexOfRegs {w no8h : Bool} {reg rm : Nat} {g : Gpr} {size : Size}
    (h : rexOfRegs w no8h reg rm = none) (hg : g.val = reg ∨ g.val = rm)
    (hs : size = .b1) (h8 : is8h size g = true → no8h = true) : g.val < 4 := by
  unfold rexOfRegs at h
  split at h
  · cases h
  · rename_i hn
    simp only [Bool.or_eq_true, decide_eq_true_eq, not_or] at hn
    split at h
    · cases h
    · rename_i hno
      by_contra hge
      apply hno
      apply h8
      subst hs
      have : g.val < 8 := by omega
      revert hge this
      cases g <;> decide

theorem val_lt_of_rexOfMem {w no8h : Bool} {reg : Nat} {a : AddrBytes} {g : Gpr} {size : Size}
    (h : rexOfMem w no8h reg a = none) (hg : g.val = reg) (hs : size = .b1)
    (h8 : is8h size g = true → no8h = true) : g.val < 4 := by
  have hregs : rexOfRegs w no8h reg 0 = none := ?_
  · exact val_lt_of_rexOfRegs hregs (.inl hg) hs h8
  unfold rexOfMem at h
  unfold rexOfRegs
  split at h
  · cases h
  · rename_i hn
    simp only [Bool.or_eq_true, decide_eq_true_eq, not_or] at hn
    rw [if_neg (by simp [hn.1.1.1, hn.1.1.2])]
    split at h
    · cases h
    · rename_i hno
      rw [if_neg hno]

end Nibble.X64
