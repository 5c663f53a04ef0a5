import Nibble.XIR.Division

/-!
# Which divisions are right

With addresses that lower, a division is right exactly if its type is larger
than a byte: `_ax` is extended then, while a byte is divided with whatever `ah`
held before, and with most values of `ah` the processor faults.
-/

namespace Nibble.XIR

open Nibble.IR hiding Instr
open Nibble.Lib
open Nibble.X64 (Size RaxOp)

/-! ## Low parts -/

theorem bits_pos (s : Size) : 0 < s.bits := by cases s <;> decide

theorem lowBits_setReg (s : Size) (old : Word) (n : Nat) :
    lowBits s (s.setReg old n) = BitVec.ofNat s.bits n := by
  apply BitVec.eq_of_toNat_eq
  rw [lowBits, BitVec.toNat_setWidth, BitVec.toNat_ofNat]
  exact s.low_setReg old n

theorem lowBits_setReg_toNat (s : Size) (old : Word) (x : BitVec s.bits) :
    lowBits s (s.setReg old x.toNat) = x := by
  rw [lowBits_setReg, BitVec.ofNat_toNat, BitVec.setWidth_eq]

theorem ofNat_toNat_word (s : Size) (w : Word) : BitVec.ofNat s.bits w.toNat = lowBits s w :=
  BitVec.ofNat_toNat ..

theorem setReg_self (v : XReg → Word) (s : Size) (d : XReg) (n : Nat) :
    setReg v s d n d = s.setReg (v d) n := Function.update_self ..

theorem setReg_other {z d : XReg} (h : z ≠ d) (v : XReg → Word) (s : Size) (n : Nat) :
    setReg v s d n z = v z := Function.update_of_ne h ..

/-- A write to a byte leaves the bytes above it. -/
theorem high_setReg_b1 (old : Word) (n : Nat) :
    lowBits .b1 (Size.setReg .b1 old n >>> 8) = lowBits .b1 (old >>> 8) := by
  apply BitVec.eq_of_toNat_eq
  have h := Size.toNat_setLow .b1 old n
  simp only [lowBits, BitVec.toNat_setWidth, BitVec.toNat_ushiftRight, Nat.shiftRight_eq_div_pow]
  simp only [Size.bits, Size.bytes, Nat.mul_one] at h ⊢
  rw [show Size.setReg .b1 old n = Size.setLow .b1 old n from rfl, h]
  omega

theorem low_of_fits {c : Word} (h : immFits4bytes c .b8 = true) (old : Word) :
    lowBits .b8 (Size.setReg .b4 old c.toNat) = lowBits .b8 c := by
  have hlt : c.toNat < 2 ^ 32 := by
    have h' : c.toNat ≤ 0xFFFFFFFF := by simpa [immFits4bytes, Size.bytes] using h
    omega
  rw [X64.setReg_short old hlt, lowBits_setReg, ofNat_toNat_word]

/-! ## Runs -/

section

variable {env : Env} {load : Word → Option Word} {v v' : XReg → Word} {l l' : List Instr}

theorem run_append : run env load (l ++ l') v = (run env load l v).bind (run env load l') := by
  simp only [run, List.foldlM_append, Option.bind_eq_bind]
  rfl

theorem run_single (i : Instr) : run env load [i] v = exec env load v i := by
  simp [run]

theorem run_cons (i : Instr) : run env load (i :: l) v =
    (exec env load v i).bind (run env load l) := by
  simp only [run, List.foldlM_cons, Option.bind_eq_bind]
  rfl

end

section

variable {fr : Frame} {objs : List MemObj} {Y : XBuilder} {ρ : Regs} {op : DivOp} {a b o : OpRIA}
  {env : Env} {load : Word → Option Word} {regs : Reg → Word} {v v' : XReg → Word} {size : Size}
  {x : Word} {signed : Bool}

/-- New registers do not matter to the IR. -/
theorem Agree.congr (ha : Agree fr Y env regs v) (h : ∀ r z, Y.vreg r = some z → v' z = v z)
    (hrbp : v' Y.lregRbp = v Y.lregRbp) : Agree fr Y env regs v' :=
  ⟨fun r z hz => (h r z hz).trans (ha.regs r z hz),
    fun s hs => by rw [hrbp]; exact ha.locals s hs, fun i => by rw [hrbp]; exact ha.anons i⟩

/-- The memory operands have addresses that lower. -/
def Lowers (fr : Frame) (objs : List MemObj) (o : OpRIA) : Prop :=
  ∀ src, OpRIA.addr src = o → lowers fr objs src = true

/-- `z` is none of the new registers. -/
def Old (ρ : Regs) (op : DivOp) (z : XReg) : Prop := z ∉ ρ.scratch ++ op.dsts.map ρ.reg

theorem Answers.old_vreg (h : Answers fr objs Y ρ op a b) {r : Reg} {z : XReg}
    (hz : Y.vreg r = some z) : Old ρ op z := fun hmem => (h.new z hmem).2 r hz

theorem Answers.old_rbp (h : Answers fr objs Y ρ op a b) : Old ρ op Y.lregRbp :=
  fun hmem => (h.new _ hmem).1 rfl

theorem Answers.agree (h : Answers fr objs Y ρ op a b) (ha : Agree fr Y env regs v)
    (hv : ∀ z, Old ρ op z → v' z = v z) : Agree fr Y env regs v' :=
  ha.congr (fun _ z hz => hv z (h.old_vreg hz)) (hv _ h.old_rbp)

/-- An address that lowers takes no code and is the address. -/
theorem Answers.address (h : Answers fr objs Y ρ op a b) (ho : o = a ∨ o = b)
    (hlow : Lowers fr objs o) {src : MemAddr} (hsrc : OpRIA.addr src = o)
    (ha : Agree fr Y env regs v) : ρ.addrCode src = [] ∧
      addrOf env objs regs src = some ((ρ.addr src).2.eval env v) := by
  obtain ⟨X, X', hget, hcode, hext⟩ := h.addr src (by rw [hsrc]; exact ho)
  obtain ⟨c, hc, hcl⟩ := lowers_inv (hlow src hsrc)
  obtain ⟨l, hl, hf⟩ := getAddr_form hc hget
  obtain ⟨hnil, heval⟩ := (hf.ext hext).right hcl ha
  constructor
  · rw [Regs.addrCode, hcode, hl.drop, hnil]
    rfl
  · rw [addrOf_chain, hc, Option.map_some, heval]

variable (size) in
/-- Loading an operand: the register has its value, and a byte leaves what is above it. -/
theorem Answers.run_loadOp (h : Answers fr objs Y ρ op a b) (ho : o = a ∨ o = b)
    (hlow : Lowers fr objs o) (ha : Agree fr Y env regs v)
    (hx : operandVal env load objs regs o = some x) (d : XReg) :
    ∃ w, run env load (ρ.loadOp size d o) v = some (Function.update v d w) ∧
      lowBits size w = lowBits size x ∧
      (size = .b1 → lowBits .b1 (w >>> 8) = lowBits .b1 (v d >>> 8)) := by
  cases o with
  | reg r =>
    cases hx
    rw [← ha.regs r _ (h.reg r ho)]
    refine ⟨_, run_single _, ?_, ?_⟩
    · rw [lowBits_setReg, ofNat_toNat_word]
    · rintro rfl
      exact high_setReg_b1 ..
  | imm c =>
    cases hx
    refine ⟨_, run_single _, ?_, ?_⟩
    · unfold Regs.loadSize
      split
      · case isTrue hfit =>
        obtain ⟨rfl, hfit⟩ : size = .b8 ∧ immFits4bytes x size = true := by simpa using hfit
        exact low_of_fits hfit _
      · rw [lowBits_setReg, ofNat_toNat_word]
    · rintro rfl
      exact high_setReg_b1 ..
  | addr src =>
    obtain ⟨hcode, haddr⟩ := h.address ho hlow rfl ha
    have hload : load ((ρ.addr src).2.eval env v) = some x := by
      rw [operandVal, haddr] at hx
      exact hx
    refine ⟨size.setReg (v d) x.toNat, ?_, ?_, ?_⟩
    · rw [Regs.loadOp, hcode, List.nil_append, run_single, exec, hload]
      rfl
    · rw [lowBits_setReg, ofNat_toNat_word]
    · rintro rfl
      exact high_setReg_b1 ..

variable (size signed) in
/-- Dividing by an operand: the division starts from a state that differs in the register of an
immediate only. -/
theorem Answers.run_raxOperand (h : Answers fr objs Y ρ op a b) (hlow : Lowers fr objs b)
    (ha : Agree fr Y env regs v) (hx : operandVal env load objs regs b = some x)
    (dx : Option XReg) :
    ∃ u y, run env load (ρ.raxOperand (if signed then .idiv else .div) size dx b) v =
        divideBy signed size dx (ρ.phys .rax) y u ∧
      lowBits size y = lowBits size x ∧ ∀ z, z ≠ ρ.next → u z = v z := by
  cases b with
  | reg r =>
    cases hx
    refine ⟨v, v (ρ.reg r), ?_, ?_, fun _ _ => rfl⟩
    · rw [Regs.raxOperand, run_single]
      cases signed <;> rfl
    · rw [ha.regs r _ (h.reg r (.inr rfl))]
  | imm c =>
    cases hx
    refine ⟨setReg v size ρ.next x.toNat, setReg v size ρ.next x.toNat ρ.next, ?_, ?_,
      fun z hz => setReg_other hz ..⟩
    · rw [Regs.raxOperand, run_cons, exec, Option.bind_some, run_single]
      cases signed <;> rfl
    · rw [setReg_self, lowBits_setReg, ofNat_toNat_word]
  | addr src =>
    obtain ⟨hcode, haddr⟩ := h.address (.inr rfl) hlow rfl ha
    have hload : load ((ρ.addr src).2.eval env v) = some x := by
      rw [operandVal, haddr] at hx
      exact hx
    refine ⟨v, x, ?_, rfl, fun _ _ => rfl⟩
    rw [Regs.raxOperand, hcode, List.nil_append, run_single]
    cases signed
    · simp [exec, hload]
    · simp [exec, hload]

/-! ## Larger than a byte -/

theorem Answers.scratch_ne (h : Answers fr objs Y ρ op a b) :
    ρ.phys .rax ≠ ρ.phys .rdx ∧ ρ.phys .rax ≠ ρ.next ∧ ρ.phys .rdx ≠ ρ.next := by
  have hnd := (List.nodup_append.mp h.nodup).1
  simp only [Regs.scratch, List.nodup_cons, List.mem_cons, List.not_mem_nil, or_false,
    not_or] at hnd
  exact ⟨hnd.1.1, hnd.1.2, hnd.2.1⟩

theorem old_of_ne {z : XReg} (hz : Old ρ op z) :
    z ≠ ρ.phys .rax ∧ z ≠ ρ.phys .rdx ∧ z ≠ ρ.next := by
  simp only [Old, Regs.scratch, List.mem_append, List.mem_cons, List.not_mem_nil, or_false,
    not_or] at hz
  exact hz.1

variable (ρ env load signed v) in
/-- Extending `_ax` to `_dx`. -/
theorem run_extendAx (hs : size ≠ .b1) :
    ∃ w, run env load (ρ.extendAx signed size) v = some (Function.update v (ρ.phys .rdx) w) ∧
      lowBits size w = extension signed (lowBits size (v (ρ.phys .rax))) := by
  unfold Regs.extendAx
  rw [if_neg hs]
  cases signed with
  | true =>
    refine ⟨_, run_single _, ?_⟩
    rw [lowBits_setReg_toNat]
  | false =>
    refine ⟨v (ρ.phys .rdx) ^^^ v (ρ.phys .rdx), run_single _, ?_⟩
    rw [BitVec.xor_self]
    simp [lowBits, extension]

/-- After a division of a type larger than a byte, `_ax` has the quotient and `_dx` the
remainder. -/
theorem Answers.run_divide (h : Answers fr objs Y ρ op a b) (hs : size ≠ .b1)
    (hla : Lowers fr objs a) (hlb : Lowers fr objs b) (ha : Agree fr Y env regs v) {y : Word}
    (hx : operandVal env load objs regs a = some x) (hy : operandVal env load objs regs b = some y)
    (hd : Divides signed (lowBits size x) (lowBits size y)) :
    ∃ u, run env load (ρ.divide signed size a b) v = some u ∧
      lowBits size (u (ρ.phys .rax)) = quotient signed (lowBits size x) (lowBits size y) ∧
      lowBits size (u (ρ.phys .rdx)) = remainder signed (lowBits size x) (lowBits size y) ∧
      ∀ z, z ≠ ρ.phys .rax → z ≠ ρ.phys .rdx → z ≠ ρ.next → u z = v z := by
  obtain ⟨had, han, hdn⟩ := h.scratch_ne
  obtain ⟨w, hload, hw, -⟩ := h.run_loadOp size (.inl rfl) hla ha hx (ρ.phys .rax)
  obtain ⟨e, hext, he⟩ := run_extendAx ρ env load (Function.update v (ρ.phys .rax) w) signed hs
  have hag : Agree fr Y env regs
      (Function.update (Function.update v (ρ.phys .rax) w) (ρ.phys .rdx) e) := by
    refine h.agree ha fun z hz => ?_
    obtain ⟨hza, hzd, -⟩ := old_of_ne hz
    rw [Function.update_of_ne hzd, Function.update_of_ne hza]
  obtain ⟨u, d, hrax, hdlow, hu⟩ := h.run_raxOperand size signed hlb hag hy (ρ.dx size)
  rw [Function.update_self, hw] at he
  have hudx : lowBits size (u (ρ.phys .rdx)) = extension signed (lowBits size x) := by
    rw [hu _ hdn, Function.update_self, he]
  have huax : lowBits size (u (ρ.phys .rax)) = lowBits size x := by
    rw [hu _ han, Function.update_of_ne had, Function.update_self, hw]
  have hdiv : divideBy signed size (ρ.dx size) (ρ.phys .rax) d u =
      some (setReg (setReg u size (ρ.phys .rax)
        (quotient signed (lowBits size x) (lowBits size y)).toNat) size (ρ.phys .rdx)
        (remainder signed (lowBits size x) (lowBits size y)).toNat) := by
    rw [show ρ.dx size = some (ρ.phys .rdx) from if_neg hs, divideBy, dividendHigh, hudx, huax,
      hdlow, wideDiv_extension (bits_pos size) hd]
    rfl
  have hrun : run env load (ρ.divide signed size a b) v =
      divideBy signed size (ρ.dx size) (ρ.phys .rax) d u := by
    rw [Regs.divide, run_append, run_append, hload, Option.bind_some, hext, Option.bind_some, hrax]
  refine ⟨_, hrun.trans hdiv, ?_, ?_, fun z hza hzd hzn => ?_⟩
  · rw [setReg_other had, setReg_self, lowBits_setReg_toNat]
  · rw [setReg_self, lowBits_setReg_toNat]
  · rw [setReg_other hzd, setReg_other hza, hu z hzn, Function.update_of_ne hzd,
      Function.update_of_ne hza]

/-- A destination is none of the registers of the division. -/
theorem Answers.dst_ne (h : Answers fr objs Y ρ op a b) {r : Reg} (hr : r ∈ op.dsts) :
    ρ.reg r ≠ ρ.phys .rax ∧ ρ.reg r ≠ ρ.phys .rdx ∧ ρ.reg r ≠ ρ.next := by
  have hdisj := (List.nodup_append.mp h.nodup).2.2
  have hmem : ρ.reg r ∈ op.dsts.map ρ.reg := List.mem_map_of_mem hr
  exact ⟨(hdisj _ (by simp [Regs.scratch]) _ hmem).symm,
    (hdisj _ (by simp [Regs.scratch]) _ hmem).symm, (hdisj _ (by simp [Regs.scratch]) _ hmem).symm⟩

theorem Old.dst_ne {z : XReg} (hz : Old ρ op z) {r : Reg} (hr : r ∈ op.dsts) : z ≠ ρ.reg r :=
  fun he => hz (List.mem_append_right _ (he ▸ List.mem_map_of_mem hr))

/-- The code of a division is the division and the moves of its results. -/
theorem DivOp.convert_eq (hs : size ≠ .b1) : op.convert ρ signed size a b =
    ρ.divide signed size a b ++ match op with
      | .div r => [.movRR size (ρ.reg r) (ρ.phys .rax)]
      | .mod r => [.movRR size (ρ.reg r) (ρ.phys .rdx)]
      | .divMod q r => [.movRR size (ρ.reg r) (ρ.phys .rdx), .movRR size (ρ.reg q) (ρ.phys .rax)] := by
  cases op <;> simp [convert, Regs.convertIntDiv, Regs.convertMod, Regs.convertDivMod, Regs.movRem,
    hs]

theorem Answers.keeps (h : Answers fr objs Y ρ op a b) (hv : ∀ z, Old ρ op z → v' z = v z) :
    (∀ r z, Y.vreg r = some z → v' z = v z) ∧ v' Y.lregRbp = v Y.lregRbp :=
  ⟨fun _ z hz => hv z (h.old_vreg hz), hv _ h.old_rbp⟩

/-- The move of a result to its destination. -/
theorem lowBits_moved (v : XReg → Word) (d x : XReg) :
    lowBits size (setReg v size d (v x).toNat d) = lowBits size (v x) := by
  rw [setReg_self, lowBits_setReg, ofNat_toNat_word]

theorem dividesRight_of_ne (h : Answers fr objs Y ρ op a b) (hs : size ≠ .b1)
    (hla : Lowers fr objs a) (hlb : Lowers fr objs b) :
    DividesRight fr objs Y ρ op signed size a b := by
  intro env load regs v x y ha hx hy hd
  obtain ⟨u, hrun, hq, hr, hu⟩ := h.run_divide hs hla hlb ha hx hy hd
  have hold : ∀ z, Old ρ op z → u z = v z := fun z hz => by
    obtain ⟨hza, hzd, hzn⟩ := old_of_ne hz
    exact hu z hza hzd hzn
  rw [DivOp.convert_eq hs, run_append, hrun, Option.bind_some]
  -- every destination is written once, from a register that no destination is
  cases op with
  | div r =>
    refine ⟨_, run_single _, (lowBits_moved ..).trans hq, h.keeps fun z hz => ?_⟩
    rw [setReg_other (hz.dst_ne (by simp [DivOp.dsts])), hold z hz]
  | mod r =>
    refine ⟨_, run_single _, (lowBits_moved ..).trans hr, h.keeps fun z hz => ?_⟩
    rw [setReg_other (hz.dst_ne (by simp [DivOp.dsts])), hold z hz]
  | divMod q r =>
    have hqr : ρ.reg q ≠ ρ.reg r := by
      have hnd := (List.nodup_append.mp h.nodup).2.1
      simpa [DivOp.dsts] using hnd
    have hra := (h.dst_ne (show r ∈ (DivOp.divMod q r).dsts by simp [DivOp.dsts])).1
    refine ⟨setReg (setReg u size (ρ.reg r) (u (ρ.phys .rdx)).toNat) size (ρ.reg q)
      (setReg u size (ρ.reg r) (u (ρ.phys .rdx)).toNat (ρ.phys .rax)).toNat, ?_, ⟨?_, ?_⟩,
      h.keeps fun z hz => ?_⟩
    · rw [run_cons, exec, Option.bind_some, run_single]
      rfl
    · rw [lowBits_moved, setReg_other hra.symm, hq]
    · rw [setReg_other hqr.symm, lowBits_moved, hr]
    · rw [setReg_other (hz.dst_ne (by simp [DivOp.dsts])),
        setReg_other (hz.dst_ne (by simp [DivOp.dsts])), hold z hz]

/-! ## Bytes -/

/-- In a byte division `ah` keeps what it held. -/
theorem Answers.run_divide_byte (h : Answers fr objs Y ρ op a b) (hla : Lowers fr objs a)
    (hlb : Lowers fr objs b) (ha : Agree fr Y env regs v) {y : Word}
    (hx : operandVal env load objs regs a = some x) (hy : operandVal env load objs regs b = some y)
    (hfault : wideDiv signed (lowBits .b1 (v (ρ.phys .rax) >>> 8)) (lowBits .b1 x)
      (lowBits .b1 y) = none) :
    run env load (ρ.divide signed .b1 a b) v = none := by
  obtain ⟨had, han, hdn⟩ := h.scratch_ne
  obtain ⟨w, hload, hw, hhigh⟩ := h.run_loadOp .b1 (.inl rfl) hla ha hx (ρ.phys .rax)
  have hag : Agree fr Y env regs (Function.update v (ρ.phys .rax) w) :=
    h.agree ha fun z hz => Function.update_of_ne (old_of_ne hz).1 ..
  obtain ⟨u, d, hrax, hdlow, hu⟩ := h.run_raxOperand .b1 signed hlb hag hy none
  have huax : u (ρ.phys .rax) = w := by rw [hu _ han, Function.update_self]
  have hnone : divideBy signed .b1 none (ρ.phys .rax) d u = none := by
    have hh : lowBits .b1 (w >>> Size.bits .b1) = lowBits .b1 (v (ρ.phys .rax) >>> 8) := hhigh rfl
    rw [divideBy, dividendHigh, huax, hh, hw, hdlow, hfault]
    rfl
  have hext : ρ.extendAx signed .b1 = [] := rfl
  rw [Regs.divide, hext, List.append_nil, run_append, hload, Option.bind_some]
  exact hrax.trans hnone

/-- Every division begins with the division itself. -/
theorem DivOp.convert_prefix : ∃ l, op.convert ρ signed size a b = ρ.divide signed size a b ++ l := by
  cases op with
  | div r => exact ⟨_, rfl⟩
  | mod r => exact ⟨_, rfl⟩
  | divMod q r => exact ⟨_, rfl⟩

/-- Some values of the operands have a quotient; constants may have none. -/
def Divisible (fr : Frame) (objs : List MemObj) (Y : XBuilder) (signed : Bool) (size : Size)
    (a b : OpRIA) : Prop :=
  ∃ env load regs v x y, Agree fr Y env regs v ∧
    operandVal env load objs regs a = some x ∧ operandVal env load objs regs b = some y ∧
    Divides signed (lowBits size x) (lowBits size y)

theorem not_dividesRight_byte (h : Answers fr objs Y ρ op a b) (hla : Lowers fr objs a)
    (hlb : Lowers fr objs b) (hval : Divisible fr objs Y signed .b1 a b) :
    ¬ DividesRight fr objs Y ρ op signed .b1 a b := by
  intro hright
  obtain ⟨env, load, regs, v, x, y, ha, hx, hy, hd⟩ := hval
  obtain ⟨hi, hnone⟩ := exists_wideDiv_none (w := Size.bits .b1) signed (by decide)
  -- the state in which `ah` holds `hi`
  have hah : lowBits .b1
      (Function.update v (ρ.phys .rax) (hi.setWidth 64 <<< 8) (ρ.phys .rax) >>> 8) = hi := by
    have hlt : hi.toNat < 2 ^ 8 := hi.isLt
    apply BitVec.eq_of_toNat_eq
    rw [Function.update_self, lowBits, BitVec.toNat_setWidth, BitVec.toNat_ushiftRight,
      BitVec.toNat_shiftLeft, BitVec.toNat_setWidth, Nat.shiftRight_eq_div_pow, Nat.shiftLeft_eq]
    simp only [Size.bits, Size.bytes]
    omega
  have hag : Agree fr Y env regs (Function.update v (ρ.phys .rax) (hi.setWidth 64 <<< 8)) :=
    h.agree ha fun z hz => Function.update_of_ne (old_of_ne hz).1 ..
  obtain ⟨v', hrun, -⟩ := hright env load regs _ x y hag hx hy hd
  obtain ⟨l, hl⟩ := @DivOp.convert_prefix ρ op a b .b1 signed
  rw [hl, run_append, h.run_divide_byte hla hlb hag hx hy (by rw [hah]; exact hnone _ _)] at hrun
  cases hrun

/-- Nor is `ah` read where the remainder goes to a register with a REX prefix: the bytes are those
of a move from `spl`. -/
theorem genCode_movRem {dst : X64.Gpr} (h : 7 < dst.val) :
    X64.genCode (.movRR true .b1 dst .rax) = X64.genCode (.movRR false .b1 dst .rsp) := by
  cases dst <;> revert h <;> decide

/-- Division, remainder and both are right exactly for the types larger than a byte. -/
theorem dividesRight_iff (h : Answers fr objs Y ρ op a b) (hla : Lowers fr objs a)
    (hlb : Lowers fr objs b) (hval : Divisible fr objs Y signed size a b) :
    DividesRight fr objs Y ρ op signed size a b ↔ size ≠ .b1 := by
  constructor
  · rintro hright rfl
    exact not_dividesRight_byte h hla hlb hval hright
  · intro hs
    exact dividesRight_of_ne h hs hla hlb

end

/-! ## A division by ten -/

/-- The builder after it has met register 0. -/
def divBuilder : XBuilder := XBuilder.start.mapFresh 0

/-- Register 0 is in register 1, the fixed registers are in 2 and 3, a constant is in 4. -/
def divRegs : Regs where
  reg r := r + 1
  addr a := ([], .sibd ⟨some 1, none, a.disp, 0⟩)
  phys g := if g = .rax then 2 else 3
  next := 4

/-- `x / 10`, where `x` is eight bytes behind what register 0 points to. -/
def wordAt8 : OpRIA := .addr ⟨.reg 0, none, 0, 8⟩

theorem vreg_divBuilder {r : Reg} {z : XReg} (h : divBuilder.vreg r = some z) : z = 1 := by
  by_cases hr : r = 0
  · subst hr
    have hself : divBuilder.vreg 0 = some 1 := vreg_mapFresh_self 0
    exact Option.some.inj (h.symm.trans hself)
  · rw [divBuilder, vreg_mapFresh_other hr] at h
    cases h

theorem answers_div : Answers oneLocal [] divBuilder divRegs (.div 4) wordAt8 (.imm 10) where
  reg := by rintro r (h | h) <;> cases h
  addr := by
    rintro src (h | h)
    · cases h
      exact ⟨.start, divBuilder, rfl, rfl, .refl _⟩
    · cases h
  nodup := by decide
  new z hz := by
    have hz' : z ≠ 0 ∧ z ≠ 1 := by
      revert z
      decide
    exact ⟨hz'.1, fun r hr => hz'.2 (vreg_divBuilder hr)⟩

theorem lowers_wordAt8 : Lowers oneLocal [] wordAt8 := by
  rintro src h
  cases h
  decide

theorem lowers_imm (c : Word) : Lowers oneLocal [] (.imm c) := by
  rintro src h
  cases h

/-- All registers zero. -/
theorem agree_zero : Agree oneLocal divBuilder (frameEnv oneLocal) (fun _ => 0) (fun _ => 0) where
  regs _ _ _ := rfl
  locals s hs := by simp [frameEnv, hs]
  anons i := by simp [frameEnv]

theorem divisible_div (signed : Bool) (size : Size) :
    Divisible oneLocal [] divBuilder signed size wordAt8 (.imm 10) :=
  ⟨frameEnv oneLocal, fun _ => some 70, fun _ => 0, fun _ => 0, 70, 10, agree_zero, rfl, rfl, by
    cases size <;> decide, fun _ => .inr (by cases size <;> decide)⟩

theorem dividesRight_wordByTen :
    DividesRight oneLocal [] divBuilder divRegs (.div 4) true .b4 wordAt8 (.imm 10) :=
  (dividesRight_iff answers_div lowers_wordAt8 (lowers_imm 10) (divisible_div true .b4)).mpr
    (by decide)

/-- The byte 70 divided by ten with one in `ah`: the processor divides 326. -/
theorem not_dividesRight_byteByTen :
    ((run (frameEnv oneLocal) (fun _ => some 70)
      ((DivOp.div 4).convert divRegs false .b1 wordAt8 (.imm 10))
      (Function.update (fun _ => 0) 2 0x100)).map fun v => lowBits .b1 (v 5)) = some 32 ∧
    ¬ DividesRight oneLocal [] divBuilder divRegs (.div 4) false .b1 wordAt8 (.imm 10) :=
  ⟨by decide, not_dividesRight_byte answers_div lowers_wordAt8 (lowers_imm 10)
    (divisible_div false .b1)⟩

end Nibble.XIR
