import Nibble.X64.EmitCall
import Nibble.Lib.Arguments
import Nibble.Ast.Aggregate
import Mathlib.Data.Nat.Prime.Basic
import Mathlib.Tactic.IntervalCases

/-!
# The calling convention

Two walks over the parameters of a procedure: `XIR_convert_call_args` decides
where a call puts its arguments and `X64_assign_proc_param_offsets` where the
procedure takes them from. Both follow `Lib/Arguments.lean`, as long as the
offsets of arguments on the stack fit the displacement of an address.
-/

namespace Nibble.X64

open Nibble.XIR (ArgReg ArgSlot)
open Nibble.Lib

/-- `x64_linux_arg_int_regs` and `x64_linux_arg_flt_regs`. -/
def argRegs : RegClass → List ArgReg
  | .int => [⟨.int .rdi, by decide⟩, ⟨.int .rsi, by decide⟩, ⟨.int .rdx, by decide⟩,
      ⟨.int .rcx, by decide⟩, ⟨.int .r8, by decide⟩, ⟨.int .r9, by decide⟩]
  | .flt => [⟨.xmm 0, by decide⟩, ⟨.xmm 1, by decide⟩, ⟨.xmm 2, by decide⟩, ⟨.xmm 3, by decide⟩,
      ⟨.xmm 4, by decide⟩, ⟨.xmm 5, by decide⟩, ⟨.xmm 6, by decide⟩, ⟨.xmm 7, by decide⟩]

/-- The class of the register for a value that is not an object. -/
def primRegClass (t : Ty) : RegClass := if t.floatKind?.isSome then .flt else .int

/-- `arg_reg_indices`. -/
abbrev RegIndices := RegClass → Nat

def RegIndices.take (indices : RegIndices) (cls : RegClass) (n : Nat) : RegIndices :=
  fun k => if k = cls then indices k + n else indices k

/-- The argument registers of a class that are not taken; `rem_regs` is their number. -/
def RegIndices.remRegs (indices : RegIndices) (cls : RegClass) : List ArgReg :=
  (argRegs cls).drop (indices cls)

/-- The register for the address of a result that is returned in memory. -/
def retArgReg? (ret : Ty) : Option ArgReg :=
  if ret.isObjLike && isObjRetargLarge ret.size then (argRegs .int)[0]? else none

/-- `arg_int_reg_offset`, with no other register taken. -/
def callIndices (ret : Ty) : RegIndices
  | .int => if ret.isObjLike && isObjRetargLarge ret.size then 1 else 0
  | .flt => 0

section

variable (objRegClass : Ty → RegClass)

/-! ## The caller -/

/-- What `XIR_convert_call_args` carries along: the registers and `stack_info.size`. -/
structure ArgState where
  indices : RegIndices
  stackSize : BitVec 64

def ArgState.pushArg (s : ArgState) (t : Ty) : ArgSlot × ArgState :=
  (.stack (s.stackSize.setWidth 32),
    { s with stackSize := s.stackSize + alignUpMask (BitVec.ofNat 64 t.size) 8 })

/-- `XIR_place_prim_arg`. -/
def placePrimArg (s : ArgState) (t : Ty) : ArgSlot × ArgState :=
  match s.indices.remRegs (primRegClass t) with
  | [] => s.pushArg t
  | r :: _ => (.reg r, { s with indices := s.indices.take (primRegClass t) 1 })

/-- `XIR_place_obj_arg`. -/
def placeObjArg (s : ArgState) (t : Ty) : ArgSlot × ArgState :=
  match s.indices.remRegs (objRegClass t) with
  | [] => s.pushArg t
  | r0 :: rest =>
    if t.size ≤ 8 then (.reg r0, { s with indices := s.indices.take (objRegClass t) 1 })
    else match rest with
      | [] => s.pushArg t
      | r1 :: _ =>
        if t.size ≤ 16 then
          (.regs r0 r1, { s with indices := s.indices.take (objRegClass t) 2 })
        else s.pushArg t

def convertArgs : ArgState → List Ty → List ArgSlot
  | _, [] => []
  | s, t :: ts =>
    let (slot, s') := if t.isObjLike then placeObjArg objRegClass s t else placePrimArg s t
    slot :: convertArgs s' ts

/-- `XIR_convert_call_args`. -/
def convertCallArgs (ret : Ty) (args : List Ty) : List ArgSlot :=
  convertArgs objRegClass ⟨callIndices ret, 0⟩ args

/-- Where an argument is at the call, with offsets from `rsp` there. While objects are copied to
the stack, three words are pushed on it (`copyStructArg`). -/
def argLoc (t : Ty) : ArgSlot → Place ArgReg
  | .reg r => .regs [r]
  | .regs r0 r1 => .regs [r0, r1]
  | .stack spOffset =>
    if t.isObjLike then .stack ((spOffset + 24).toInt - 24) t.size
    else .stack spOffset.toInt t.size

/-- The places of what is passed, the address for the result first. -/
def callerLocs (ret : Ty) (params : List Ty) : List (Place ArgReg) :=
  (retArgReg? ret).toList.map (fun r => Place.regs [r]) ++
    List.zipWith argLoc params (convertCallArgs objRegClass ret params)

/-! ## The procedure -/

/-- `X64_Stack_Spill_State`, with the registers. -/
structure ParamState where
  indices : RegIndices
  spillSize : BitVec 64
  stackArgOffset : BitVec 64

/-- A parameter: `sym->as_var.offset` and the registers that the prologue stores in the frame. -/
structure Param where
  offset : BitVec 32
  spills : List ParamSpill

/-- `X64_spill_reg`. -/
def ParamState.spillReg (s : ParamState) (size align : Nat) (preg : ArgReg) :
    ParamSpill × ParamState :=
  let spillSize := alignUpMask (s.spillSize + BitVec.ofNat 64 size) (BitVec.ofNat 64 align)
  (⟨size, (-spillSize).setWidth 32, preg⟩, { s with spillSize })

/-- `X64_consume_stack_arg`. -/
def ParamState.consumeStackArg (s : ParamState) (t : Ty) : Param × ParamState :=
  let aligned := alignUpMask (s.stackArgOffset + BitVec.ofNat 64 t.size) (BitVec.ofNat 64 t.align)
  (⟨s.stackArgOffset.setWidth 32, []⟩, { s with stackArgOffset := alignUpMask aligned 8 })

def ParamState.takeRegs (s : ParamState) (cls : RegClass) (n : Nat) : ParamState :=
  { s with indices := s.indices.take cls n }

def assignPrimParam (s : ParamState) (t : Ty) : Param × ParamState :=
  match s.indices.remRegs (primRegClass t) with
  | r :: _ =>
    let (spill, s) := (s.takeRegs (primRegClass t) 1).spillReg t.size t.align r
    (⟨spill.offset, [spill]⟩, s)
  | [] => s.consumeStackArg t

def assignObjParam (s : ParamState) (t : Ty) : Param × ParamState :=
  match s.indices.remRegs (objRegClass t) with
  | [] => s.consumeStackArg t
  | lowReg :: rest =>
    if t.size ≤ 8 then
      let (spill, s) := (s.takeRegs (objRegClass t) 1).spillReg 8 t.align lowReg
      (⟨spill.offset, [spill]⟩, s)
    else match rest with
      | [] => s.consumeStackArg t
      | highReg :: _ =>
        if t.size ≤ 16 then
          let (high, s) := (s.takeRegs (objRegClass t) 2).spillReg 8 t.align highReg
          let (low, s) := s.spillReg 8 t.align lowReg
          (⟨low.offset, [high, low]⟩, s)
        else s.consumeStackArg t

def assignParams : ParamState → List Ty → List Param
  | _, [] => []
  | s, t :: ts =>
    let (param, s') := if t.isObjLike then assignObjParam objRegClass s t else assignPrimParam s t
    param :: assignParams s' ts

/-- The spilled address of the result, and the state after it. -/
def spillRetArg (ret : Ty) : Option ParamSpill × ParamState :=
  let s : ParamState := ⟨fun _ => 0, 0, 0x10⟩
  match retArgReg? ret with
  | none => (none, s)
  | some r =>
    let (spill, s) := s.spillReg 8 8 r
    (some spill, s.takeRegs .int 1)

/-- `X64_assign_proc_param_offsets`. -/
def assignProcParamOffsets (ret : Ty) (params : List Ty) : Option ParamSpill × List Param :=
  ((spillRetArg ret).1, assignParams objRegClass (spillRetArg ret).2 params)

/-- The register that is stored at the eight bytes of a parameter with this number. -/
def Param.regAt (p : Param) (i : Nat) : Option ArgReg :=
  (p.spills.find? fun s => s.offset == p.offset + BitVec.ofNat 32 (8 * i)).map (·.preg)

/-- Where a parameter is taken from, with offsets from `rsp` at the call: the return address and
`rbp` have been pushed since. -/
def paramLoc (t : Ty) (p : Param) : Place ArgReg :=
  if p.spills.isEmpty then .stack (p.offset.toInt - 16) t.size
  else .regs ((List.range p.spills.length).filterMap p.regAt)

def calleeLocs (ret : Ty) (params : List Ty) : List (Place ArgReg) :=
  (assignProcParamOffsets objRegClass ret params).1.toList.map (fun s => Place.regs [s.preg]) ++
    List.zipWith paramLoc params (assignProcParamOffsets objRegClass ret params).2

/-! ## The convention -/

/-- The register class that a value of the type is passed in. -/
def argClass (t : Ty) : RegClass := if t.isObjLike then objRegClass t else primRegClass t

/-- The registers for a value of the type: none for objects of more than sixteen bytes. -/
def argWant (t : Ty) : Nat :=
  if t.isObjLike then if t.size ≤ 8 then 1 else if t.size ≤ 16 then 2 else 0 else 1

def argDemand (t : Ty) : Demand RegClass := ⟨argClass objRegClass t, argWant t, t.size⟩

/-- The places of the arguments by the convention alone. -/
def argPlaces (ret : Ty) (params : List Ty) : List (Place ArgReg) :=
  placeArgs 8 argRegs ⟨callIndices ret, 0⟩ (params.map (argDemand objRegClass))

end

/-- An argument on the stack that begins where 32-bit offsets reach it. -/
def OffsetFits : Place ArgReg → Prop
  | .regs _ => True
  | .stack start _ => start + 24 < 2 ^ 31

instance : DecidablePred OffsetFits
  | .regs _ => .isTrue trivial
  | .stack start _ => inferInstanceAs (Decidable (start + 24 < 2 ^ 31))

theorem distinct_argRegs : DistinctRegs argRegs := by
  constructor
  · intro k
    cases k <;> decide
  · intro j k hjk
    cases j <;> cases k
    · exact absurd rfl hjk
    · exact List.disjoint_left.mpr (by decide)
    · exact List.disjoint_left.mpr (by decide)
    · exact absurd rfl hjk

/-! ## Alignments -/

theorem intKindSize_dvd (k : IntegerKind) : intKindSize k ∣ 8 := by
  cases k <;> decide

theorem align_dvd_of_isScalar {t : Ty} (h : t.isScalar = true) : t.align ∣ 8 := by
  cases t with
  | integer k => exact intKindSize_dvd k
  | enum id k => exact intKindSize_dvd k
  | float k => cases k <;> decide
  | ptr base => exact Nat.dvd_refl 8
  | proc id => exact Nat.dvd_refl 8
  | _ => cases h

/-- A completed struct has the largest alignment of its fields. -/
theorem align_dvd_completeStructType {fields : List (Ast.TypeAggregateField Ty)}
    (hne : fields ≠ []) (h : ∀ f ∈ fields, f.type.align ∣ 8) :
    (Ast.completeStructType Ast.tySizes fields).align.toNat ∣ 8 := by
  have hmax : Ast.maxAlign (Ast.items Ast.tySizes fields) ∣ 8 := by
    induction fields with
    | nil => exact absurd rfl hne
    | cons f fs ih =>
      obtain ⟨hf, hfs⟩ := List.forall_mem_cons.mp h
      have hle := Nat.le_of_dvd (by decide) hf
      have hf' : (Ast.tySizes.align f.type).toNat ∣ 8 := by
        rwa [Ast.tySizes, BitVec.toNat_ofNat, Nat.mod_eq_of_lt (by omega)]
      cases fs with
      | nil => simpa [Ast.maxAlign, Ast.items, Ast.TypeAggregateField.item] using hf'
      | cons g gs =>
        have hrest := ih (by simp) hfs
        have hcons : Ast.maxAlign (Ast.items Ast.tySizes (f :: g :: gs)) =
            max (Ast.tySizes.align f.type).toNat
              (Ast.maxAlign (Ast.items Ast.tySizes (g :: gs))) := rfl
        rw [hcons]
        rcases max_choice (Ast.tySizes.align f.type).toNat
          (Ast.maxAlign (Ast.items Ast.tySizes (g :: gs))) with hm | hm
        · rwa [hm]
        · rwa [hm]
  have halign : (Ast.completeStructType Ast.tySizes fields).align.toNat =
      Ast.maxAlign (Ast.items Ast.tySizes fields) := by
    have := Ast.placeFields_align Ast.tySizes fields 0 0 0
    rw [show (0 : BitVec 64).toNat = 0 from rfl, Nat.zero_max] at this
    exact this
  rwa [halign]

section

variable {objRegClass : Ty → RegClass} {t : Ty} {c : Cursor RegClass}

theorem setWidth_ofNat (n : Nat) :
    (BitVec.ofNat 64 n).setWidth 32 = BitVec.ofNat 32 n := by
  apply BitVec.eq_of_toNat_eq
  rw [BitVec.toNat_setWidth, BitVec.toNat_ofNat, BitVec.toNat_ofNat,
    Nat.mod_mod_of_dvd _ (by decide)]

theorem toInt_ofNat {n : Nat} (h : n < 2 ^ 31) : (BitVec.ofNat 32 n).toInt = n := by
  rw [BitVec.toInt_eq_toNat_of_lt] <;> rw [BitVec.toNat_ofNat, Nat.mod_eq_of_lt (by omega)]
  omega

/-! ## The caller follows it -/

structure ArgState.Sim (s : ArgState) (c : Cursor RegClass) : Prop where
  indices : s.indices = c.used
  size : s.stackSize = BitVec.ofNat 64 c.top

variable {s : ArgState}

theorem ArgState.Sim.pushArg (h : s.Sim c) (t : Ty) :
    (s.pushArg t).2.Sim (c.takeBytes 8 t.size) := by
  refine ⟨h.indices, ?_⟩
  have hup := alignUpMask_ofNat (show 3 < 64 by decide) t.size
  simp only [ArgState.pushArg, Cursor.takeBytes, h.size]
  exact (congrArg _ hup).trans (BitVec.ofNat_add ..).symm

theorem argLoc_pushArg (h : s.Sim c) (hfit : OffsetFits (.stack c.top t.size)) :
    argLoc t (s.pushArg t).1 = .stack c.top t.size := by
  have hreach : (c.top : Int) + 24 < 2 ^ 31 := hfit
  have hlt : c.top + 24 < 2 ^ 31 := by exact_mod_cast hreach
  have h24 : (BitVec.ofNat 32 c.top + 24).toInt = (c.top : Int) + 24 := by
    have := toInt_ofNat hlt
    rw [BitVec.ofNat_add] at this
    exact this
  simp only [ArgState.pushArg, argLoc, h.size, setWidth_ofNat]
  split
  · rw [h24, Int.add_sub_cancel]
  · rw [toInt_ofNat (by omega)]

/-- What one step of the caller is to do. -/
structure ArgFollows (t : Ty) (r : ArgSlot × ArgState) (p : Place ArgReg × Cursor RegClass) :
    Prop where
  sim : r.2.Sim p.2
  loc : OffsetFits p.1 → argLoc t r.1 = p.1

theorem ArgFollows.push {cls : RegClass} {n : Nat} (h : s.Sim c)
    (hshort : n = 0 ∨ (s.indices.remRegs cls).length < n) :
    ArgFollows t (s.pushArg t) (placeArg 8 argRegs c ⟨cls, n, t.size⟩) := by
  rw [RegIndices.remRegs, h.indices] at hshort
  rw [placeArg_stack hshort]
  exact ⟨h.pushArg t, argLoc_pushArg h⟩

theorem ArgFollows.takeReg {cls : RegClass} {r : ArgReg} {rest : List ArgReg} (h : s.Sim c)
    (hrem : s.indices.remRegs cls = r :: rest) :
    ArgFollows t (.reg r, { s with indices := s.indices.take cls 1 })
      (placeArg 8 argRegs c ⟨cls, 1, t.size⟩) := by
  rw [RegIndices.remRegs, h.indices] at hrem
  rw [placeArg_regs (show _ = [r] ++ rest from hrem) rfl Nat.one_pos]
  exact ⟨⟨by rw [h.indices]; rfl, h.size⟩, fun _ => rfl⟩

theorem ArgFollows.takeRegs {cls : RegClass} {r0 r1 : ArgReg} {rest : List ArgReg} (h : s.Sim c)
    (hrem : s.indices.remRegs cls = r0 :: r1 :: rest) :
    ArgFollows t (.regs r0 r1, { s with indices := s.indices.take cls 2 })
      (placeArg 8 argRegs c ⟨cls, 2, t.size⟩) := by
  rw [RegIndices.remRegs, h.indices] at hrem
  rw [placeArg_regs (show _ = [r0, r1] ++ rest from hrem) rfl Nat.two_pos]
  exact ⟨⟨by rw [h.indices]; rfl, h.size⟩, fun _ => rfl⟩

variable (objRegClass) in
theorem argDemand_prim (ht : t.isObjLike = false) :
    argDemand objRegClass t = ⟨primRegClass t, 1, t.size⟩ := by
  simp [argDemand, argClass, argWant, ht]

variable (objRegClass) in
theorem argDemand_obj (ht : t.isObjLike = true) :
    argDemand objRegClass t =
      ⟨objRegClass t, if t.size ≤ 8 then 1 else if t.size ≤ 16 then 2 else 0, t.size⟩ := by
  simp [argDemand, argClass, argWant, ht]

theorem placePrimArg_follows (h : s.Sim c) (ht : t.isObjLike = false) :
    ArgFollows t (placePrimArg s t) (placeArg 8 argRegs c (argDemand objRegClass t)) := by
  rw [argDemand_prim objRegClass ht]
  unfold placePrimArg
  split
  · case h_1 hrem => exact .push h (.inr (by simp [hrem]))
  · case h_2 hrem => exact .takeReg h hrem

theorem placeObjArg_follows (h : s.Sim c) (ht : t.isObjLike = true) :
    ArgFollows t (placeObjArg objRegClass s t)
      (placeArg 8 argRegs c (argDemand objRegClass t)) := by
  rw [argDemand_obj objRegClass ht]
  unfold placeObjArg
  split
  · case h_1 hrem => exact .push h (by rw [hrem]; simp only [List.length_nil]; split <;> omega)
  case h_2 r0 rest hrem =>
  by_cases h8 : t.size ≤ 8
  · simp only [if_pos h8]
    exact .takeReg h hrem
  simp only [if_neg h8]
  split
  · exact .push h (by rw [hrem]; simp only [List.length_singleton]; split <;> omega)
  by_cases h16 : t.size ≤ 16
  · simp only [if_pos h16]
    exact .takeRegs h hrem
  · simp only [if_neg h16]
    exact .push h (.inl rfl)

theorem convertArgs_follows (h : s.Sim c) {ts : List Ty}
    (hfit : ∀ p ∈ placeArgs 8 argRegs c (ts.map (argDemand objRegClass)), OffsetFits p) :
    List.zipWith argLoc ts (convertArgs objRegClass s ts) =
      placeArgs 8 argRegs c (ts.map (argDemand objRegClass)) := by
  induction ts generalizing s c with
  | nil => rfl
  | cons t ts ih =>
    simp only [List.map_cons, placeArgs, List.forall_mem_cons] at hfit
    have hstep : ArgFollows t
        (if t.isObjLike then placeObjArg objRegClass s t else placePrimArg s t)
        (placeArg 8 argRegs c (argDemand objRegClass t)) := by
      by_cases ht : t.isObjLike = true
      · rw [if_pos ht]
        exact placeObjArg_follows h ht
      · rw [if_neg ht]
        exact placePrimArg_follows h (Bool.eq_false_iff.mpr ht)
    simp only [convertArgs, List.map_cons, placeArgs, List.zipWith_cons_cons]
    rw [hstep.loc hfit.1, ih hstep.sim hfit.2]

/-! ## The procedure follows it -/

/-- Alignments are those of scalars: one, two, four or eight. -/
theorem two_pow_of_dvd_eight {n : Nat} (h : n ∣ 8) : ∃ k ≤ 3, n = 2 ^ k :=
  (Nat.dvd_prime_pow Nat.prime_two).mp (show n ∣ 2 ^ 3 from h)

structure ParamState.Sim (s : ParamState) (c : Cursor RegClass) : Prop where
  indices : s.indices = c.used
  offset : s.stackArgOffset = BitVec.ofNat 64 (16 + c.top)
  words : 8 ∣ c.top

variable {ps : ParamState}

theorem ParamState.Sim.consumeStackArg (h : ps.Sim c) (ht : t.align ∣ 8) :
    (ps.consumeStackArg t).2.Sim (c.takeBytes 8 t.size) := by
  obtain ⟨k, hk, hal⟩ := two_pow_of_dvd_eight ht
  refine ⟨h.indices, ?_, Nat.dvd_add h.words (dvd_alignUp _ 8)⟩
  have h8 := alignUpMask_ofNat (show 3 < 64 by decide)
    (alignUp (16 + c.top + t.size) (2 ^ k))
  have hup : alignUp (alignUp (16 + c.top + t.size) (2 ^ k)) 8 =
      16 + (c.top + alignUp t.size 8) := by
    rw [alignUp_alignUp (Nat.two_pow_pos k) (by decide) (hal ▸ ht),
      alignUp_add_of_dvd _ (by decide) (Nat.dvd_add (by decide) h.words), Nat.add_assoc]
  simp only [ParamState.consumeStackArg, Cursor.takeBytes, h.offset, hal, ← BitVec.ofNat_add,
    alignUpMask_ofNat (show k < 64 by omega)]
  exact h8.trans (congrArg _ hup)

theorem paramLoc_consumeStackArg (h : ps.Sim c) (hfit : OffsetFits (.stack c.top t.size)) :
    paramLoc t (ps.consumeStackArg t).1 = .stack c.top t.size := by
  have hreach : (c.top : Int) + 24 < 2 ^ 31 := hfit
  have hlt : 16 + c.top < 2 ^ 31 := by omega
  simp only [ParamState.consumeStackArg, paramLoc, h.offset, setWidth_ofNat, toInt_ofNat hlt]
  simp

/-- What one step of the procedure is to do. -/
structure ParamFollows (t : Ty) (r : Param × ParamState) (p : Place ArgReg × Cursor RegClass) :
    Prop where
  sim : r.2.Sim p.2
  loc : OffsetFits p.1 → paramLoc t r.1 = p.1

theorem ParamFollows.consume {cls : RegClass} {n : Nat} (h : ps.Sim c) (ht : t.align ∣ 8)
    (hshort : n = 0 ∨ (ps.indices.remRegs cls).length < n) :
    ParamFollows t (ps.consumeStackArg t) (placeArg 8 argRegs c ⟨cls, n, t.size⟩) := by
  rw [RegIndices.remRegs, h.indices] at hshort
  rw [placeArg_stack hshort]
  exact ⟨h.consumeStackArg ht, paramLoc_consumeStackArg h⟩

/-- Parameters in one register start where it is stored. -/
theorem paramLoc_one (t : Ty) (spill : ParamSpill) :
    paramLoc t ⟨spill.offset, [spill]⟩ = .regs [spill.preg] := by
  simp [paramLoc, Param.regAt, List.range_succ]

/-- The two registers of a parameter are stored next to each other. -/
theorem paramLoc_two (t : Ty) {high low : ParamSpill} (h : high.offset = low.offset + 8) :
    paramLoc t ⟨low.offset, [high, low]⟩ = .regs [low.preg, high.preg] := by
  simp [paramLoc, Param.regAt, List.range_succ, h]

/-- A second spill of eight bytes goes right below the first. -/
theorem spillReg_spillReg (s : ParamState) {align : Nat} (h : align ∣ 8) (r0 r1 : ArgReg) :
    (s.spillReg 8 align r1).1.offset =
      ((s.spillReg 8 align r1).2.spillReg 8 align r0).1.offset + 8 := by
  obtain ⟨k, hk, rfl⟩ := two_pow_of_dvd_eight h
  obtain ⟨n, hn⟩ : ∃ n, s.spillSize = BitVec.ofNat 64 n :=
    ⟨s.spillSize.toNat, BitVec.eq_of_toNat_eq (by simp)⟩
  have hup : alignUp (alignUp (n + 8) (2 ^ k) + 8) (2 ^ k) = alignUp (n + 8) (2 ^ k) + 8 :=
    alignUp_of_dvd (Nat.two_pow_pos k) (Nat.dvd_add (dvd_alignUp _ _) h)
  simp only [ParamState.spillReg, hn, ← BitVec.ofNat_add,
    alignUpMask_ofNat (show k < 64 by omega), hup]
  generalize alignUp (n + 8) (2 ^ k) = m
  have hneg : -BitVec.ofNat 64 m = -BitVec.ofNat 64 (m + 8) + 8 := by
    rw [BitVec.ofNat_add, BitVec.neg_add]
    simp [BitVec.sub_eq_add_neg, BitVec.add_assoc]
  rw [hneg, BitVec.setWidth_add _ _ (by decide)]
  rfl

theorem ParamState.Sim.spillReg (h : ps.Sim c) (size align : Nat) (r : ArgReg) :
    (ps.spillReg size align r).2.Sim c := ⟨h.indices, h.offset, h.words⟩

theorem ParamState.Sim.takeRegs (h : ps.Sim c) (cls : RegClass) (n : Nat) :
    (ps.takeRegs cls n).Sim (c.takeRegs cls n) :=
  ⟨by rw [ParamState.takeRegs, h.indices]; rfl, h.offset, h.words⟩

theorem ParamFollows.spillOne {cls : RegClass} {r : ArgReg} {rest : List ArgReg} (h : ps.Sim c)
    (hrem : ps.indices.remRegs cls = r :: rest) (size align : Nat) :
    ParamFollows t (⟨((ps.takeRegs cls 1).spillReg size align r).1.offset,
        [((ps.takeRegs cls 1).spillReg size align r).1]⟩,
        ((ps.takeRegs cls 1).spillReg size align r).2)
      (placeArg 8 argRegs c ⟨cls, 1, t.size⟩) := by
  rw [RegIndices.remRegs, h.indices] at hrem
  rw [placeArg_regs (show _ = [r] ++ rest from hrem) rfl Nat.one_pos]
  exact ⟨(h.takeRegs cls 1).spillReg size align r, fun _ => paramLoc_one t _⟩

theorem assignPrimParam_follows (h : ps.Sim c) (ht : t.isObjLike = false) (hal : t.align ∣ 8) :
    ParamFollows t (assignPrimParam ps t) (placeArg 8 argRegs c (argDemand objRegClass t)) := by
  rw [argDemand_prim objRegClass ht]
  unfold assignPrimParam
  split
  · case h_1 hrem => exact .spillOne h hrem t.size t.align
  · case h_2 hrem => exact .consume h hal (.inr (by simp [hrem]))

theorem assignObjParam_follows (h : ps.Sim c) (ht : t.isObjLike = true) (hal : t.align ∣ 8) :
    ParamFollows t (assignObjParam objRegClass ps t)
      (placeArg 8 argRegs c (argDemand objRegClass t)) := by
  rw [argDemand_obj objRegClass ht]
  unfold assignObjParam
  split
  · case h_1 hrem =>
    exact .consume h hal (by rw [hrem]; simp only [List.length_nil]; split <;> omega)
  case h_2 r0 rest hrem =>
  by_cases h8 : t.size ≤ 8
  · simp only [if_pos h8]
    exact .spillOne h hrem 8 t.align
  simp only [if_neg h8]
  cases rest with
  | nil => exact .consume h hal (by rw [hrem]; simp only [List.length_singleton]; split <;> omega)
  | cons r1 rest =>
  by_cases h16 : t.size ≤ 16
  · simp only [if_pos h16]
    rw [RegIndices.remRegs, h.indices] at hrem
    rw [placeArg_regs (show _ = [r0, r1] ++ rest from hrem) rfl Nat.two_pos]
    exact ⟨((h.takeRegs _ 2).spillReg 8 t.align r1).spillReg 8 t.align r0,
      fun _ => paramLoc_two t (spillReg_spillReg _ hal r0 r1)⟩
  · simp only [if_neg h16]
    exact .consume h hal (.inl rfl)

theorem assignParams_follows (h : ps.Sim c) {ts : List Ty} (hal : ∀ t ∈ ts, t.align ∣ 8)
    (hfit : ∀ p ∈ placeArgs 8 argRegs c (ts.map (argDemand objRegClass)), OffsetFits p) :
    List.zipWith paramLoc ts (assignParams objRegClass ps ts) =
      placeArgs 8 argRegs c (ts.map (argDemand objRegClass)) := by
  induction ts generalizing ps c with
  | nil => rfl
  | cons t ts ih =>
    simp only [List.map_cons, placeArgs, List.forall_mem_cons] at hfit
    have hal' := List.forall_mem_cons.mp hal
    have hstep : ParamFollows t
        (if t.isObjLike then assignObjParam objRegClass ps t else assignPrimParam ps t)
        (placeArg 8 argRegs c (argDemand objRegClass t)) := by
      by_cases ht : t.isObjLike = true
      · rw [if_pos ht]
        exact assignObjParam_follows h ht hal'.1
      · rw [if_neg ht]
        exact assignPrimParam_follows h (Bool.eq_false_iff.mpr ht) hal'.1
    simp only [assignParams, List.map_cons, placeArgs, List.zipWith_cons_cons]
    rw [hstep.loc hfit.1, ih hstep.sim hal'.2 hfit.2]

end

/-! ## Both agree -/

section

variable (objRegClass : Ty → RegClass) (ret : Ty) {params : List Ty}

theorem callerLocs_eq (hfit : ∀ p ∈ argPlaces objRegClass ret params, OffsetFits p) :
    callerLocs objRegClass ret params =
      (retArgReg? ret).toList.map (fun r => Place.regs [r]) ++ argPlaces objRegClass ret params :=
  congrArg _ (convertArgs_follows ⟨rfl, rfl⟩ hfit)

theorem spillRetArg_sim : (spillRetArg ret).2.Sim ⟨callIndices ret, 0⟩ := by
  by_cases h : (ret.isObjLike && isObjRetargLarge ret.size) = true
  · have hr : retArgReg? ret = (argRegs .int)[0]? := if_pos h
    refine ⟨funext fun k => ?_, ?_, Nat.dvd_zero 8⟩
    · cases k <;> simp [spillRetArg, hr, argRegs, ParamState.takeRegs, ParamState.spillReg,
        RegIndices.take, callIndices, h]
    · simp [spillRetArg, hr, argRegs, ParamState.takeRegs, ParamState.spillReg]
  · have hr : retArgReg? ret = none := if_neg h
    refine ⟨funext fun k => ?_, ?_, Nat.dvd_zero 8⟩
    · cases k <;> simp [spillRetArg, hr, callIndices, h]
    · simp [spillRetArg, hr]

theorem spillRetArg_preg :
    (spillRetArg ret).1.toList.map (fun s => Place.regs [s.preg]) =
      (retArgReg? ret).toList.map (fun r => Place.regs [r]) := by
  unfold spillRetArg
  split
  · case h_1 h => simp [h]
  · case h_2 h => simp [h, ParamState.spillReg]

theorem calleeLocs_eq (hal : ∀ t ∈ params, t.align ∣ 8)
    (hfit : ∀ p ∈ argPlaces objRegClass ret params, OffsetFits p) :
    calleeLocs objRegClass ret params =
      (retArgReg? ret).toList.map (fun r => Place.regs [r]) ++ argPlaces objRegClass ret params := by
  unfold calleeLocs assignProcParamOffsets
  rw [spillRetArg_preg, assignParams_follows (spillRetArg_sim ret) hal hfit]
  rfl

/-- The register with the address of the result is not handed out again. -/
theorem taken_retArgReg {p : Place ArgReg}
    (h : p ∈ (retArgReg? ret).toList.map (fun r => Place.regs [r])) :
    p.Taken argRegs ⟨callIndices ret, 0⟩ := by
  obtain ⟨r, hr, rfl⟩ := List.mem_map.mp h
  have hr' : retArgReg? ret = some r := Option.mem_toList.mp hr
  unfold retArgReg? at hr'
  split at hr'
  · case isTrue hlarge =>
    intro r' hmem
    rw [List.mem_singleton.mp hmem]
    refine ⟨.int, ?_⟩
    cases hr'
    simp [callIndices, hlarge, argRegs]
  · cases hr'

/-- A call puts what it passes where the procedure takes it from, each in a place of its own. -/
theorem callLocs_agree (hal : ∀ t ∈ params, t.align ∣ 8)
    (hfit : ∀ p ∈ argPlaces objRegClass ret params, OffsetFits p) :
    callerLocs objRegClass ret params = calleeLocs objRegClass ret params ∧
      (callerLocs objRegClass ret params).Pairwise Place.Disjoint ∧
      (callerLocs objRegClass ret params).length =
        (retArgReg? ret).toList.length + params.length := by
  rw [calleeLocs_eq objRegClass ret hal hfit, callerLocs_eq objRegClass ret hfit]
  refine ⟨rfl, List.pairwise_append.mpr ⟨?_, ?_, ?_⟩, by simp [argPlaces]⟩
  · cases retArgReg? ret <;> simp
  · exact pairwise_placeArgs _ (by decide) distinct_argRegs _
  · intro p hp q hq
    exact (taken_retArgReg ret hp).disjoint distinct_argRegs (left_placeArgs _ _ q hq)

end

/-- An object of two registers that meets one free register, one that is on the stack, and a
result in memory. -/
theorem callLocs_agree_mixed :
    let params := [Ty.integer .u8, .struct 0 12 4, .float .f32, .struct 1 16 8, .ptr .void,
      .struct 2 20 1, .struct 3 3 1]
    callerLocs (fun _ => .int) (.struct 4 24 8) params =
        calleeLocs (fun _ => .int) (.struct 4 24 8) params ∧
      (callerLocs (fun _ => .int) (.struct 4 24 8) params).Pairwise Place.Disjoint ∧
      (callerLocs (fun _ => .int) (.struct 4 24 8) params).length = 8 :=
  callLocs_agree (fun _ => .int) (.struct 4 24 8) (by decide) (by decide)

/-- The offset of an argument behind `2 ^ 31 - 24` bytes wraps where the call puts it only. -/
theorem callLocs_ne_twoHuge :
    callerLocs (fun _ => .int) .void [.struct 0 (2 ^ 31 - 24) 8, .struct 1 24 8] ≠
      calleeLocs (fun _ => .int) .void [.struct 0 (2 ^ 31 - 24) 8, .struct 1 24 8] := by
  decide

end Nibble.X64
