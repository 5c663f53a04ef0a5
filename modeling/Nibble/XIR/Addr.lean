import Nibble.IR.Exec

/-!
# Addresses in XIR

`XIR_get_addr` turns the address of an IR instruction into an x64 address:
base register, index register, scale and displacement. Where the machine has
no such scale, or two indices meet, it computes with the registers that hold
the indices.

The register-allocation hints that `XIR_get_addr` leaves on the way (banned
registers) do not influence the address and are not modelled.
-/

namespace Nibble.XIR

open Nibble.IR

abbrev XReg := Nat

/-- `XIR_MemAddr.sibd`. A register that is `-1` is `none`. -/
structure Sibd where
  baseReg : Option XReg
  indexReg : Option XReg
  disp : BitVec 32
  scale : BitVec 8
  deriving DecidableEq, Repr

/-- `XIR_MemAddr`. -/
inductive XMemAddr where
  | globalSym (s : SymId)
  | sibd (a : Sibd)
  | strLit (id : Nat)
  | floatLit (id : Nat)
  deriving DecidableEq, Repr

/-- The instructions that computing an address takes, at `X64_MAX_INT_REG_SIZE`. -/
inductive XInstr where
  | imulRI (dst : XReg) (imm : Word)
  | addRR (dst src : XReg)
  deriving DecidableEq, Repr

/-- The part of `XIR_Builder` that addresses depend on. `findAlias` is `XIR_find_alias_reg`. -/
structure XBuilder where
  regMap : Reg → Option XReg
  findAlias : XReg → XReg
  numRegs : Nat
  lregRbp : XReg
  code : List XInstr
  rbp_lt : lregRbp < numRegs
  map_lt : ∀ r x, regMap r = some x → x < numRegs
  alias_lt : ∀ x, x < numRegs → findAlias x < numRegs

abbrev XBuild := StateT XBuilder Option

/-- Where a procedure keeps its memory objects. -/
structure Frame where
  isLocal : SymId → Bool
  symOffset : SymId → BitVec 32
  anonOffset : Nat → BitVec 32

/-! ## Lowering -/

/-- `XIR_next_reg`, as the virtual register of `r`. -/
def XBuilder.mapFresh (X : XBuilder) (r : Reg) : XBuilder :=
  { X with
    regMap := Function.update X.regMap r (some X.numRegs)
    findAlias := Function.update X.findAlias X.numRegs X.numRegs
    numRegs := X.numRegs + 1
    rbp_lt := Nat.lt_succ_of_lt X.rbp_lt
    map_lt := fun s x hs => by
      by_cases h : s = r
      · subst h
        rw [Function.update_self] at hs
        cases hs
        exact Nat.lt_succ_self _
      · rw [Function.update_of_ne h] at hs
        exact Nat.lt_succ_of_lt (X.map_lt s x hs)
    alias_lt := fun x hx => by
      by_cases h : x = X.numRegs
      · subst h
        simp
      · rw [Function.update_of_ne h]
        exact Nat.lt_succ_of_lt (X.alias_lt x (Nat.lt_of_le_of_ne (Nat.le_of_lt_succ hx) h)) }

/-- `XIR_get_reg`. -/
def getReg (r : Reg) : XBuild XReg := fun X =>
  match X.regMap r with
  | some x => some (X.findAlias x, X)
  | none => some (X.numRegs, X.mapFresh r)

def emit (i : XInstr) : XBuild Unit := fun X => some ((), { X with code := X.code ++ [i] })

def assert (b : Bool) : XBuild Unit := if b then pure () else failure

/-- `XIR_lea_sib`. The scale arrives as an `s8`. -/
def leaSib (indexReg : Option XReg) (scale : BitVec 8) (baseReg : Option XReg) : XBuild XReg := do
  assert (scale ≠ 0)
  match indexReg with
  | none => failure
  | some index =>
    emit (.imulRI index (scale.signExtend 64))
    match baseReg with
    | some base => emit (.addRR index base)
    | none => pure ()
    pure index

/-- `IS_POW2`. -/
def isPow2 (x : BitVec 8) : Bool := x &&& (x - 1) = 0

/-- `X64_MAX_SIBD_SCALE`. -/
def x64MaxSibdScale : BitVec 8 := 8

/-- What an object base turns out to be. -/
inductive ObjBase where
  | globalSym (s : SymId)
  | rbp (offset : BitVec 32)
  | addr (a : Sibd)

/-- The end of `XIR_get_addr`: consolidate an invalid scale. -/
def fixScale (hasIndex : Bool) (dst : Sibd) : XBuild Sibd := do
  if hasIndex && (!isPow2 dst.scale || x64MaxSibdScale < dst.scale) then
    let r ← leaSib dst.indexReg dst.scale dst.baseReg
    pure { dst with baseReg := some r, indexReg := none, scale := 0 }
  else pure dst

/-- The index and scale of an address whose base is the address `a`. Two indices are merged into
one; otherwise those of the base are taken. -/
def mergeIndex (i : Option XReg) (scale : BitVec 8) (a : Sibd) : XBuild (Option XReg × BitVec 8) :=
  if i.isSome && a.scale ≠ 0 && a.indexReg.isSome then do
    let i ← leaSib i scale none
    let j ← leaSib a.indexReg a.scale (some i)
    pure (some j, 1)
  else pure (a.indexReg, a.scale)

/-- `has_index`, with the register. -/
def hasIndex (src : MemAddr) : Option Reg := if src.scale = 0 then none else src.indexReg

/-- The index register, where there is one. -/
def getIndex (src : MemAddr) : XBuild (Option XReg) :=
  match hasIndex src with
  | some r => do
    let x ← getReg r
    pure (some x)
  | none => pure none

/-- `XIR_get_addr`, given what the object of the base is. -/
def getAddrWith (getObj : MemObjId → XBuild ObjBase) (src : MemAddr) : XBuild XMemAddr :=
  match src.base with
  | .strLit i => pure (.strLit i)
  | .floatLit i => pure (.floatLit i)
  | .none => do
    assert (hasIndex src).isSome
    let index ← getIndex src
    let dst ← fixScale true ⟨none, index, src.disp, src.scale⟩
    pure (.sibd dst)
  | .reg r => do
    let index ← getIndex src
    let base ← getReg r
    let dst ← fixScale (hasIndex src).isSome ⟨some base, index, src.disp, src.scale⟩
    pure (.sibd dst)
  | .obj o => do
    let index ← getIndex src
    match ← getObj o with
    | .globalSym s => pure (.globalSym s)
    | .rbp offset =>
      let rbp := (← get).lregRbp
      let dst ← fixScale (hasIndex src).isSome ⟨some rbp, index, src.disp + offset, src.scale⟩
      pure (.sibd dst)
    | .addr a =>
      let (index, scale) ← mergeIndex index src.scale a
      let dst ← fixScale (hasIndex src).isSome ⟨a.baseReg, index, src.disp + a.disp, scale⟩
      pure (.sibd dst)

section

variable (fr : Frame) (objs : List MemObj)

/-- The base of an object: aliases are followed, an address is lowered in its turn. -/
def getObj : Nat → MemObjId → XBuild ObjBase
  | 0, _ => failure
  | n + 1, o =>
    match objs[o]? with
    | some (.alias o') => getObj n o'
    | some (.sym s) => pure (if fr.isLocal s then .rbp (fr.symOffset s) else .globalSym s)
    | some (.anonObj i) => pure (.rbp (fr.anonOffset i))
    | some (.addr a) => do
      match ← getAddrWith (getObj n) a with
      | .sibd s => pure (.addr s)
      | _ => failure
    | _ => failure

/-- `XIR_get_addr`. A chain of objects is no longer than the object table. -/
def getAddr (src : MemAddr) : XBuild XMemAddr := getAddrWith (getObj fr objs (objs.length + 1)) src

/-- Several addresses lowered one after the other, each with the code that was emitted for it. -/
def getAddrs : List MemAddr → XBuild (List (List XInstr × XMemAddr))
  | [] => pure []
  | src :: rest => do
    let before := (← get).code.length
    let dst ← getAddr fr objs src
    let code := (← get).code.drop before
    let dsts ← getAddrs rest
    pure ((code, dst) :: dsts)

end

/-! ## Meaning -/

def XInstr.exec (v : XReg → Word) : XInstr → XReg → Word
  | imulRI d imm => Function.update v d (v d * imm)
  | addRR d s => Function.update v d (v d + v s)

def execAll (code : List XInstr) (v : XReg → Word) : XReg → Word := code.foldl XInstr.exec v

/-- The address that the machine computes. A scale of zero means that there is no index. -/
def Sibd.eval (v : XReg → Word) (a : Sibd) : Word :=
  let base := match a.baseReg with
    | some r => v r
    | none => 0
  let index := match a.indexReg with
    | some r => v r * a.scale.setWidth 64
    | none => 0
  base + index + a.disp.signExtend 64

def XMemAddr.eval (env : Env) (v : XReg → Word) : XMemAddr → Word
  | globalSym s => env.symAddr s
  | sibd a => a.eval v
  | strLit i => env.strLitAddr i
  | floatLit i => env.floatLitAddr i

/-- The virtual register of an IR register. -/
def XBuilder.vreg (X : XBuilder) (r : Reg) : Option XReg := (X.regMap r).map X.findAlias

/-- The virtual registers hold what the IR registers hold, and `rbp` is where the frame is. -/
structure Agree (fr : Frame) (X : XBuilder) (env : Env) (regs : Reg → Word) (v : XReg → Word) :
    Prop where
  regs : ∀ r x, X.vreg r = some x → v x = regs r
  locals : ∀ s, fr.isLocal s = true →
    env.symAddr s = v X.lregRbp + (fr.symOffset s).signExtend 64
  anons : ∀ i, env.anonAddr i = v X.lregRbp + (fr.anonOffset i).signExtend 64

/-- Running the code of each address in turn, from `v`: the lowered address is the address, and
the registers of the IR keep their values. -/
def RunsRight (fr : Frame) (objs : List MemObj) (X : XBuilder) (env : Env) (regs : Reg → Word) :
    List MemAddr → List (List XInstr × XMemAddr) → (XReg → Word) → Prop
  | [], [], _ => True
  | src :: srcs, (code, dst) :: dsts, v =>
    addrOf env objs regs src = some (dst.eval env (execAll code v)) ∧
    Agree fr X env regs (execAll code v) ∧
    RunsRight fr objs X env regs srcs dsts (execAll code v)
  | _, _, _ => False

/-- Addresses are lowered correctly, one after the other, from any state of the builder. -/
def GetAddrsCorrect (fr : Frame) (objs : List MemObj) (srcs : List MemAddr) : Prop :=
  ∀ X, ∃ dsts X', getAddrs fr objs srcs X = some (dsts, X') ∧
    ∀ env regs v, Agree fr X' env regs v → RunsRight fr objs X' env regs srcs dsts v

end Nibble.XIR
