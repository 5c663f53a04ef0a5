import Mathlib.Data.BitVec
import Mathlib.Tactic.Ring
import Nibble.XIR.Addr

/-!
# Chains of addresses

The base of an address may be a memory object that is itself an address, and so
on through the object table. A `Chain` lists what such an address adds up: the
innermost base and index, the indices of the addresses around it, and all
displacements. `addrOf_chain` says that this is the meaning of the address;
`Chain.lowers` tells the chains whose lowering is right.
-/

namespace Nibble.XIR

open Nibble.IR

inductive ChainBase where
  | none
  | reg (r : Reg)
  | sym (s : SymId)
  | anonObj (i : Nat)
  | strLit (i : Nat)
  | floatLit (i : Nat)
  deriving DecidableEq, Repr

/-- The innermost address, the indices of the addresses around it, and the displacements. -/
structure Chain where
  base : ChainBase
  index : Option (Reg × BitVec 8)
  outer : List (Reg × BitVec 8)
  disps : List (BitVec 32)
  deriving DecidableEq, Repr

/-- An object that is not an address, or an address. -/
inductive ObjChain where
  | base (b : ChainBase)
  | addr (c : Chain)

/-- The index of an address, with its scale. -/
def indexOf (src : MemAddr) : Option (Reg × BitVec 8) := (hasIndex src).map (·, src.scale)

def chainWith (obj : MemObjId → Option ObjChain) (src : MemAddr) : Option Chain :=
  let inner (b : ChainBase) : Chain := ⟨b, indexOf src, [], [src.disp]⟩
  match src.base with
  | .none => some (inner .none)
  | .reg r => some (inner (.reg r))
  | .strLit i => some (inner (.strLit i))
  | .floatLit i => some (inner (.floatLit i))
  | .obj o =>
    match obj o with
    | some (.base b) => some (inner b)
    | some (.addr c) =>
      some { c with outer := c.outer ++ (indexOf src).toList, disps := c.disps ++ [src.disp] }
    | none => none

def objChain (objs : List MemObj) : Nat → MemObjId → Option ObjChain
  | 0, _ => none
  | n + 1, o =>
    match objs[o]? with
    | some (.alias o') => objChain objs n o'
    | some (.sym s) => some (.base (.sym s))
    | some (.anonObj i) => some (.base (.anonObj i))
    | some (.addr a) => (chainWith (objChain objs n) a).map .addr
    | _ => none

def chain (objs : List MemObj) (src : MemAddr) : Option Chain :=
  chainWith (objChain objs (objs.length + 1)) src

/-! ## Meaning -/

def ChainBase.eval (env : Env) (regs : Reg → Word) : ChainBase → Word
  | none => 0
  | reg r => regs r
  | sym s => env.symAddr s
  | anonObj i => env.anonAddr i
  | strLit i => env.strLitAddr i
  | floatLit i => env.floatLitAddr i

def evalIndices (regs : Reg → Word) (l : List (Reg × BitVec 8)) : Word :=
  (l.map fun p => regs p.1 * p.2.setWidth 64).sum

def evalDisps (l : List (BitVec 32)) : Word := (l.map (·.signExtend 64)).sum

def Chain.eval (env : Env) (regs : Reg → Word) (c : Chain) : Word :=
  c.base.eval env regs + evalIndices regs c.index.toList + evalIndices regs c.outer +
    evalDisps c.disps

def ObjChain.eval (env : Env) (regs : Reg → Word) : ObjChain → Word
  | base b => b.eval env regs
  | addr c => c.eval env regs

section Eval

variable {env : Env} {objs : List MemObj} {regs : Reg → Word} {src : MemAddr}

@[simp] theorem evalIndices_nil : evalIndices regs [] = 0 := rfl

@[simp] theorem evalIndices_append (l l' : List (Reg × BitVec 8)) :
    evalIndices regs (l ++ l') = evalIndices regs l + evalIndices regs l' := by
  simp [evalIndices]

@[simp] theorem evalIndices_singleton (p : Reg × BitVec 8) :
    evalIndices regs [p] = regs p.1 * p.2.setWidth 64 := by
  simp [evalIndices]

@[simp] theorem evalDisps_append (l l' : List (BitVec 32)) :
    evalDisps (l ++ l') = evalDisps l + evalDisps l' := by
  simp [evalDisps]

@[simp] theorem evalDisps_singleton (d : BitVec 32) : evalDisps [d] = d.signExtend 64 := by
  simp [evalDisps]

/-- An index with scale zero adds nothing. -/
theorem eval_indexOf (src : MemAddr) : evalIndices regs (indexOf src).toList =
    match src.indexReg with
    | some r => regs r * src.scale.setWidth 64
    | none => 0 := by
  unfold indexOf hasIndex
  by_cases hs : src.scale = 0
  · rw [if_pos hs, hs]
    cases src.indexReg <;> simp
  · rw [if_neg hs]
    cases src.indexReg <;> simp

theorem evalWith_eq (objBase : MemObjId → Option Word) (src : MemAddr) :
    src.evalWith env objBase regs =
      Option.map (· + evalIndices regs (indexOf src).toList + src.disp.signExtend 64)
        (match src.base with
        | .none => some 0
        | .reg r => some (regs r)
        | .obj o => objBase o
        | .strLit i => some (env.strLitAddr i)
        | .floatLit i => some (env.floatLitAddr i)) := by
  rw [eval_indexOf]
  rfl

theorem evalWith_chainWith {objBase : MemObjId → Option Word} {obj : MemObjId → Option ObjChain}
    (h : ∀ o, objBase o = (obj o).map (·.eval env regs)) (src : MemAddr) :
    src.evalWith env objBase regs = (chainWith obj src).map (·.eval env regs) := by
  rw [evalWith_eq]
  unfold chainWith
  cases src.base with
  | obj o =>
    simp only [h]
    cases obj o with
    | none => rfl
    | some oc =>
      cases oc with
      | base b => simp [Chain.eval, ObjChain.eval]
      | addr c =>
        simp only [Option.map_some, Chain.eval, ObjChain.eval, evalIndices_append,
          evalDisps_append, evalDisps_singleton]
        congr 1
        ring
  | none | reg | strLit | floatLit => simp [Chain.eval, ChainBase.eval]

theorem objAddr_chain (n : Nat) (o : MemObjId) :
    objAddr env objs regs n o = (objChain objs n o).map (·.eval env regs) := by
  induction n generalizing o with
  | zero => rfl
  | succ n ih =>
    unfold objAddr objChain
    match objs[o]? with
    | none => rfl
    | some .none => rfl
    | some (.anonObj i) => rfl
    | some (.sym s) => rfl
    | some (.alias o') => exact ih o'
    | some (.addr a) =>
      show a.evalWith env (objAddr env objs regs n) regs = _
      rw [evalWith_chainWith ih a, Option.map_map]
      rfl

/-- An address means what its chain adds up to. -/
theorem addrOf_chain (src : MemAddr) :
    addrOf env objs regs src = (chain objs src).map (·.eval env regs) :=
  evalWith_chainWith (objAddr_chain _) src

end Eval

/-- Chains of at most `n` addresses around the innermost one, without indices of scale zero. -/
structure Chain.Wf (n : Nat) (c : Chain) : Prop where
  index : ∀ p ∈ c.index, p.2 ≠ 0
  outer : ∀ p ∈ c.outer, p.2 ≠ 0
  length : c.outer.length ≤ n
  disps : c.disps ≠ []

theorem scale_ne_zero {src : MemAddr} : ∀ p ∈ indexOf src, p.2 ≠ 0 := by
  intro p hp
  unfold indexOf hasIndex at hp
  by_cases hs : src.scale = 0
  · simp [hs] at hp
  · rw [if_neg hs] at hp
    obtain ⟨r, -, rfl⟩ := Option.map_eq_some_iff.mp hp
    exact hs

theorem chainWith_wf {obj : MemObjId → Option ObjChain} {n : Nat} {src : MemAddr} {c : Chain}
    (hobj : ∀ o c', obj o = some (.addr c') → c'.Wf n) (h : chainWith obj src = some c) :
    c.Wf (n + 1) := by
  have hinner : ∀ b, Chain.Wf (n + 1) ⟨b, indexOf src, [], [src.disp]⟩ := fun b =>
    ⟨scale_ne_zero, by simp, Nat.zero_le _, by simp⟩
  unfold chainWith at h
  split at h
  case h_5 o hb =>
    split at h
    · cases h
      exact hinner _
    · rename_i c' hc'
      cases h
      obtain ⟨h1, h2, h3, h4⟩ := hobj o c' hc'
      refine ⟨h1, fun p hp => ?_, ?_, by simp⟩
      · rcases List.mem_append.mp hp with hp | hp
        · exact h2 p hp
        · exact scale_ne_zero p (by simpa using hp)
      · have : (indexOf src).toList.length ≤ 1 := by cases indexOf src <;> simp
        rw [List.length_append]
        omega
    · cases h
  all_goals
    cases h
    exact hinner _

theorem objChain_wf {objs : List MemObj} {n : Nat} {o : MemObjId} {c : Chain}
    (h : objChain objs n o = some (.addr c)) : c.Wf n := by
  induction n generalizing o c with
  | zero => cases h
  | succ n ih =>
    unfold objChain at h
    split at h
    · have hc := ih h
      exact ⟨hc.index, hc.outer, Nat.le_succ_of_le hc.length, hc.disps⟩
    · cases h
    · cases h
    · obtain ⟨c', hc', heq⟩ := Option.map_eq_some_iff.mp h
      cases heq
      exact chainWith_wf (fun _ _ => ih) hc'
    · cases h

theorem chain_wf {objs : List MemObj} {src : MemAddr} {c : Chain} (h : chain objs src = some c) :
    c.Wf (objs.length + 2) :=
  chainWith_wf (fun _ _ => objChain_wf) h

/-! ## The chains that are lowered correctly -/

/-- The scales of x64, given that there is one. -/
def validScale (s : BitVec 8) : Bool := isPow2 s && !(x64MaxSibdScale < s)

/-- The displacements, with the place of the object in the frame. -/
def Chain.offsets (fr : Frame) (c : Chain) : List (BitVec 32) :=
  match c.base with
  | .sym s => fr.symOffset s :: c.disps
  | .anonObj i => fr.anonOffset i :: c.disps
  | _ => c.disps

/-- Adding the displacements in 32 bits loses nothing. -/
def Chain.dispFits (fr : Frame) (c : Chain) : Bool :=
  (c.offsets fr).sum.signExtend 64 = evalDisps (c.offsets fr)

/-- The base is in a register, in the frame, or absent. -/
def ChainBase.inReg (fr : Frame) : ChainBase → Bool
  | none | reg _ | anonObj _ => true
  | sym s => fr.isLocal s
  | strLit _ | floatLit _ => false

/-- Around the innermost address there is no further index, the index has a scale of x64, and the
displacements fit; a label stands alone. -/
def Chain.lowers (fr : Frame) (c : Chain) : Bool :=
  if c.base.inReg fr then
    c.outer = [] && c.index.all (validScale ·.2) && c.dispFits fr &&
      (c.base ≠ .none || c.index.isSome)
  else c.index = none && c.disps = [0]

/-- `XIR_get_addr` is right for `src`. -/
def lowers (fr : Frame) (objs : List MemObj) (src : MemAddr) : Bool :=
  match chain objs src with
  | some c => c.lowers fr
  | none => false

end Nibble.XIR
