import Nibble.Lib.Scopes
import Nibble.X64.CallConv
import Nibble.X64.RegAllocSound

/-!
# The stack frame of a procedure

`X64_assign_proc_stack_offsets` gives every variable and object of a procedure an
offset from `rbp`. Parameters that come in registers are spilled first, then the
variables and objects of the procedure's scope follow, then those of the scopes in
it, where scopes side by side start at the same offset. The register allocator adds
its slots below. Parameters that are passed on the stack stay in the frame of the
caller.
-/

namespace Nibble.X64

open Nibble.Lib

/-! ## Scopes -/

/-- What a `Scope` declares: the types of the variables of `sym_list`, and `obj_list`. -/
structure ScopeDecls where
  vars : List Ty
  objs : List Item

def typeItem (t : Ty) : Item := ⟨t.size, t.align⟩

abbrev Scope := ScopeTree ScopeDecls

/-- A variable or an object with its offset from `rbp`. The path leads to its scope. -/
structure StackVar where
  path : List Nat
  size : Nat
  align : Nat
  offset : BitVec 32
  deriving DecidableEq, Repr

/-- The loops that sum sizes: over variables, over temporary objects and over `obj_list`. -/
def sumSizes (path : List Nat) : List Item → BitVec 64 → List StackVar × BitVec 64
  | [], stackSize => ([], stackSize)
  | i :: is, stackSize =>
    let stackSize := alignUpMask (stackSize + BitVec.ofNat 64 i.size) (BitVec.ofNat 64 i.align)
    let (vars, total) := sumSizes path is stackSize
    (⟨path, i.size, i.align, (-stackSize).setWidth 32⟩ :: vars, total)

mutual

/-- `X64_assign_scope_stack_offsets`. -/
def assignScopeStackOffsets : Scope → List Nat → BitVec 64 → List StackVar × BitVec 64
  | .mk decls children, path, offset =>
    let (vars, stackSize) := sumSizes path (decls.vars.map typeItem) offset
    let (objs, stackSize) := sumSizes path decls.objs stackSize
    let (inner, stackSize) := assignChildOffsets children path 0 stackSize stackSize
    (vars ++ objs ++ inner, alignUpMask stackSize 16)

/-- The loop over `children`. -/
def assignChildOffsets : List Scope → List Nat → Nat → BitVec 64 → BitVec 64 →
    List StackVar × BitVec 64
  | [], _, _, _, stackSize => ([], stackSize)
  | child :: rest, path, k, childOffset, stackSize =>
    let (vars, childSize) := assignScopeStackOffsets child (path ++ [k]) childOffset
    let (more, total) := assignChildOffsets rest path (k + 1) childOffset
      (if stackSize < childSize then childSize else stackSize)
    (vars ++ more, total)

end

/-- The loop over the scopes in the procedure's own, where `child_size` has 32 bits. -/
def assignTopChildOffsets : List Scope → Nat → BitVec 64 → BitVec 64 → List StackVar × BitVec 64
  | [], _, _, stackSize => ([], stackSize)
  | child :: rest, k, childOffset, stackSize =>
    let (vars, childSize) := assignScopeStackOffsets child [k] childOffset
    let childSize := (childSize.setWidth 32).setWidth 64
    let (more, total) := assignTopChildOffsets rest (k + 1) childOffset
      (if stackSize < childSize then childSize else stackSize)
    (vars ++ more, total)

/-! ## Procedures -/

/-- What the frame of a procedure depends on: its scope, less the parameters, and `tmp_objs`. -/
structure ProcScope where
  ret : Ty
  params : List Ty
  locals : List Ty
  tmpObjs : List Item
  objs : List Item
  children : List Scope

/-- What has an offset below `rbp`, what has one above it, and the size of the frame before the
register allocator adds to it. -/
structure FrameLayout where
  vars : List StackVar
  stackParams : List StackVar
  stackSize : BitVec 64

/-- The state after the walk over the parameters. -/
def paramsState (objRegClass : Ty → RegClass) : ParamState → List Ty → ParamState
  | s, [] => s
  | s, t :: ts =>
    paramsState objRegClass
      (if t.isObjLike then assignObjParam objRegClass s t else assignPrimParam s t).2 ts

def paramVar (t : Ty) (p : Param) : StackVar := ⟨[], t.size, t.align, p.offset⟩

/-- The parameters that the prologue stores in the frame, and those that stay where they are. -/
def spilledParams (ts : List Ty) (ps : List Param) : List StackVar :=
  ((ts.zip ps).filter fun x => !x.2.spills.isEmpty).map fun x => paramVar x.1 x.2

def stackParams (ts : List Ty) (ps : List Param) : List StackVar :=
  ((ts.zip ps).filter fun x => x.2.spills.isEmpty).map fun x => paramVar x.1 x.2

/-- `X64_assign_proc_stack_offsets`. -/
def assignProcStackOffsets (objRegClass : Ty → RegClass) (proc : ProcScope) : FrameLayout :=
  let (retSpill, params) := assignProcParamOffsets objRegClass proc.ret proc.params
  let stackSize := (paramsState objRegClass (spillRetArg proc.ret).2 proc.params).spillSize
  let (vars, stackSize) := sumSizes [] (proc.locals.map typeItem) stackSize
  let (tmps, stackSize) := sumSizes [] proc.tmpObjs stackSize
  let (objs, stackSize) := sumSizes [] proc.objs stackSize
  let (inner, stackSize) := assignTopChildOffsets proc.children 0 stackSize stackSize
  { vars := (retSpill.toList.map fun s => ⟨[], 8, 8, s.offset⟩) ++
      spilledParams proc.params params ++ vars ++ tmps ++ objs ++ inner
    stackParams := stackParams proc.params params
    stackSize := alignUpMask stackSize 16 }

end Nibble.X64
