import Mathlib.Data.List.Basic
import Mathlib.Algebra.Group.Nat.Defs

/-!
# Array literals

`resolve_expr_array_lit` of `resolver/exprs.c`. The expressions in a literal are
resolved and converted by other functions, which are parameters here. The index
of the element that is set runs with the initializers and jumps where one has an
index of its own.
-/

namespace Nibble.Resolve

/-- What `resolve_expr` leaves in an expression: its type and its value. -/
structure ExprOperand (τ : Type) where
  type : τ
  isConstexpr : Bool
  isImm : Bool
  imm : BitVec 64
  deriving DecidableEq, Repr

inductive Designator (E : Type) where
  | none
  | name (name : String)
  | index (index : E)

/-- `MemberInitializer`. -/
structure MemberInitializer (E : Type) where
  designator : Designator E
  init : E

/-- `resolve_expr` with the expected type, `convert_eop`, and the two questions about the type of
the elements. -/
structure Exprs (τ E : Type) where
  resolveExpr : E → τ → Option (ExprOperand τ)
  convertEop : ExprOperand τ → τ → Option (ExprOperand τ)
  isVoid : τ → Bool
  isIncompleteArray : τ → Bool

inductive ArrayLitError where
  | voidElems
  | incompleteElems
  | nameDesignator (name : String)
  | indexNotConst
  | tooManyElems (arrayLen : BitVec 64)
  | invalidInitializer
  /-- An error that `resolve_expr` has reported. -/
  | inExpr
  deriving DecidableEq, Repr

/-- The format of the error that is reported. -/
def ArrayLitError.format : ArrayLitError → Option String
  | voidElems => some "Cannot declare an array of `void` elements"
  | incompleteElems => some "Cannot use an incomplete array element type `%s`"
  | nameDesignator _ =>
    some "Cannot use a name designator (`%s`) for an array compound literal"
  | indexNotConst => some "Array index designator must be a compile-time constant expression"
  | tooManyElems _ => some "Too many elements in array initializer. Expected at most %llu elements."
  | invalidInitializer => some "Invalid array initializer"
  | inExpr => none

/-- The type of the literal: the length of the array, and whether it is constant. -/
structure ArrayLit where
  len : BitVec 64
  isConstexpr : Bool
  deriving DecidableEq, Repr

section

variable {τ E : Type} (X : Exprs τ E) (elemType : τ)

/-- The index that a designator sets, `elemIndex` if there is none. -/
def resolveDesignator (elemIndex : BitVec 64) : Designator E → Except ArrayLitError (BitVec 64)
  | .name n => .error (.nameDesignator n)
  | .index e =>
    match X.resolveExpr e elemType with
    | none => .error .inExpr
    | some op => if !op.isConstexpr || !op.isImm then .error .indexNotConst else .ok op.imm
  | .none => .ok elemIndex

/-- An initializer converted to the type of the elements: whether it is constant. -/
def resolveElem (init : E) : Except ArrayLitError Bool :=
  match X.resolveExpr init elemType with
  | none => .error .inExpr
  | some op =>
    match X.convertEop op elemType with
    | none => .error .invalidInitializer
    | some op => .ok op.isConstexpr

/-- The loop over the initializers: the index behind the last one. -/
def resolveInitzers (arrayLen : BitVec 64) :
    List (MemberInitializer E) → BitVec 64 → Bool → Except ArrayLitError ArrayLit
  | [], elemIndex, allConstexpr => .ok ⟨elemIndex, allConstexpr⟩
  | it :: rest, elemIndex, allConstexpr =>
    match resolveDesignator X elemType elemIndex it.designator with
    | .error e => .error e
    | .ok elemIndex =>
      if arrayLen ≠ 0 ∧ elemIndex ≥ arrayLen then .error (.tooManyElems arrayLen)
      else
        match resolveElem X elemType it.init with
        | .error e => .error e
        | .ok isConstexpr =>
          resolveInitzers arrayLen rest (elemIndex + 1) (allConstexpr && isConstexpr)

/-- `resolve_expr_array_lit`. The length of the array is inferred where the type has length zero. -/
def resolveExprArrayLit (arrayLen : BitVec 64) (initzers : List (MemberInitializer E)) :
    Except ArrayLitError ArrayLit :=
  if X.isVoid elemType then .error .voidElems
  else if X.isIncompleteArray elemType then .error .incompleteElems
  else
    match resolveInitzers X elemType arrayLen initzers 0 true with
    | .error e => .error e
    | .ok r => .ok (if arrayLen = 0 then r else { r with len := arrayLen })

/-! ## The elements that are set -/

/-- The value of an index. -/
def designatedIndex : Designator E → Option Nat
  | .index e => (X.resolveExpr e elemType).map (·.imm.toNat)
  | _ => none

/-- The indices of the elements that initializers set, from the one in turn on: an initializer
without an index sets the element behind the one before. -/
def elemIndices : Nat → List (MemberInitializer E) → List Nat
  | _, [] => []
  | next, it :: rest =>
    let i := (designatedIndex X elemType it.designator).getD next
    i :: elemIndices (i + 1) rest

/-- The element in turn behind the last initializer. -/
def nextIndex : Nat → List (MemberInitializer E) → Nat
  | next, [] => next
  | next, it :: rest => nextIndex ((designatedIndex X elemType it.designator).getD next + 1) rest

end

section

variable {τ E : Type} {X : Exprs τ E} {elemType : τ} {arrayLen : BitVec 64}

theorem elemIndices_eq_nil {next : Nat} {initzers : List (MemberInitializer E)} :
    elemIndices X elemType next initzers = [] ↔ initzers = [] := by
  cases initzers <;> simp [elemIndices]

/-- The element in turn is the one behind the last that is set. -/
theorem nextIndex_eq {next i : Nat} {initzers : List (MemberInitializer E)}
    (h : (elemIndices X elemType next initzers).getLast? = some i) :
    nextIndex X elemType next initzers = i + 1 := by
  induction initzers generalizing next with
  | nil => cases h
  | cons it rest ih =>
    rw [elemIndices, List.getLast?_cons] at h
    rw [nextIndex]
    cases hlast : (elemIndices X elemType
        ((designatedIndex X elemType it.designator).getD next + 1) rest).getLast? with
    | none =>
      rw [List.getLast?_eq_none_iff, elemIndices_eq_nil] at hlast
      subst hlast
      exact congrArg (· + 1) (Option.some.inj h)
    | some j =>
      rw [hlast] at h
      cases h
      exact ih hlast

/-- The index that is resolved is the designated one, or the one in turn, modulo 2^64. -/
theorem resolveDesignator_toNat {next : Nat} {i : BitVec 64} {d : Designator E}
    (h : resolveDesignator X elemType (BitVec.ofNat 64 next) d = .ok i) :
    i = BitVec.ofNat 64 ((designatedIndex X elemType d).getD next) := by
  cases d with
  | none => exact (Except.ok.inj h).symm
  | name n => cases h
  | index e =>
    simp only [resolveDesignator] at h
    split at h
    · cases h
    · rename_i op hop
      split at h
      · cases h
      · cases h
        simp [designatedIndex, hop]

/-- One round of the loop. -/
theorem resolveInitzers_cons {it : MemberInitializer E} {rest : List (MemberInitializer E)}
    {elemIndex : BitVec 64} {c : Bool} {r : ArrayLit}
    (h : resolveInitzers X elemType arrayLen (it :: rest) elemIndex c = .ok r) :
    ∃ i c', resolveDesignator X elemType elemIndex it.designator = .ok i ∧
      (arrayLen ≠ 0 → i < arrayLen) ∧
      resolveInitzers X elemType arrayLen rest (i + 1) c' = .ok r := by
  rw [resolveInitzers] at h
  split at h
  · cases h
  · rename_i i hd
    split at h
    · cases h
    · rename_i hlt
      split at h
      · cases h
      · refine ⟨i, _, hd, fun hne => ?_, h⟩
        exact BitVec.not_le.mp fun hge => hlt ⟨hne, hge⟩

/-- The loop ends at the element in turn, modulo 2^64. -/
theorem resolveInitzers_len {initzers : List (MemberInitializer E)} {next : Nat} {c : Bool}
    {r : ArrayLit}
    (h : resolveInitzers X elemType arrayLen initzers (BitVec.ofNat 64 next) c = .ok r) :
    r.len = BitVec.ofNat 64 (nextIndex X elemType next initzers) := by
  induction initzers generalizing next c with
  | nil =>
    cases h
    rfl
  | cons it rest ih =>
    obtain ⟨i, c', hd, -, hrest⟩ := resolveInitzers_cons h
    rw [resolveDesignator_toNat hd, show (1 : BitVec 64) = BitVec.ofNat 64 1 from rfl,
      ← BitVec.ofNat_add] at hrest
    exact ih hrest

/-- Every element that is set lies in an array of a given length. -/
theorem resolveInitzers_lt (hlen : arrayLen ≠ 0) {initzers : List (MemberInitializer E)}
    {next : Nat} {c : Bool} {r : ArrayLit} (hnext : next < 2 ^ 64)
    (h : resolveInitzers X elemType arrayLen initzers (BitVec.ofNat 64 next) c = .ok r) :
    ∀ i ∈ elemIndices X elemType next initzers, i < arrayLen.toNat := by
  induction initzers generalizing next c with
  | nil => exact fun _ hi => nomatch hi
  | cons it rest ih =>
    obtain ⟨i, c', hd, hlt, hrest⟩ := resolveInitzers_cons h
    have hi := resolveDesignator_toNat hd
    have hdes : (designatedIndex X elemType it.designator).getD next < 2 ^ 64 := by
      cases it.designator with
      | none => exact hnext
      | name n => exact hnext
      | index e =>
        simp only [designatedIndex]
        cases X.resolveExpr e elemType with
        | none => exact hnext
        | some op => exact op.imm.isLt
    have htoNat : i.toNat = (designatedIndex X elemType it.designator).getD next := by
      rw [hi, BitVec.toNat_ofNat, Nat.mod_eq_of_lt hdes]
    have hless := BitVec.lt_def.mp (hlt hlen)
    rw [htoNat] at hless
    rw [hi, show (1 : BitVec 64) = BitVec.ofNat 64 1 from rfl, ← BitVec.ofNat_add] at hrest
    rw [elemIndices, List.forall_mem_cons]
    exact ⟨hless, ih (by have := arrayLen.isLt; omega) hrest⟩

/-- A literal of an array with a length sets elements of it. -/
theorem arrayLit_lt_len (hlen : arrayLen ≠ 0) {initzers : List (MemberInitializer E)} {r : ArrayLit}
    (h : resolveExprArrayLit X elemType arrayLen initzers = .ok r) :
    r.len = arrayLen ∧ ∀ i ∈ elemIndices X elemType 0 initzers, i < r.len.toNat := by
  unfold resolveExprArrayLit at h
  split at h
  · cases h
  · split at h
    · cases h
    · split at h
      · cases h
      · rename_i r' hloop
        cases h
        exact ⟨rfl, resolveInitzers_lt hlen (by decide) hloop⟩

/-- The length is one more than the largest index, and every index is below it. -/
def InfersLen (indices : List Nat) (len : BitVec 64) : Prop :=
  (∀ i ∈ indices, i < len.toNat) ∧ (indices ≠ [] → ∃ i ∈ indices, len.toNat = i + 1)

/-- The length of an accepted literal is the right one exactly if the last initializer sets the
element of the largest index, and its index is not the largest number of 64 bits. -/
theorem arrayLit_infersLen {initzers : List (MemberInitializer E)} {r : ArrayLit}
    (h : resolveExprArrayLit X elemType 0 initzers = .ok r) :
    InfersLen (elemIndices X elemType 0 initzers) r.len ↔
      ∀ last ∈ (elemIndices X elemType 0 initzers).getLast?,
        (∀ i ∈ elemIndices X elemType 0 initzers, i ≤ last) ∧ last + 1 < 2 ^ 64 := by
  have hlen : r.len = BitVec.ofNat 64 (nextIndex X elemType 0 initzers) := by
    unfold resolveExprArrayLit at h
    split at h
    · cases h
    · split at h
      · cases h
      · split at h
        · cases h
        · rename_i r' hloop
          rw [if_pos rfl] at h
          cases h
          exact resolveInitzers_len hloop
  have htoNat : r.len.toNat = nextIndex X elemType 0 initzers % 2 ^ 64 := by
    rw [hlen, BitVec.toNat_ofNat]
  cases hlast : (elemIndices X elemType 0 initzers).getLast? with
  | none =>
    rw [List.getLast?_eq_none_iff] at hlast
    simp [InfersLen, hlast]
  | some last =>
    have hmem := List.mem_of_getLast? hlast
    rw [nextIndex_eq hlast] at htoNat
    constructor
    · rintro ⟨hlt, hmax⟩ _ ⟨rfl⟩
      obtain ⟨i, hi, hi'⟩ := hmax (List.ne_nil_of_mem hmem)
      have hself := hlt last hmem
      have hsmall : last + 1 < 2 ^ 64 := by
        have := r.len.isLt
        by_contra hbig
        rw [show last + 1 = 2 ^ 64 by omega] at htoNat
        omega
      rw [Nat.mod_eq_of_lt hsmall] at htoNat
      exact ⟨fun j hj => by have := hlt j hj; omega, hsmall⟩
    · intro hcond
      obtain ⟨hle, hsmall⟩ := hcond last rfl
      rw [Nat.mod_eq_of_lt hsmall] at htoNat
      refine ⟨fun i hi => ?_, fun _ => ⟨last, hmem, htoNat⟩⟩
      have := hle i hi
      omega

end

/-! ## A literal of two elements -/

/-- Expressions that are constants of one type. -/
def constants : Exprs Unit (BitVec 64) :=
  ⟨fun v t => some ⟨t, true, true, v⟩, fun op _ => some op, fun _ => false, fun _ => false⟩

/-- `{[2] = 7, [0] = 5}`. -/
def jumpingBack : List (MemberInitializer (BitVec 64)) := [⟨.index 2, 7⟩, ⟨.index 0, 5⟩]

/-- `{5, [3] = 7, 9}`, whose last initializer sets the element of the largest index. -/
theorem arrayLit_infersLen_forward :
    let initzers : List (MemberInitializer (BitVec 64)) :=
      [⟨.none, 5⟩, ⟨.index 3, 7⟩, ⟨.none, 9⟩]
    InfersLen (elemIndices constants () 0 initzers) 5 ↔
      ∀ last ∈ (elemIndices constants () 0 initzers).getLast?,
        (∀ i ∈ elemIndices constants () 0 initzers, i ≤ last) ∧ last + 1 < 2 ^ 64 :=
  arrayLit_infersLen (r := ⟨5, true⟩) (by decide)

/-- The literal that jumps back is accepted with one element, and sets the third. -/
theorem not_infersLen_jumpingBack :
    resolveExprArrayLit constants () 0 jumpingBack = .ok ⟨1, true⟩ ∧
      ¬ InfersLen (elemIndices constants () 0 jumpingBack) 1 := by
  refine ⟨by decide, fun h => ?_⟩
  exact absurd (h.1 2 (by decide)) (by decide)

end Nibble.Resolve
