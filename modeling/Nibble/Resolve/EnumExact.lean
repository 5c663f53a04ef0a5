import Mathlib.Data.List.Pairwise
import Nibble.Resolve.Enum
import Nibble.Resolve.NormalExact
import Nibble.Resolve.TotalExact

/-!
# Which enums are accepted

The value of an item is the number that is written or one more than the value before. An explicit
value is checked through its 64 bits, read with the sign of the base. Where these are in the
range of the base exactly if the number is, and have its sign, every item has its value and its
bits are those of the value; then the sort by the bits is one by the values, and the neighbours
that are compared find every value that is repeated.
-/

namespace Nibble.Resolve

open Nibble.Lib (Fallible)
open Nibble.Lib.Fallible

/-- A constant of an integer type. -/
structure IntConst where
  type : Ty
  kind : IntegerKind
  intKind : intKind? type = some kind
  imm : Scalar

namespace IntConst

def eop (c : IntConst) : Eop := opFromConst c.type c.imm

/-- The number that is written. -/
def number (c : IntConst) : Int := c.imm.value c.kind

/-- The number that the 64 bits are with the sign of the base. -/
def seen (c : IntConst) (base : IntegerKind) : Int := c.imm.view (intKindSigned base)

end IntConst

/-- The numbers that a base has, of `bool` the two truth values. -/
def InBase (base : IntegerKind) (n : Int) : Prop := intKindMin base ≤ n ∧ n ≤ intKindMax base

instance (base : IntegerKind) (n : Int) : Decidable (InBase base n) :=
  inferInstanceAs (Decidable (intKindMin base ≤ n ∧ n ≤ intKindMax base))

/-- The value of an item: the number that is written, or one more than the value before. -/
def enumNumber (prev : Option Int) (item : Option IntConst) : Int :=
  match item, prev with
  | some c, _ => c.number
  | none, some n => n + 1
  | none, none => 0

def enumNumbers : Option Int → List (Option IntConst) → List Int
  | _, [] => []
  | prev, item :: items =>
    enumNumber prev item :: enumNumbers (some (enumNumber prev item)) items

/-- The 64 bits of an explicit value are in the range of the base exactly if the number is, and
then have the sign of the number, where the base leaves bits above. -/
def IntConst.Suits (c : IntConst) (base : IntegerKind) : Prop :=
  (InBase base (c.seen base) ↔ InBase base c.number) ∧
    (InBase base c.number → bitsOf base < 64 → (c.seen base < 0 ↔ c.number < 0))

instance (c : IntConst) (base : IntegerKind) : Decidable (c.Suits base) :=
  inferInstanceAs (Decidable ((InBase base (c.seen base) ↔ InBase base c.number) ∧
    (InBase base c.number → bitsOf base < 64 → (c.seen base < 0 ↔ c.number < 0))))

section

variable (M : Machine) (id : Nat) (typespec : Option Ty) (base : IntegerKind)

/-- An enum is accepted if its values are in the range of the base and different, and then its
items are sorted by value, each with its own. -/
structure EnumMeets (items : List (Option IntConst)) : Prop where
  total : (resolveDeclEnum M id typespec (items.map (·.map IntConst.eop))).Total
  accepted_iff : (∃ syms, (resolveDeclEnum M id typespec (items.map (·.map IntConst.eop))).Gives syms) ↔
    (∀ n ∈ enumNumbers none items, InBase base n) ∧ (enumNumbers none items).Nodup
  perm : ∀ syms, (resolveDeclEnum M id typespec (items.map (·.map IntConst.eop))).Gives syms →
    (syms.toList.map fun sym => (sym.imm.value base, sym.index)).Perm
      (enumNumbers none items).zipIdx
  sorted : ∀ syms, (resolveDeclEnum M id typespec (items.map (·.map IntConst.eop))).Gives syms →
    syms.toList.Pairwise fun a b => a.imm.value base < b.imm.value base

end

/-! ## The sort -/

/-- Two elements of a list are related one way or the other. -/
theorem rel_or_rel {α : Type} {R : α → α → Prop} {l : List α} (h : l.Pairwise R) {a b : α}
    (ha : a ∈ l) (hb : b ∈ l) (hne : a ≠ b) : R a b ∨ R b a :=
  have hsymm : Std.Symm fun x y => R x y ∨ R y x := ⟨fun _ _ h => h.symm⟩
  @List.Pairwise.forall _ (fun x y => R x y ∨ R y x) _ hsymm (h.imp Or.inl) _ ha _ hb hne

/-- Sorted by the bits, neighbours differ exactly if all do. -/
theorem repeatedEnumValue_eq_false_iff {isSigned : Bool} {syms : List EnumSym}
    (hsorted : syms.Pairwise fun a b => a.imm.view isSigned ≤ b.imm.view isSigned) :
    repeatedEnumValue syms = false ↔
      syms.Pairwise fun a b => a.imm.view isSigned < b.imm.view isSigned := by
  have hlt : ∀ a b : EnumSym, a.imm.view isSigned ≤ b.imm.view isSigned →
      (a.imm ≠ b.imm ↔ a.imm.view isSigned < b.imm.view isSigned) := by
    intro a b hle
    rw [lt_iff_le_and_ne, and_iff_right hle]
    exact not_congr ⟨fun h => h ▸ rfl, view_inj isSigned⟩
  induction syms with
  | nil => simp [repeatedEnumValue]
  | cons a rest ih =>
    obtain ⟨hhead, htail⟩ := List.pairwise_cons.mp hsorted
    cases rest with
    | nil => simp [repeatedEnumValue]
    | cons b rest =>
      have hab := hlt a b (hhead b List.mem_cons_self)
      have hrest := ih htail
      rw [repeatedEnumValue, Bool.or_eq_false_iff, decide_eq_false_iff_not, List.pairwise_cons]
      refine (and_congr hab hrest).trans (and_congr_left fun hpair => ⟨fun h c hc => ?_, fun h => ?_⟩)
      rcases List.mem_cons.mp hc with rfl | hc
      · exact h
      · exact h.trans ((List.pairwise_cons.mp hpair).1 c hc)
      · exact h b List.mem_cons_self

/-- The items are sorted by their bits, unless two of them have the same ones. -/
theorem sortEnumItems_spec (base : IntegerKind) (items : List Eop) :
    ((items.map (·.imm)).Nodup ∧ ∃ sorted : Array EnumSym, sortEnumItems base items = pure sorted ∧
      sorted.toList.Perm (items.zipIdx.map fun (item, index) => ⟨index, item.imm⟩) ∧
      sorted.toList.Pairwise fun a b =>
        a.imm.view (intKindSigned base) < b.imm.view (intKindSigned base)) ∨
    (¬ (items.map (·.imm)).Nodup ∧ sortEnumItems base items = failure) := by
  obtain ⟨sorted, hrun, hperm, hsorted⟩ := @Lib.Quicksort.quicksort_perm EnumSym Int
    (cmpLteqEnumSyms (intKindSigned base)) _ (fun a => a.imm.view (intKindSigned base))
    (fun _ => True) (items.zipIdx.map fun (item, index) => EnumSym.mk index item.imm).toArray
    (fun _ _ => trivial) (fun a b _ => decide_eq_true_iff)
  have himms : (items.zipIdx.map fun (item, index) => EnumSym.mk index item.imm).map (·.imm) =
      items.map (·.imm) := by
    rw [List.map_map]
    conv_rhs => rw [← List.zipIdx_map_fst 0 items, List.map_map]
    rfl
  have hstrict := repeatedEnumValue_eq_false_iff hsorted
  have hnodup : (items.map (·.imm)).Nodup ↔ repeatedEnumValue sorted.toList = false := by
    rw [hstrict, ← himms, ← (hperm.map (·.imm)).nodup_iff]
    unfold List.Nodup
    rw [List.pairwise_map]
    constructor
    · intro h
      refine (hsorted.and h).imp fun hle => lt_of_le_of_ne hle.1 fun heq => ?_
      exact hle.2 (view_inj _ heq)
    · refine fun h => h.imp fun hlt heq => ?_
      rw [heq] at hlt
      exact lt_irrefl _ hlt
  unfold sortEnumItems
  simp only [qsortEnumSyms, hrun]
  by_cases h : (items.map (·.imm)).Nodup
  · refine .inl ⟨h, sorted, ?_, hperm, hstrict.mp (hnodup.mp h)⟩
    rw [hnodup.mp h]
    rfl
  · refine .inr ⟨h, ?_⟩
    rw [Bool.eq_true_of_not_eq_false (mt hnodup.mpr h)]
    rfl

/-! ## The bits of a cast -/

theorem Scalar.sign_eq (s : Scalar) (k : IntegerKind) : s.sign k = decide (s.value k < 0) := by
  unfold sign value
  split
  · rename_i hs
    have hpos := (bitsOf_le k).1
    rw [hs, Bool.true_and, ← BitVec.msb_eq_toInt, BitVec.msb_eq_getLsbD_last]
    simp [hpos]
  · rename_i hs
    rw [Bool.not_eq_true] at hs
    rw [hs, Bool.false_and]
    exact (decide_eq_false (Int.not_lt.mpr (Int.natCast_nonneg _))).symm

/-- A bit above a member is the sign of all 64. -/
theorem Scalar.Above.unique {s : Scalar} {k : IntegerKind} {b : Bool} (h : s.Above k b)
    (hbits : bitsOf k < 64) : b = decide (s.toInt < 0) := by
  have hbit := h 63 (by omega) (by omega)
  rw [← BitVec.msb_eq_toInt, BitVec.msb_eq_getLsbD_last]
  exact hbit.symm

theorem InBase.inRange {base : IntegerKind} {n : Int} (h : InBase base n) : InRange base n := by
  have hbounds : lowest base = intKindMin base ∧ (intKindMax base : Int) ≤ highest base := by
    cases base <;> decide
  exact ⟨hbounds.1 ▸ h.1, h.2.trans hbounds.2⟩

theorem castValue_of_inBase {base : IntegerKind} {n : Int} (h : InBase base n) :
    castValue base n = n := by
  unfold castValue
  split
  · rename_i hbool
    subst hbool
    have hlo : 0 ≤ n := h.1
    have hhi : n ≤ 1 := h.2
    split <;> omega
  · exact wrap_eq_self h.inRange

section

variable {base : IntegerKind} {c : IntConst}

/-- A cast to the base writes its member, and leaves the bits above. -/
theorem IntConst.cast_write (c : IntConst) (base : IntegerKind) :
    ∃ v, intCast c.imm c.kind base = Scalar.write c.imm base v := by
  cases base <;> exact ⟨_, rfl⟩

/-- A value that fits has its number after the cast. -/
theorem IntConst.value_cast (hnumber : InBase base c.number) :
    (intCast c.imm c.kind base).value base = c.number := by
  rw [Scalar.value_intCast_castValue]
  exact castValue_of_inBase hnumber

/-- The bits above the member are those of the sign of what was seen. -/
theorem IntConst.above_cast (hseen : InBase base (c.seen base)) :
    (intCast c.imm c.kind base).Above base (decide (c.seen base < 0)) := by
  obtain ⟨v, hv⟩ := c.cast_write base
  have hnormal : Scalar.Normal c.imm base := by
    rw [Scalar.normal_iff, wideKind, ← Scalar.view_eq_value]
    exact hseen.inRange
  have hvalue : c.seen base = Scalar.value c.imm base := by
    have hread := Scalar.value_eq c.imm base
    rw [show c.imm.read base = c.imm from hnormal] at hread
    exact hread.symm
  rw [hv, Scalar.above_write, hvalue, ← Scalar.sign_eq]
  exact Scalar.normal_iff_above.mp hnormal

/-- The cast has the bits of its number exactly if the sign that was seen is that of the number. -/
theorem IntConst.normal_cast_iff (hseen : InBase base (c.seen base))
    (hnumber : InBase base c.number) : (intCast c.imm c.kind base).Normal base ↔
      (bitsOf base < 64 → (c.seen base < 0 ↔ c.number < 0)) := by
  have habove := IntConst.above_cast hseen
  rw [Scalar.normal_iff_above, Scalar.sign_eq, IntConst.value_cast hnumber]
  constructor
  · intro h hbits
    have heq := (habove.unique hbits).trans (h.unique hbits).symm
    exact decide_eq_decide.mp heq
  · intro h
    by_cases hbits : bitsOf base < 64
    · rw [← decide_eq_decide.mpr (h hbits)]
      exact habove
    · intro i hlow hi
      omega

/-- What a base sees of its own numbers. -/
theorem view_ofInt {n : Int} (h : InBase base n) :
    Scalar.view (BitVec.ofInt 64 n) (intKindSigned base) = n := by
  rw [Scalar.view_eq_value, Scalar.value_ofInt]
  exact wrap_eq_self (Scalar.inRange_64 h.inRange)

theorem value_ofInt_of_inBase {n : Int} (h : InBase base n) :
    Scalar.value (BitVec.ofInt 64 n) base = n := by
  rw [Scalar.value_ofInt]
  exact wrap_eq_self h.inRange

end

/-! ## One item -/

section

variable {M : Machine} {id : Nat} {base : IntegerKind}

theorem valueInIntRange_iff {value : Scalar} :
    valueInIntRange value base = true ↔ InBase base (value.view (intKindSigned base)) := by
  unfold valueInIntRange InBase
  rw [Bool.and_eq_true, decide_eq_true_iff, decide_eq_true_iff]

/-- An explicit value is checked by its bits. -/
theorem resolveEnumValue_eq (c : IntConst) :
    resolveEnumValue M id base c.eop =
      if InBase base (c.seen base) then
        pure (opFromConst (.enum id base) (intCast c.imm c.kind base))
      else failure := by
  have hlike : c.type.isIntegerLike = true := isIntegerLike_iff.mpr ⟨_, c.intKind⟩
  have hscalar : c.type.isScalar = true := by
    rcases eq_of_intKind c.intKind with h | ⟨id, h⟩ <;> rw [h] <;> rfl
  unfold resolveEnumValue
  rw [if_neg (by simp [IntConst.eop, opFromConst]), if_neg (by simp [IntConst.eop, opFromConst, hlike])]
  by_cases hrange : InBase base (c.seen base)
  · have hcheck : valueInIntRange c.eop.imm base = true := valueInIntRange_iff.mpr hrange
    rw [if_pos hrange, if_neg (by simp [hcheck])]
    have hconv : convertOrReport M c.eop (.enum id base) true =
        pure (opFromConst (.enum id base) (intCast c.imm c.kind base)) := by
      unfold convertOrReport
      rw [@convertEop_int M.rels M.conv _ _ _ _ c.intKind rfl true]
      rfl
    obtain ⟨e, he⟩ := @tryWrapCast_total (opFromConst (.enum id base) (intCast c.imm c.kind base))
      c.eop (settled_opFromConst hscalar _) ⟨rfl, rfl⟩
    rw [hconv, pure_bind, he]
    rfl
  · have hcheck : ¬ valueInIntRange c.eop.imm base = true := mt valueInIntRange_iff.mp hrange
    rw [if_neg hrange, if_pos (by simpa using hcheck)]

/-- An item with the value `n`. -/
def enumItem (id : Nat) (base : IntegerKind) (n : Int) : Eop :=
  opFromConst (.enum id base) (BitVec.ofInt 64 n)

/-- The item behind one with the value `n`. -/
theorem resolveEnumNext_eq {n : Int} (hn : InBase base n) :
    resolveEnumNext M (enumItem id base n) =
      if InBase base (n + 1) then pure (enumItem id base (n + 1)) else failure := by
  have hmax : valueIsIntMax (BitVec.ofInt 64 n) base = true ↔ ¬ InBase base (n + 1) := by
    unfold valueIsIntMax
    rw [decide_eq_true_iff, view_ofInt hn]
    unfold InBase at hn ⊢
    omega
  have hone : (1 : Scalar).read base = BitVec.ofInt 64 1 := by cases base <;> decide
  have hrun : resolveEnumNext M (enumItem id base n) =
      if valueIsIntMax (BitVec.ofInt 64 n) base then failure
      else liftM (evalBinaryOp M .plus (.enum id base) (BitVec.ofInt 64 n) 1) := rfl
  rw [hrun]
  by_cases hnext : InBase base (n + 1)
  · rw [if_neg (mt hmax.mp (not_not.mpr hnext)), if_pos hnext, evalBinaryOp_int rfl, hone,
      Scalar.read_eq_ofInt, value_ofInt_of_inBase hn]
    have hsum : evalBinaryOp64bit M.undef .plus (intKindSigned base) (BitVec.ofInt 64 n)
        (BitVec.ofInt 64 1) = .ok (BitVec.ofInt 64 (n + 1)) := by
      rw [BitVec.ofInt_add]
      cases intKindSigned base <;> rfl
    have hcast : intCast (BitVec.ofInt 64 (n + 1)) (wideKind base) base =
        BitVec.ofInt 64 (n + 1) := by
      by_cases hbool : base = .bool
      · subst hbool
        have hlo : 0 ≤ n := hn.1
        have hhi : n + 1 ≤ 1 := hnext.2
        obtain rfl : n = 0 := by omega
        decide
      · exact (Scalar.normal_wideKind _ base).intCast_eq hbool
    rw [hsum]
    simp only [Except.map, hcast]
    rfl
  · rw [if_pos (hmax.mpr hnext), if_neg hnext]

/-- An item is accepted with its value exactly if the base has it. -/
theorem resolveEnumItem_eq {prev : Option Int} (hprev : ∀ n ∈ prev, InBase base n)
    {item : Option IntConst} (hitem : ∀ c ∈ item, c.Suits base) :
    resolveEnumItem M id base (prev.map (enumItem id base)) (item.map IntConst.eop) =
      if InBase base (enumNumber prev item) then pure (enumItem id base (enumNumber prev item))
      else failure := by
  cases item with
  | some c =>
    have hsuits := hitem c rfl
    have hrun : resolveEnumItem M id base (prev.map (enumItem id base)) ((some c).map IntConst.eop) =
        resolveEnumValue M id base c.eop := by
      cases prev <;> rfl
    have hnumber : enumNumber prev (some c) = c.number := by cases prev <;> rfl
    rw [hrun, resolveEnumValue_eq, hnumber]
    by_cases hin : InBase base c.number
    · rw [if_pos hin, if_pos (hsuits.1.mpr hin)]
      have hnormal := (IntConst.normal_cast_iff (hsuits.1.mpr hin) hin).mpr (hsuits.2 hin)
      rw [hnormal.eq_ofInt, IntConst.value_cast hin]
      rfl
    · rw [if_neg hin, if_neg (mt hsuits.1.mp hin)]
  | none =>
    cases prev with
    | some n => exact resolveEnumNext_eq (hprev n rfl)
    | none =>
      have hzero : InBase base 0 := by cases base <;> decide
      exact (if_pos hzero).symm

theorem resolveEnumItems_eq {prev : Option Int} (hprev : ∀ n ∈ prev, InBase base n)
    {items : List (Option IntConst)} (hitems : ∀ c, some c ∈ items → c.Suits base) :
    resolveEnumItems M id base (prev.map (enumItem id base)) (items.map (·.map IntConst.eop)) =
      if ∀ n ∈ enumNumbers prev items, InBase base n then
        pure ((enumNumbers prev items).map (enumItem id base))
      else failure := by
  induction items generalizing prev with
  | nil => simp [resolveEnumItems, enumNumbers]
  | cons item items ih =>
    have hitem : ∀ c ∈ item, c.Suits base := fun c hc => hitems c (hc ▸ List.mem_cons_self)
    rw [List.map_cons, resolveEnumItems, resolveEnumItem_eq hprev hitem, enumNumbers]
    by_cases hin : InBase base (enumNumber prev item)
    · have hrest := @ih (some (enumNumber prev item)) (fun n hn => Option.some.inj hn ▸ hin)
        fun c hc => hitems c (List.mem_cons_of_mem item hc)
      rw [if_pos hin, pure_bind]
      rw [Option.map_some] at hrest
      rw [hrest]
      by_cases hall : ∀ n ∈ enumNumbers (some (enumNumber prev item)) items, InBase base n
      · rw [if_pos hall, pure_bind, if_pos (List.forall_mem_cons.mpr ⟨hin, hall⟩)]
        rfl
      · rw [if_neg hall, if_neg fun h => hall (List.forall_mem_cons.mp h).2]
        rfl
    · rw [if_neg hin, if_neg fun h => hin (List.forall_mem_cons.mp h).1]
      rfl

end

/-! ## Declarations -/

section

variable {M : Machine} {id : Nat} {typespec : Option Ty} {base : IntegerKind}

theorem resolveDeclEnum_eq (hbase : typespec.getD (.integer .s32) = .integer base)
    (values : List (Option Eop)) : resolveDeclEnum M id typespec values =
      resolveEnumItems M id base none values >>= sortEnumItems base := by
  unfold resolveDeclEnum
  rw [hbase]

theorem imms_nodup_iff {ns : List Int} (hin : ∀ n ∈ ns, InBase base n) :
    ((ns.map (enumItem id base)).map (·.imm)).Nodup ↔ ns.Nodup := by
  rw [List.map_map]
  refine ⟨fun h => h.of_map _, fun h => h.map_on fun m hm n hn heq => ?_⟩
  have hview := congrArg (Scalar.view · (intKindSigned base)) heq
  exact (view_ofInt (hin m hm)).symm.trans (hview.trans (view_ofInt (hin n hn)))

theorem EnumMeets.of_pure {items : List (Option IntConst)} {syms : Array EnumSym}
    (hrun : resolveDeclEnum M id typespec (items.map (·.map IntConst.eop)) = pure syms)
    (hin : ∀ n ∈ enumNumbers none items, InBase base n) (hnodup : (enumNumbers none items).Nodup)
    (hperm : (syms.toList.map fun sym => (sym.imm.value base, sym.index)).Perm
      (enumNumbers none items).zipIdx)
    (hsorted : syms.toList.Pairwise fun a b => a.imm.value base < b.imm.value base) :
    EnumMeets M id typespec base items := by
  refine ⟨?_, ?_, fun syms' h => ?_, fun syms' h => ?_⟩
  · rw [hrun]
    exact total_pure
  · rw [hrun]
    exact iff_of_true ⟨syms, gives_pure.mpr rfl⟩ ⟨hin, hnodup⟩
  · rw [hrun, gives_pure] at h
    exact h ▸ hperm
  · rw [hrun, gives_pure] at h
    exact h ▸ hsorted

theorem EnumMeets.of_failure {items : List (Option IntConst)}
    (hrun : resolveDeclEnum M id typespec (items.map (·.map IntConst.eop)) = failure)
    (hnot : ¬ ((∀ n ∈ enumNumbers none items, InBase base n) ∧ (enumNumbers none items).Nodup)) :
    EnumMeets M id typespec base items := by
  refine ⟨?_, ?_, fun syms h => ?_, fun syms h => ?_⟩
  · rw [hrun]
    exact total_failure
  · rw [hrun]
    exact iff_of_false (fun ⟨_, h⟩ => not_gives_failure h) hnot
  · rw [hrun] at h
    exact absurd h not_gives_failure
  · rw [hrun] at h
    exact absurd h not_gives_failure

/-- The symbols of items that have the bits of their values. -/
theorem enumSyms_values {ns : List Int} (hin : ∀ n ∈ ns, InBase base n) :
    ((ns.map (enumItem id base)).zipIdx.map fun (item, index) => EnumSym.mk index item.imm).map
      (fun sym => (sym.imm.value base, sym.index)) = ns.zipIdx := by
  rw [List.zipIdx_map, List.map_map, List.map_map]
  conv_rhs => rw [← List.map_id ns.zipIdx]
  refine List.map_congr_left fun ⟨n, index⟩ hmem => ?_
  have hn := hin n (List.fst_mem_of_mem_zipIdx hmem)
  exact Prod.ext (value_ofInt_of_inBase hn) rfl

/-- Constants that suit the base make enums that meet what is asked of them. -/
theorem enumMeets_of_suits (hbase : typespec.getD (.integer .s32) = .integer base)
    {items : List (Option IntConst)} (hitems : ∀ c, some c ∈ items → c.Suits base) :
    EnumMeets M id typespec base items := by
  have hrun := @resolveDeclEnum_eq M id typespec base hbase (items.map (·.map IntConst.eop))
  have hsteps := @resolveEnumItems_eq M id base none nofun items hitems
  rw [Option.map_none] at hsteps
  rw [hsteps] at hrun
  by_cases hin : ∀ n ∈ enumNumbers none items, InBase base n
  · rw [if_pos hin, pure_bind] at hrun
    rcases sortEnumItems_spec base ((enumNumbers none items).map (enumItem id base)) with
      ⟨hnodup, sorted, hsort, hperm, hsorted⟩ | ⟨hdup, hsort⟩
    · have hvalues := @enumSyms_values id base _ hin
      refine .of_pure (hrun.trans hsort) hin ((imms_nodup_iff hin).mp hnodup) ?_ ?_
      · exact hvalues ▸ hperm.map _
      · -- the bits of a symbol are those of its value, so their order is that of the values
        have hview : ∀ sym ∈ sorted.toList,
            sym.imm.view (intKindSigned base) = sym.imm.value base := by
          intro sym hsym
          obtain ⟨⟨item, index⟩, hmem, rfl⟩ := List.mem_map.mp (hperm.mem_iff.mp hsym)
          obtain ⟨n, hn, rfl⟩ := List.mem_map.mp (List.fst_mem_of_mem_zipIdx hmem)
          exact (view_ofInt (hin n hn)).trans (value_ofInt_of_inBase (hin n hn)).symm
        refine hsorted.imp_of_mem fun ha hb hlt => ?_
        rwa [hview _ ha, hview _ hb] at hlt
    · exact .of_failure (hrun.trans hsort) fun h => hdup ((imms_nodup_iff hin).mpr h.2)
  · rw [if_neg hin] at hrun
    exact .of_failure hrun fun h => hin h.1

theorem resolveEnumItems_explicit (prev : Option Eop) (c : IntConst) (values : List (Option Eop)) :
    resolveEnumItems M id base prev (some c.eop :: values) =
      if InBase base (c.seen base) then do
        let item := opFromConst (.enum id base) (intCast c.imm c.kind base)
        let items ← resolveEnumItems M id base (some item) values
        pure (item :: items)
      else failure := by
  have hrun : resolveEnumItem M id base prev (some c.eop) = resolveEnumValue M id base c.eop := by
    cases prev <;> rfl
  rw [resolveEnumItems, hrun, resolveEnumValue_eq]
  by_cases hseen : InBase base (c.seen base)
  · rw [if_pos hseen, if_pos hseen, pure_bind]
  · rw [if_neg hseen, if_neg hseen]
    rfl

/-- An enum of one explicit item is accepted if its bits are in the range of the base. -/
theorem resolveDeclEnum_single (hbase : typespec.getD (.integer .s32) = .integer base)
    (c : IntConst) : (∃ syms, (resolveDeclEnum M id typespec [some c.eop]).Gives syms) ↔
      InBase base (c.seen base) := by
  rw [resolveDeclEnum_eq hbase, resolveEnumItems_explicit]
  by_cases hseen : InBase base (c.seen base)
  · rw [if_pos hseen]
    refine iff_of_true ?_ hseen
    rcases sortEnumItems_spec base [opFromConst (.enum id base) (intCast c.imm c.kind base)] with
      ⟨-, sorted, hsort, -⟩ | ⟨hdup, -⟩
    · exact ⟨sorted, gives_bind.mpr ⟨_, gives_pure.mpr rfl, hsort ▸ gives_pure.mpr rfl⟩⟩
    · exact absurd (List.nodup_singleton _) hdup
  · rw [if_neg hseen]
    exact iff_of_false (fun ⟨_, h⟩ => not_gives_failure h) hseen

/-- A cast that has not the bits of its number is sorted to the wrong side of zero. -/
theorem sign_of_enumMeets (hbase : typespec.getD (.integer .s32) = .integer base) {c : IntConst}
    (hseen : InBase base (c.seen base)) (hnumber : InBase base c.number)
    (hmeets : EnumMeets M id typespec base [none, some c]) (hbits : bitsOf base < 64) :
    c.seen base < 0 ↔ c.number < 0 := by
  by_cases hnormal : (intCast c.imm c.kind base).Normal base
  · exact (IntConst.normal_cast_iff hseen hnumber).mp hnormal hbits
  have hne : intCast c.imm c.kind base ≠ 0 := fun h => hnormal (h ▸ normal_zero base)
  have hrun : resolveDeclEnum M id typespec ([none, some c].map (·.map IntConst.eop)) =
      sortEnumItems base [enumItem id base 0,
        opFromConst (.enum id base) (intCast c.imm c.kind base)] := by
    have hzero : resolveEnumItem M id base none none = pure (enumItem id base 0) := rfl
    rw [resolveDeclEnum_eq hbase, List.map_cons, List.map_cons, Option.map_none, Option.map_some,
      resolveEnumItems, hzero, pure_bind, resolveEnumItems_explicit, if_pos hseen]
    rfl
  rcases sortEnumItems_spec base [enumItem id base 0,
      opFromConst (.enum id base) (intCast c.imm c.kind base)] with
    ⟨-, sorted, hsort, hperm, hviews⟩ | ⟨hdup, -⟩
  · have hvalues := hmeets.sorted sorted (by rw [hrun, hsort]; exact gives_pure.mpr rfl)
    have hfirst : (⟨0, BitVec.ofInt 64 0⟩ : EnumSym) ∈ sorted.toList :=
      hperm.mem_iff.mpr List.mem_cons_self
    have hsecond : (⟨1, intCast c.imm c.kind base⟩ : EnumSym) ∈ sorted.toList :=
      hperm.mem_iff.mpr (List.mem_cons_of_mem _ List.mem_cons_self)
    have hzero : InBase base 0 := by cases base <;> decide
    have hview := view_ofInt hzero
    have hvalue := value_ofInt_of_inBase hzero
    have hcast := IntConst.value_cast hnumber
    have hsign := decide_eq_decide.mp ((IntConst.above_cast hseen).unique hbits)
    have hboth := rel_or_rel (hviews.and hvalues) hfirst hsecond (by simp)
    rw [hview, hvalue, hcast] at hboth
    -- the cast is on one side of zero by its bits and by its number
    cases hs : intKindSigned base with
    | true =>
      rw [hs] at hboth
      change (0 < (intCast c.imm c.kind base).toInt ∧ 0 < c.number) ∨
        ((intCast c.imm c.kind base).toInt < 0 ∧ c.number < 0) at hboth
      omega
    | false =>
      have hmin : intKindMin base = 0 := by
        revert hs
        cases base <;> decide
      have h1 := hseen.1
      have h2 := hnumber.1
      omega
  · exact absurd (List.nodup_cons.mpr ⟨by simpa [enumItem, opFromConst] using Ne.symm hne,
      List.nodup_singleton _⟩) hdup

end

end Nibble.Resolve
