import Nibble.IR.SwitchJump

/-!
# Which case the dispatch selects

The dispatch compares words of 64 bits and ranges of 32 bits. Between the smallest and the
largest value of the cases it is exact as long as their distance fits 32 bits, for words
whose number at 64 bits is the value that is switched on.
-/

namespace Nibble.IR

open Nibble.Lib Nibble.Resolve

theorem findIdx_congr {α : Type} {p q : α → Bool} {l : List α} (h : ∀ x ∈ l, p x = q x) :
    l.findIdx p = l.findIdx q := by
  induction l with
  | nil => rfl
  | cons a l ih =>
    rw [List.findIdx_cons, List.findIdx_cons, h a (List.mem_cons_self ..),
      ih fun x hx => h x (List.mem_cons_of_mem _ hx)]

/-! ## The index in numbers -/

section

variable {isSigned : Bool} {infos : List CaseInfo} {first last c : CaseInfo} {w : Word}

/-- The test of a range by the low 32 bits of the distances from the smallest value. -/
def inRange32 (isSigned : Bool) (min x : Int) (c : CaseInfo) : Bool :=
  (c.key isSigned - min) % 2 ^ 32 ≤ (x - min) % 2 ^ 32 ∧
    (x - min) % 2 ^ 32 ≤ (c.stopKey isSigned - min) % 2 ^ 32

theorem setWidth_sub_toNat {l r : Scalar} (h : Scalar.view r isSigned ≤ Scalar.view l isSigned) :
    (((l - r).setWidth 32).toNat : Int) =
      (Scalar.view l isSigned - Scalar.view r isSigned) % 2 ^ 32 := by
  rw [BitVec.toNat_setWidth, Int.natCast_emod, toNat_sub_of_le isSigned h]
  rfl

theorem le_setWidth_iff {l l' r : Scalar} (h : Scalar.view r isSigned ≤ Scalar.view l isSigned)
    (h' : Scalar.view r isSigned ≤ Scalar.view l' isSigned) :
    (l - r).setWidth 32 ≤ (l' - r).setWidth 32 ↔
      (Scalar.view l isSigned - Scalar.view r isSigned) % 2 ^ 32 ≤
        (Scalar.view l' isSigned - Scalar.view r isSigned) % 2 ^ 32 := by
  rw [BitVec.le_def, ← setWidth_sub_toNat h, ← setWidth_sub_toNat h', Int.ofNat_le]

/-- Where the first case begins and the last one ends, with all cases between. -/
structure Spans (isSigned : Bool) (infos : List CaseInfo) (first last : CaseInfo) : Prop where
  low : ∀ c ∈ infos, first.key isSigned ≤ c.key isSigned
  high : ∀ c ∈ infos, c.stopKey isSigned ≤ last.stopKey isSigned
  proper : ∀ c ∈ infos, c.Proper isSigned
  order : first.key isSigned ≤ last.stopKey isSigned

theorem dispatchIndex_outside (h : Spans isSigned infos first last)
    (hx : Scalar.view w isSigned < first.key isSigned ∨
      last.stopKey isSigned < Scalar.view w isSigned) :
    dispatchIndex infos first.start last.stop w = infos.length := by
  have horder := h.order
  unfold CaseInfo.key CaseInfo.stopKey at hx horder
  have hspan := toNat_sub_of_le isSigned horder
  unfold dispatchIndex
  apply if_pos
  rw [BitVec.lt_def, ← Int.ofNat_lt, hspan]
  rcases hx with hx | hx
  · rw [toNat_sub_of_lt isSigned hx]
    have hle := toNat_sub_of_le isSigned (show Scalar.view w isSigned ≤ Scalar.view last.stop isSigned
      by omega)
    have hlt := (last.stop - w).isLt
    omega
  · rw [toNat_sub_of_le isSigned (by omega)]
    omega

theorem dispatchIndex_inside (h : Spans isSigned infos first last)
    (hlow : first.key isSigned ≤ Scalar.view w isSigned)
    (hhigh : Scalar.view w isSigned ≤ last.stopKey isSigned) :
    dispatchIndex infos first.start last.stop w =
      infos.findIdx (inRange32 isSigned (first.key isSigned) (Scalar.view w isSigned)) := by
  have horder := h.order
  unfold dispatchIndex
  rw [if_neg, List.findIdx_map]
  · apply findIdx_congr
    intro c hc
    have hkey := h.low c hc
    have hstop := Int.le_trans hkey (h.proper c hc)
    unfold CaseInfo.key CaseInfo.stopKey at *
    unfold inRange32 caseRange CaseInfo.key CaseInfo.stopKey
    rw [Bool.decide_and]
    exact congrArg₂ _ (decide_eq_decide.mpr (le_setWidth_iff hkey hlow))
      (decide_eq_decide.mpr (le_setWidth_iff hlow hstop))
  · unfold CaseInfo.key CaseInfo.stopKey at *
    rw [BitVec.lt_def, ← Int.ofNat_lt, toNat_sub_of_le isSigned horder,
      toNat_sub_of_le isSigned hlow]
    omega

/-- Cases in order begin with the first one and end with the last one. -/
theorem Spans.of_ends {isSigned : Bool} {infos : Array CaseInfo}
    (ends : infos.toList.Pairwise fun a b => a.stopKey isSigned < b.key isSigned)
    (proper : ∀ c ∈ infos.toList, c.Proper isSigned) (hfirst : infos[0]? = some first)
    (hlast : infos[infos.size - 1]? = some last) : Spans isSigned infos.toList first last := by
  obtain ⟨hpos, rfl⟩ := Array.getElem?_eq_some_iff.mp hfirst
  obtain ⟨hend, rfl⟩ := Array.getElem?_eq_some_iff.mp hlast
  have hlt := List.pairwise_iff_getElem.mp ends
  have hproper : ∀ (k : Nat) (hk : k < infos.size), infos[k].Proper isSigned :=
    fun k hk => proper _ (by simp)
  have hhigh : ∀ c ∈ infos.toList, c.stopKey isSigned ≤
      infos[infos.size - 1].stopKey isSigned := by
    intro c hc
    obtain ⟨k, hk, rfl⟩ := List.getElem_of_mem hc
    rw [Array.length_toList] at hk
    rw [Array.getElem_toList]
    rcases Nat.lt_or_ge k (infos.size - 1) with hlt' | hge
    · exact Int.le_trans (Int.le_of_lt (hlt k _ (by simpa using hk) (by simpa using hend) hlt'))
        (hproper _ hend)
    · simp only [show k = infos.size - 1 by omega]
      exact Int.le_refl _
  refine ⟨?_, hhigh, proper, ?_⟩
  · intro c hc
    obtain ⟨k, hk, rfl⟩ := List.getElem_of_mem hc
    rw [Array.length_toList] at hk
    rw [Array.getElem_toList]
    rcases Nat.eq_zero_or_pos k with rfl | hk'
    · exact Int.le_refl _
    · exact Int.le_trans (hproper 0 hpos)
        (Int.le_of_lt (hlt 0 k (by simpa using hpos) (by simpa using hk) hk'))
  · exact Int.le_trans (hproper 0 hpos) (hhigh _ (by simp))

/-- Of cases in order that are close to each other, the target is that of the one that has the
word. -/
theorem dispatchIndex_find (h : Spans isSigned infos first last)
    (hclose : last.stopKey isSigned - first.key isSigned < 2 ^ 32) :
    infos[dispatchIndex infos first.start last.stop w]? = infos.find? fun c =>
      c.key isSigned ≤ Scalar.view w isSigned ∧ Scalar.view w isSigned ≤ c.stopKey isSigned := by
  by_cases hx : first.key isSigned ≤ Scalar.view w isSigned ∧
      Scalar.view w isSigned ≤ last.stopKey isSigned
  · rw [dispatchIndex_inside h hx.1 hx.2, List.find?_eq_getElem?_findIdx]
    congr 1
    apply findIdx_congr
    intro c hc
    have hlow := h.low c hc
    have hhigh := h.high c hc
    have hproper : c.key _ ≤ c.stopKey _ := h.proper c hc
    unfold inRange32
    rw [decide_eq_decide]
    omega
  · rw [dispatchIndex_outside h (by omega), List.getElem?_eq_none (Nat.le_refl _), eq_comm,
      List.find?_eq_none]
    intro c hc
    have hlow := h.low c hc
    have hhigh := h.high c hc
    rw [decide_eq_true_iff]
    omega

end

/-! ## The case that is selected -/

section

variable {stmt : StmtSwitch} {infos : Array CaseInfo} {v : Int} {i : Nat} {c : CaseInfo}

/-- The case whose statements are in the block of a target. -/
def targetCase (stmt : StmtSwitch) (infos : Array CaseInfo) (i : Nat) : Option Nat :=
  match infos[i]? with
  | some c => some c.index
  | none => stmt.defaultCaseIndex

/-- The value is in the case. -/
def Holds (stmt : StmtSwitch) (c : CaseInfo) (v : Int) : Prop :=
  Within (CaseInfo.key stmt.expr.type.isSigned) (CaseInfo.stopKey stmt.expr.type.isSigned) c v

theorem targetCase_some (hc : infos[i]? = some c) : targetCase stmt infos i = some c.index := by
  unfold targetCase
  rw [hc]

theorem targetCase_end (hi : infos.size ≤ i) : targetCase stmt infos i = stmt.defaultCaseIndex := by
  unfold targetCase
  rw [Array.getElem?_eq_none hi]

theorem selects_index (h : stmt.Sorted infos) (hc : c ∈ infos.toList) (hv : Holds stmt c v) :
    stmt.Selects v (some c.index) := by
  refine .inl ⟨_, h.mem_iff.mpr ⟨c, hc, rfl⟩, hv, rfl, fun r hr hw => ?_⟩
  obtain ⟨c', hc', rfl⟩ := h.mem_iff.mp hr
  rw [eq_of_within (h.ends.imp apart_of_lt) hc' hc hw hv]

theorem selects_default (h : stmt.Sorted infos) (hv : ∀ c ∈ infos.toList, ¬ Holds stmt c v) :
    stmt.Selects v stmt.defaultCaseIndex := by
  refine .inr ⟨fun r hr hw => ?_, rfl⟩
  obtain ⟨c, hc, rfl⟩ := h.mem_iff.mp hr
  exact hv c hc hw

theorem holds_of_selects (h : stmt.Sorted infos) (hc : c ∈ infos.toList)
    (hs : stmt.Selects v (some c.index)) : Holds stmt c v := by
  have hmem := h.mem_iff.mpr ⟨c, hc, rfl⟩
  rcases hs with ⟨r, hr, hw, hidx, -⟩ | ⟨-, hdef⟩
  · rw [← StmtSwitch.eq_of_index hmem hr (Option.some.inj hidx)] at hw
    exact hw
  · exact absurd hdef (StmtSwitch.index_ne_default hmem)

/-- A case that holds the value is the only one that is selected. -/
theorem target_of_holds (h : stmt.Sorted infos) (hc : c ∈ infos.toList) (hv : Holds stmt c v)
    {target : Option Nat} (hs : stmt.Selects v target) : target = some c.index := by
  have hmem := h.mem_iff.mpr ⟨c, hc, rfl⟩
  rcases hs with ⟨r, hr, hw, rfl, huniq⟩ | ⟨hnone, -⟩
  · rw [← huniq _ hmem hv]
    rfl
  · exact absurd hv (hnone _ hmem)

theorem selects_findIdx (h : stmt.Sorted infos) {p : CaseInfo → Bool}
    (hp : ∀ c ∈ infos.toList, p c = true ↔ Holds stmt c v) :
    stmt.Selects v (targetCase stmt infos (infos.toList.findIdx p)) := by
  by_cases hlt : infos.toList.findIdx p < infos.toList.length
  · have hmem := List.getElem_mem hlt
    have hget : infos[infos.toList.findIdx p]? = some (infos.toList[infos.toList.findIdx p]) := by
      rw [← Array.getElem?_toList, List.getElem?_eq_getElem hlt]
    rw [targetCase_some hget]
    exact selects_index h hmem ((hp _ hmem).mp List.findIdx_getElem)
  · rw [targetCase_end (by simpa using hlt)]
    refine selects_default h fun c hc hv => hlt ?_
    exact List.findIdx_lt_length_of_exists ⟨c, hc, (hp c hc).mpr hv⟩

variable {first last : CaseInfo} {w : Word}

theorem spans_of_sorted (h : stmt.Sorted infos) (hfirst : infos[0]? = some first)
    (hlast : infos[infos.size - 1]? = some last) :
    Spans stmt.expr.type.isSigned infos.toList first last :=
  .of_ends h.ends h.proper hfirst hlast

/-- Outside of all cases, the last target is taken. -/
theorem selects_outside (h : stmt.Sorted infos) (hs : Spans stmt.expr.type.isSigned infos.toList first last)
    (hx : Scalar.view w stmt.expr.type.isSigned < first.key stmt.expr.type.isSigned ∨
      last.stopKey stmt.expr.type.isSigned < Scalar.view w stmt.expr.type.isSigned) :
    stmt.Selects (Scalar.view w stmt.expr.type.isSigned)
      (targetCase stmt infos (dispatchIndex infos.toList first.start last.stop w)) := by
  rw [dispatchIndex_outside hs hx, Array.length_toList, targetCase_end (Nat.le_refl _)]
  refine selects_default h fun c hc hv => ?_
  have hlow := hs.low c hc
  have hhigh := hs.high c hc
  unfold Holds Within at hv
  omega

/-- Cases that are close to each other are told apart by 32 bits. -/
theorem selects_of_close (h : stmt.Sorted infos)
    (hs : Spans stmt.expr.type.isSigned infos.toList first last)
    (hclose : last.stopKey stmt.expr.type.isSigned - first.key stmt.expr.type.isSigned < 2 ^ 32) :
    stmt.Selects (Scalar.view w stmt.expr.type.isSigned)
      (targetCase stmt infos (dispatchIndex infos.toList first.start last.stop w)) := by
  by_cases hx : first.key stmt.expr.type.isSigned ≤ Scalar.view w stmt.expr.type.isSigned ∧
      Scalar.view w stmt.expr.type.isSigned ≤ last.stopKey stmt.expr.type.isSigned
  · rw [dispatchIndex_inside hs hx.1 hx.2]
    refine selects_findIdx h fun c hc => ?_
    have hlow := hs.low c hc
    have hhigh := hs.high c hc
    have hproper : c.key _ ≤ c.stopKey _ := hs.proper c hc
    unfold inRange32 Holds Within
    rw [decide_eq_true_iff]
    omega
  · exact selects_outside h hs (by omega)

/-- One case that is a multiple of 32 bits long takes every value between its ends. -/
theorem selects_of_single (h : stmt.Sorted #[c])
    (hlen : (c.stopKey stmt.expr.type.isSigned - c.key stmt.expr.type.isSigned + 1) % 2 ^ 32 = 0) :
    stmt.Selects (Scalar.view w stmt.expr.type.isSigned)
      (targetCase stmt #[c] (dispatchIndex [c] c.start c.stop w)) := by
  have hs : Spans stmt.expr.type.isSigned [c] c c := spans_of_sorted h rfl rfl
  by_cases hx : c.key stmt.expr.type.isSigned ≤ Scalar.view w stmt.expr.type.isSigned ∧
      Scalar.view w stmt.expr.type.isSigned ≤ c.stopKey stmt.expr.type.isSigned
  · rw [dispatchIndex_inside hs hx.1 hx.2]
    refine selects_findIdx h fun c' hc' => ?_
    obtain rfl : c' = c := by simpa using hc'
    unfold inRange32 Holds Within
    rw [decide_eq_true_iff]
    omega
  · exact selects_outside h hs (by omega)

section

variable (h : stmt.Sorted infos) (hfirst : infos[0]? = some first)
  (hs : Spans stmt.expr.type.isSigned infos.toList first last)
include h hfirst hs

/-- Where the low 32 bits are in the range of the first case, it is taken. -/
theorem holds_first {x : Int} (hx : Scalar.view w stmt.expr.type.isSigned = x)
    (hlow : first.key stmt.expr.type.isSigned ≤ x) (hhigh : x ≤ last.stopKey stmt.expr.type.isSigned)
    (hin : inRange32 stmt.expr.type.isSigned (first.key stmt.expr.type.isSigned) x first = true)
    (hsel : stmt.Selects x
      (targetCase stmt infos (dispatchIndex infos.toList first.start last.stop w))) :
    Holds stmt first x := by
  subst hx
  have hmem : first ∈ infos.toList := Array.mem_toList_iff.mpr (Array.mem_of_getElem? hfirst)
  have hidx : infos.toList.findIdx (inRange32 stmt.expr.type.isSigned
      (first.key stmt.expr.type.isSigned) (Scalar.view w stmt.expr.type.isSigned)) = 0 := by
    obtain ⟨hpos, hget⟩ := Array.getElem?_eq_some_iff.mp hfirst
    have hpos' : 0 < infos.toList.length := by simpa using hpos
    rw [List.findIdx_eq hpos', Array.getElem_toList, hget]
    exact ⟨hin, fun j hj => absurd hj (Nat.not_lt_zero j)⟩
  rw [dispatchIndex_inside hs hlow hhigh, hidx, targetCase_some hfirst] at hsel
  exact holds_of_selects h hmem hsel

/-- A value of the first case whose low 32 bits are not in its range is taken elsewhere. -/
theorem inRange32_of_holds {x : Int} (hx : Scalar.view w stmt.expr.type.isSigned = x)
    (hhold : Holds stmt first x)
    (hsel : stmt.Selects x
      (targetCase stmt infos (dispatchIndex infos.toList first.start last.stop w))) :
    inRange32 stmt.expr.type.isSigned (first.key stmt.expr.type.isSigned) x first = true := by
  subst hx
  have hmem : first ∈ infos.toList := Array.mem_toList_iff.mpr (Array.mem_of_getElem? hfirst)
  have htarget := target_of_holds h hmem hhold hsel
  rw [dispatchIndex_inside hs hhold.1 (Int.le_trans hhold.2 (hs.high first hmem))] at htarget
  have hr := h.mem_iff.mpr ⟨first, hmem, rfl⟩
  generalize hi : infos.toList.findIdx _ = i at htarget
  by_cases hlt : i < infos.size
  · rw [targetCase_some (Array.getElem?_eq_getElem hlt)] at htarget
    have hmem' : infos[i] ∈ infos.toList := by simp
    have hvalues := StmtSwitch.eq_of_index (h.mem_iff.mpr ⟨_, hmem', rfl⟩) hr
      (Option.some.inj htarget)
    have hin := List.findIdx_getElem (p := inRange32 stmt.expr.type.isSigned
      (first.key stmt.expr.type.isSigned) (Scalar.view w stmt.expr.type.isSigned))
      (w := by rw [hi]; simpa using hlt)
    simp only [hi, Array.getElem_toList] at hin
    have hkey : infos[i].key stmt.expr.type.isSigned = first.key stmt.expr.type.isSigned :=
      congrArg CaseValues.first hvalues
    have hstop : infos[i].stopKey stmt.expr.type.isSigned =
        first.stopKey stmt.expr.type.isSigned := congrArg CaseValues.last hvalues
    unfold inRange32 at hin ⊢
    rw [hkey, hstop] at hin
    exact hin
  · rw [targetCase_end (Nat.not_lt.mp hlt)] at htarget
    exact absurd htarget.symm (StmtSwitch.index_ne_default hr)

/-- Of cases that are far from each other, some value is taken to a wrong one, unless there is only
one and its range has all of the 32 bits. -/
theorem close_of_selects (hlast : infos[infos.size - 1]? = some last)
    (hall : ∀ w, stmt.Selects (Scalar.view w stmt.expr.type.isSigned)
      (targetCase stmt infos (dispatchIndex infos.toList first.start last.stop w))) :
    last.stopKey stmt.expr.type.isSigned - first.key stmt.expr.type.isSigned < 2 ^ 32 ∨
      infos.size = 1 ∧ (first.stopKey stmt.expr.type.isSigned -
        first.key stmt.expr.type.isSigned + 1) % 2 ^ 32 = 0 := by
  have hmem : first ∈ infos.toList := Array.mem_toList_iff.mpr (Array.mem_of_getElem? hfirst)
  have hproper : first.key _ ≤ first.stopKey _ := hs.proper first hmem
  have hview : ∀ x, first.key stmt.expr.type.isSigned ≤ x →
      x ≤ last.stopKey stmt.expr.type.isSigned →
      ∃ w : Scalar, Scalar.view w stmt.expr.type.isSigned = x :=
    fun x => Scalar.exists_view
  by_contra hfar
  rw [not_or] at hfar
  by_cases hshort : first.stopKey stmt.expr.type.isSigned - first.key stmt.expr.type.isSigned < 2 ^ 32
  · obtain ⟨w, hw⟩ := hview (first.key stmt.expr.type.isSigned + 2 ^ 32) (by omega) (by omega)
    have hhold := holds_first h hfirst hs hw (by omega) (by omega) (by
      unfold inRange32
      rw [decide_eq_true_iff]
      omega) (hw ▸ hall w)
    unfold Holds Within at hhold
    omega
  · by_cases hfull : (first.stopKey stmt.expr.type.isSigned -
        first.key stmt.expr.type.isSigned + 1) % 2 ^ 32 = 0
    · have hsize : infos.size ≠ 1 := fun h => hfar.2 ⟨h, hfull⟩
      obtain ⟨hpos, hget⟩ := Array.getElem?_eq_some_iff.mp hfirst
      obtain ⟨hend, hget'⟩ := Array.getElem?_eq_some_iff.mp hlast
      have hlt := List.pairwise_iff_getElem.mp h.ends 0 (infos.size - 1) (by simpa using hpos)
        (by simpa using hend) (by omega)
      rw [Array.getElem_toList, Array.getElem_toList, hget, hget'] at hlt
      have hmem' : last ∈ infos.toList := Array.mem_toList_iff.mpr (Array.mem_of_getElem? hlast)
      have hproper' : last.key _ ≤ last.stopKey _ := hs.proper last hmem'
      obtain ⟨w, hw⟩ := hview (last.stopKey stmt.expr.type.isSigned) (by omega) (Int.le_refl _)
      have hhold := holds_first h hfirst hs hw (by omega) (by omega) (by
        unfold inRange32
        rw [decide_eq_true_iff]
        omega) (hw ▸ hall w)
      unfold Holds Within at hhold
      omega
    · have hhigh := hs.high first hmem
      obtain ⟨w, hw⟩ := hview (first.key stmt.expr.type.isSigned +
        (first.stopKey stmt.expr.type.isSigned - first.key stmt.expr.type.isSigned) % 2 ^ 32 + 1)
        (by omega) (by omega)
      have hin := inRange32_of_holds h hfirst hs hw (by
        unfold Holds Within
        omega) (hw ▸ hall w)
      unfold inRange32 at hin
      rw [decide_eq_true_iff] at hin
      omega

end

end

/-! ## Words of any width -/

theorem loadN_low (m : Mem) (a : Word) {n k : Nat} (hn : n ≤ k) (hk : k ≤ 8) :
    (loadN m a k).setWidth (8 * n) = (loadN m a n).setWidth (8 * n) := by
  induction n generalizing a k with
  | zero => exact BitVec.eq_of_zero_length rfl
  | succ n ih =>
    obtain ⟨k, rfl⟩ : ∃ j, k = j + 1 := ⟨k - 1, by omega⟩
    have hrec := ih (a + 1) (k := k) (by omega) (by omega)
    apply BitVec.eq_of_getLsbD_eq
    intro i hi
    have hbit := congrArg (fun x => x.getLsbD (i - 8)) hrec
    simp only [BitVec.getLsbD_setWidth] at hbit
    by_cases hlow : i < 8
    · simp [loadN, hi, hlow]
    · rw [show decide (i - 8 < 8 * n) = true from decide_eq_true (by omega), Bool.true_and,
        Bool.true_and] at hbit
      simp only [loadN, BitVec.getLsbD_setWidth, BitVec.getLsbD_or, BitVec.getLsbD_shiftLeft, hi,
        hlow, hbit]

/-- What an instruction of 64 bits reads has the value that is read at the type. -/
theorem read_value {objs : List MemObj} {env : Env} {σ : MState} {val : OpRIA} {w w' : Word}
    {k : IntegerKind} (hw : readWord val env objs σ = some w)
    (hw' : val.read env objs σ (intKindSize k) = some w') : Scalar.value w' k = Scalar.value w k := by
  have hlow : w'.setWidth (bitsOf k) = w.setWidth (bitsOf k) := by
    unfold readWord at hw
    cases val with
    | reg r =>
      cases hw
      cases hw'
      rfl
    | imm v =>
      cases hw
      cases hw'
      rfl
    | addr a =>
      simp only [OpRIA.read, Option.map_eq_some_iff] at hw hw'
      obtain ⟨p, hp, rfl⟩ := hw
      obtain ⟨p', hp', rfl⟩ := hw'
      obtain rfl := Option.some.inj (hp.symm.trans hp')
      exact (loadN_low σ.store.mem p (by cases k <;> decide) (Nat.le_refl 8)).symm
  unfold Scalar.value
  rw [hlow]

/-- The value that a word stands for at an integer type. -/
def typedValue (t : Ty) (w : Word) : Int :=
  match intKind? t with
  | some k => Scalar.value w k
  | none => 0

/-- Wherever the dispatch is emitted, each value of the operand gets to the block of its case. -/
def DispatchesRight (stmt : StmtSwitch) (infos : Array CaseInfo) : Prop :=
  ∀ (B : ProcBuilder) (b : Nat) (val : OpRIA) (targets : List BBlockId), B.IsOpen b →
    (∀ t ∈ targets, t < B.bblocks.length) → targets.length = infos.size + 1 →
    ∃ B', emitSwitchDispatch stmt.expr.type.isSigned infos b val targets B = some ((), B') ∧
      ∀ B'' env σ w w', Future (fun _ => False) B' B'' → Settled B σ (readWord val env) w →
        Settled B σ (fun objs σ => val.read env objs σ stmt.expr.type.size) w' →
        ∃ i t c, targets[i]? = some t ∧ Steps B'' env ⟨b, B.endPos b, σ⟩ c ∧ c.bb = t ∧ c.pos = 0 ∧
          stmt.Selects (typedValue stmt.expr.type w') (targetCase stmt infos i)

/-- A procedure with an empty block for each target, and a register. -/
def emptyBlocks (n : Nat) : ProcBuilder :=
  ⟨[], List.replicate (n + 1) ⟨[], [], false, false⟩, [], 1, [], none, []⟩

theorem emptyBlocks_isOpen {n k : Nat} (hk : k < n + 1) : (emptyBlocks n).IsOpen k :=
  ⟨⟨[], [], false, false⟩, by
    unfold emptyBlocks
    rw [List.getElem?_replicate, if_pos hk], rfl⟩

theorem emptyBlocks_blockInstrs (n k : Nat) : (emptyBlocks n).blockInstrs k = [] := by
  unfold ProcBuilder.blockInstrs emptyBlocks
  rw [List.getElem?_replicate]
  split
  · rename_i h
    split at h
    · cases h
      rfl
    · cases h
  · rfl

/-- Nothing steps at the start of a block without instructions. -/
theorem step_empty {B : ProcBuilder} {env : Env} {c : Config} (hb : B.blockInstrs c.bb = []) :
    step B env c = none := by
  have hat : B.instrAt c.bb c.pos = none := by
    unfold ProcBuilder.blockInstrs at hb
    unfold ProcBuilder.instrAt
    cases hbb : B.bblocks[c.bb]? with
    | none => rfl
    | some bb =>
      rw [hbb] at hb
      simp only [Option.bind_eq_bind, Option.bind_some]
      rw [show bb.instrs = [] from hb]
      rfl
  unfold step
  rw [hat]
  rfl

section

variable {stmt : StmtSwitch} {infos : Array CaseInfo} {first last : CaseInfo}

theorem targets_getElem {n i : Nat} (hi : i ≤ n) : (List.range' 1 (n + 1))[i]? = some (1 + i) := by
  rw [List.getElem?_range' (by omega), Nat.one_mul]

/-- The dispatch is right exactly if it is right for every word in a register. -/
theorem dispatchesRight_iff_words (hint : stmt.expr.type.isIntegerLike = true)
    (hfirst : infos[0]? = some first) (hlast : infos[infos.size - 1]? = some last) :
    DispatchesRight stmt infos ↔ ∀ w, stmt.Selects (typedValue stmt.expr.type w)
      (targetCase stmt infos (dispatchIndex infos.toList first.start last.stop w)) := by
  obtain ⟨k, hk⟩ := isIntegerLike_iff.mp hint
  have hsize : stmt.expr.type.size = intKindSize k := by
    rcases eq_of_intKind hk with h | ⟨id, h⟩ <;> rw [h] <;> rfl
  have hidx : ∀ w, dispatchIndex infos.toList first.start last.stop w ≤ infos.size := by
    intro w
    unfold dispatchIndex
    split
    · exact Nat.le_of_eq Array.length_toList
    · refine Nat.le_trans List.findIdx_le_length (Nat.le_of_eq ?_)
      rw [List.length_map, Array.length_toList]
  constructor
  · intro hright w
    let env : Env := ⟨fun _ => 0, fun _ => 0, fun _ => 0, fun _ => 0, fun _ _ _ => .equal,
      fun _ _ _ st => (st, 0), fun _ _ => none⟩
    let σ : MState := ⟨fun _ => w, ⟨fun _ => 0, []⟩, 0⟩
    let B := emptyBlocks (infos.size + 1)
    have ho : B.IsOpen 0 := emptyBlocks_isOpen (by omega)
    have hlenB : B.bblocks.length = infos.size + 2 := List.length_replicate ..
    have hmem : ∀ t ∈ List.range' 1 (infos.size + 1), t < B.bblocks.length := by
      intro t ht
      rw [List.mem_range'_1] at ht
      omega
    have hreg : Settled B σ (fun _ σ => some (σ.regs 0)) w := Settled.reg (r := 0) Nat.zero_lt_one
    obtain ⟨B', hrun, hP⟩ := hright B 0 (.reg 0) _ ho hmem (List.length_range' ..)
    obtain ⟨B₂, hrun₂, he, hdispatch⟩ := emitSwitchDispatch_ok stmt.expr.type.isSigned
      (.reg 0) ho hmem (List.length_range' ..) hfirst hlast
    obtain rfl : B' = B₂ := congrArg Prod.snd (Option.some.inj (hrun.symm.trans hrun₂))
    have htarget := targets_getElem (hidx w)
    obtain ⟨i, t, c, ht, hs, hbb, -, hsel⟩ := hP B' env σ w w (.refl B') hreg hreg
    obtain ⟨c', hs', hbb', -⟩ := hdispatch B' env σ w _ (.refl B') hreg htarget
    have hempty : ∀ k : Nat, 0 < k → k ≤ infos.size + 1 → B'.blockInstrs k = [] := by
      intro k hk hk'
      rw [he.other k (by omega) (by omega)]
      exact emptyBlocks_blockInstrs _ _
    have hi : i ≤ infos.size := by
      have hlt := (List.getElem?_eq_some_iff.mp ht).1
      rw [List.length_range'] at hlt
      omega
    obtain rfl : 1 + i = t := Option.some.inj ((targets_getElem hi).symm.trans ht)
    have hidxw := hidx w
    have hend : step B' env c = none :=
      step_empty (hbb ▸ hempty (1 + i) (by omega) (by omega))
    have hend' : step B' env c' = none :=
      step_empty (hbb' ▸ hempty _ (by omega) (by omega))
    obtain rfl := hs.unique hs' hend hend'
    obtain rfl : i = dispatchIndex infos.toList first.start last.stop w :=
      Nat.add_left_cancel (hbb.symm.trans hbb')
    exact hsel
  · intro hwords B b val targets ho ht hlen
    obtain ⟨B', hrun, -, hsteps⟩ := emitSwitchDispatch_ok stmt.expr.type.isSigned
      val ho ht hlen hfirst hlast
    refine ⟨B', hrun, fun B'' env σ w w' hF hw hw' => ?_⟩
    have htarget := List.getElem?_eq_getElem (l := targets)
      (i := dispatchIndex infos.toList first.start last.stop w) (by have := hidx w; omega)
    obtain ⟨c, hsteps, hbb, hpos⟩ := hsteps B'' env σ w _ hF hw htarget
    refine ⟨_, _, c, htarget, hsteps, hbb, hpos, ?_⟩
    have hvalue : typedValue stmt.expr.type w' = typedValue stmt.expr.type w := by
      unfold typedValue
      rw [hk]
      exact read_value (hw.now (List.prefix_refl _)) (hsize ▸ hw'.now (List.prefix_refl _))
    rw [hvalue]
    exact hwords w

/-- Of a type of fewer than 64 bits, a word with other upper bits gets elsewhere. -/
theorem size_of_words (h : stmt.Sorted infos) (hint : stmt.expr.type.isIntegerLike = true)
    (hfirst : infos[0]? = some first) (hlast : infos[infos.size - 1]? = some last)
    (hrange : ∀ k, intKind? stmt.expr.type = some k → ∀ r ∈ stmt.caseValues,
      InRange k r.first ∧ InRange k r.last)
    (hwords : ∀ w, stmt.Selects (typedValue stmt.expr.type w)
      (targetCase stmt infos (dispatchIndex infos.toList first.start last.stop w))) :
    stmt.expr.type.size = 8 := by
  obtain ⟨k, hk⟩ := isIntegerLike_iff.mp hint
  have hsize : stmt.expr.type.size = intKindSize k := by
    rcases eq_of_intKind hk with h | ⟨id, h⟩ <;> rw [h] <;> rfl
  have hmem : first ∈ infos.toList := Array.mem_toList_iff.mpr (Array.mem_of_getElem? hfirst)
  have hmem' : last ∈ infos.toList := Array.mem_toList_iff.mpr (Array.mem_of_getElem? hlast)
  have hs := spans_of_sorted h hfirst hlast
  have hlow : InRange k (first.key stmt.expr.type.isSigned) :=
    (hrange k hk _ (h.mem_iff.mpr ⟨first, hmem, rfl⟩)).1
  have hhigh : InRange k (last.stopKey stmt.expr.type.isSigned) :=
    (hrange k hk _ (h.mem_iff.mpr ⟨last, hmem', rfl⟩)).2
  by_contra hne
  rw [hsize] at hne
  have hbounds : highest k < lowest k + 2 ^ bitsOf k ∧
      highest k + 2 ^ bitsOf k ≤ highest (if intKindSigned k then .s64 else .u64) ∧
      lowest (if intKindSigned k then .s64 else .u64) ≤ lowest k ∧ 0 < (2 : Int) ^ bitsOf k := by
    revert hne
    cases k <;> decide
  -- The first value with a one above the bits of the type.
  let x := first.key stmt.expr.type.isSigned + 2 ^ bitsOf k
  have hx : last.stopKey stmt.expr.type.isSigned < x := by
    unfold InRange at hlow hhigh
    omega
  have hview : Scalar.view (BitVec.ofInt 64 x) stmt.expr.type.isSigned = x := by
    rw [Scalar.view_eq_value, isSigned_eq hk, Scalar.value_ofInt]
    apply wrap_eq_self
    unfold InRange at hlow ⊢
    omega
  have hvalue : typedValue stmt.expr.type (BitVec.ofInt 64 x) =
      first.key stmt.expr.type.isSigned := by
    unfold typedValue
    rw [hk]
    show Scalar.value (BitVec.ofInt 64 x) k = _
    rw [Scalar.value_ofInt, wrap_add, wrap_eq_self hlow]
  have hsel := hwords (BitVec.ofInt 64 x)
  rw [dispatchIndex_outside hs (.inr (lt_of_lt_of_eq hx hview.symm)), Array.length_toList,
    targetCase_end (Nat.le_refl _), hvalue] at hsel
  have htarget := target_of_holds h hmem ⟨Int.le_refl _, hs.proper first hmem⟩ hsel
  exact StmtSwitch.index_ne_default (h.mem_iff.mpr ⟨first, hmem, rfl⟩) htarget.symm

theorem caseValues_inRange (h : stmt.WellTyped) (k : IntegerKind)
    (hk : intKind? stmt.expr.type = some k) (r : CaseValues) (hr : r ∈ stmt.caseValues) :
    InRange k r.first ∧ InRange k r.last := by
  obtain ⟨n, c, e, hc, hstart, rfl⟩ := mem_caseValuesFrom.mp hr
  have hmem := List.mem_of_getElem? hc
  have hrange : ∀ e, c.start = some e ∨ c.stop = some e →
      InRange k (caseValue stmt.expr.type e) := by
    intro e he
    obtain ⟨j, hj⟩ := isIntegerLike_iff.mp (h.exprs c hmem e he).integer
    exact caseValue_inRange hj hk
  refine ⟨hrange e (.inl hstart), ?_⟩
  cases hstop : c.stop with
  | none => exact hrange e (.inl hstart)
  | some e' => exact hrange e' (.inr hstop)

theorem typedValue_eq_view {t : Ty} (hint : t.isIntegerLike = true) (hsize : t.size = 8) (w : Word) :
    typedValue t w = Scalar.view w t.isSigned := by
  obtain ⟨k, hk⟩ := isIntegerLike_iff.mp hint
  have hk8 : intKindSize k = 8 := by
    rcases eq_of_intKind hk with rfl | ⟨id, rfl⟩ <;> exact hsize
  unfold typedValue
  rw [hk, isSigned_eq hk, Scalar.view_eq_value]
  cases k <;> first | rfl | exact absurd hk8 (by decide)

end

/-- A switch on a variable with the case `1` only. -/
def caseOne (k : IntegerKind) : StmtSwitch where
  expr := ⟨.integer k, false, true, false, 0⟩
  cases := [⟨some ⟨.integer .s32, true, false, true, 1⟩, none, ⟨true, false, false⟩⟩]
  defaultCaseIndex := none
  length_lt := by decide
  stop_none := by simp
  default_iff i := by cases i <;> simp

theorem resolveStmtSwitch_caseOne_s32 : resolveStmtSwitch .plain .unused (caseOne .s32) =
    .ok (⟨true, false, false⟩, #[⟨1, 1, true, 0⟩]) := rfl

theorem resolveStmtSwitch_caseOne_u64 : resolveStmtSwitch .plain .unused (caseOne .u64) =
    .ok (⟨true, false, false⟩, #[⟨1, 1, false, 0⟩]) := rfl

end Nibble.IR
