import Nibble.X64.Text
import Mathlib.Algebra.BigOperators.Intervals
import Mathlib.Algebra.Order.BigOperators.Group.Finset

/-!
# Relaxation of jumps

The sizes of blocks and the distances between them as natural numbers, and
what `X64_update_jmp` does to a block. A jump that got its long form keeps it:
sizes only grow, so its target never comes into reach again. The number of
jumps in the short form is the measure of the loop.
-/

namespace Nibble.X64

open Nibble.Lib

/-! ## Sizes and distances -/

/-- `bblockBestCaseSize` without the wraparound. -/
def TextBBlock.size (b : TextBBlock) : Nat :=
  b.buffer.length +
    (if b.jmpOpcode.length = 0 ∧ b.jmpInstr.isSome then 1 else b.jmpOpcode.length) +
    (if b.jmpOffsetLen = 0 ∧ b.jmpInstr.isSome then 1 else b.jmpOffsetLen)

theorem bblockBestCaseSize_eq (b : TextBBlock) :
    bblockBestCaseSize b = BitVec.ofNat 32 b.size := by
  simp only [bblockBestCaseSize, TextBBlock.size, BitVec.ofNat_add]

/-- The size of a jump in one of its forms. -/
def JmpInstr.size (j : JmpInstr) (short : Bool) : Nat :=
  if short then 2 else if j.cond.isSome then 6 else 5

/-- The size of a block with its jump in the long form. -/
def TextBBlock.longSize (b : TextBBlock) : Nat :=
  b.buffer.length + match b.jmpInstr with
    | none => 0
    | some j => j.size false

/-- The size of block `k`, by a measure of blocks. -/
def sizeAt (f : TextBBlock → Nat) (bs : List TextBBlock) (k : Nat) : Nat := (bs.map f).getD k 0

/-- The code between a jump and its target: forward from the end of the jump, backward from its
start. -/
def jmpDist (f : TextBBlock → Nat) (src : Nat) (b : TextBBlock) (j : JmpInstr)
    (bs : List TextBBlock) : Nat :=
  if src < j.target then ∑ k ∈ Finset.Ico (src + 1) j.target, sizeAt f bs k
  else (∑ k ∈ Finset.Ico j.target src, sizeAt f bs k) + b.buffer.length

/-- The displacement of a jump: it counts from the jump's end. -/
def jmpDisp (src : Nat) (j : JmpInstr) (dist : Nat) (short : Bool) : Int :=
  if src < j.target then dist else -(dist + j.size short : Nat)

/-- The short form reaches the target. -/
def jmpFits (src : Nat) (j : JmpInstr) (dist : Nat) : Bool :=
  if src < j.target then dist ≤ 127 else dist ≤ 126

theorem sum_slice (l : List Nat) {a b : Nat} (h : a ≤ b) :
    ((l.take b).drop a).sum = ∑ k ∈ Finset.Ico a b, l.getD k 0 := by
  induction b, h using Nat.le_induction with
  | base => simp
  | succ b hab ih =>
    rw [Finset.sum_Ico_succ_top hab, ← ih, List.take_add_one]
    by_cases hb : b < l.length
    · have hlen : a ≤ (l.take b).length := by
        rw [List.length_take]
        omega
      rw [List.drop_append_of_le_length hlen, List.sum_append]
      simp [hb, List.getD_eq_getElem?_getD]
    · simp [hb, List.getD_eq_getElem?_getD]

/-! ## Offsets -/

theorem ofInt_sub (x y : Int) : BitVec.ofInt 32 (x - y) = BitVec.ofInt 32 x - BitVec.ofInt 32 y := by
  rw [Int.sub_eq_add_neg, BitVec.ofInt_add, BitVec.ofInt_neg, BitVec.sub_eq_add_neg]

theorem foldl_add_size (bs : List TextBBlock) (z : Int) :
    bs.foldl (fun offset b => offset + bblockBestCaseSize b) (BitVec.ofInt 32 z) =
      BitVec.ofInt 32 (z + (bs.map TextBBlock.size).sum) := by
  induction bs generalizing z with
  | nil => simp
  | cons b bs ih =>
    rw [List.foldl_cons, bblockBestCaseSize_eq b, ← BitVec.ofInt_natCast, ← BitVec.ofInt_add, ih]
    congr 1
    simp only [List.map_cons, List.sum_cons]
    omega

theorem foldl_sub_size (bs : List TextBBlock) (z : Int) :
    bs.foldl (fun offset b => offset - bblockBestCaseSize b) (BitVec.ofInt 32 z) =
      BitVec.ofInt 32 (z - (bs.map TextBBlock.size).sum) := by
  induction bs generalizing z with
  | nil => simp
  | cons b bs ih =>
    rw [List.foldl_cons, bblockBestCaseSize_eq b, ← BitVec.ofInt_natCast, ← ofInt_sub, ih]
    congr 1
    simp only [List.map_cons, List.sum_cons]
    omega

theorem sum_size_slice (f : TextBBlock → Nat) (bs : List TextBBlock) {a b : Nat} (h : a ≤ b) :
    (((bs.take b).drop a).map f).sum = ∑ k ∈ Finset.Ico a b, sizeAt f bs k := by
  rw [List.map_drop, List.map_take]
  exact sum_slice _ h

theorem toInt_ofInt32 {z : Int} (h1 : -2147483648 ≤ z) (h2 : z ≤ 2147483647) :
    (BitVec.ofInt 32 z).toInt = z := by
  apply BitVec.toInt_ofInt_eq_self
  · omega
  · show -2147483648 ≤ z
    exact h1
  · show z < 2147483648
    omega

/-- Where the target is in reach of a 32-bit displacement, the offset is the displacement of the
form that it fits. -/
theorem jmpOffsetTo_eq {src : Nat} {b : TextBBlock} {j : JmpInstr} {bs : List TextBBlock}
    {dist : Nat} (hd : jmpDist TextBBlock.size src b j bs = dist)
    (hr : -2147483648 ≤ jmpDisp src j dist false ∧ jmpDisp src j dist false ≤ 2147483647) :
    jmpOffsetTo src b j bs =
      some (BitVec.ofInt 32 (jmpDisp src j dist (jmpFits src j dist))) := by
  unfold jmpOffsetTo
  unfold jmpDist at hd
  by_cases hfwd : src < j.target
  · rw [if_pos hfwd] at hd
    have hfold := foldl_add_size ((bs.take j.target).drop (src + 1)) 0
    rw [sum_size_slice _ _ hfwd, hd] at hfold
    rw [if_pos hfwd, jmpDisp, if_pos hfwd]
    simpa using hfold
  · rw [if_neg hfwd] at hd
    simp only [jmpDisp, if_neg hfwd] at hr
    have hfold := foldl_sub_size ((bs.take src).drop j.target) 0
    rw [sum_size_slice _ _ (by omega)] at hfold
    have hoff : ((bs.take src).drop j.target).foldl (fun offset b => offset - bblockBestCaseSize b)
        0 - BitVec.ofNat 32 b.buffer.length = BitVec.ofInt 32 (-(dist : Int)) := by
      rw [show (0 : BitVec 32) = BitVec.ofInt 32 0 by rfl, hfold, ← BitVec.ofInt_natCast, ← ofInt_sub]
      congr 1
      omega
    have hsize : 5 ≤ j.size false := by
      unfold JmpInstr.size
      split
      · contradiction
      · split <;> omega
    have htoInt : (BitVec.ofInt 32 (-(dist : Int))).toInt = -(dist : Int) :=
      toInt_ofInt32 (by omega) (by omega)
    simp only [if_neg hfwd, hoff, htoInt]
    rw [if_neg (by omega)]
    simp only [jmpDisp, jmpFits, if_neg hfwd]
    by_cases hfit : dist ≤ 126
    · rw [if_pos (by omega), decide_eq_true hfit]
      show some (_ - BitVec.ofInt 32 2) = _
      rw [← ofInt_sub]
      congr 2
      simp only [JmpInstr.size, ite_true]
      omega
    · rw [if_neg (by omega), decide_eq_false hfit]
      have hlen : (if j.cond.isSome then (6 : BitVec 32) else 5) =
          BitVec.ofInt 32 (j.size false : Nat) := by
        unfold JmpInstr.size
        cases j.cond <;> rfl
      rw [hlen, ← ofInt_sub]
      congr 2
      omega

/-! ## The state of a jump -/

/-- The jump of a block is encoded in one form, with a displacement. -/
structure JmpEncoded (b : TextBBlock) (j : JmpInstr) (short : Bool) (disp : Int) : Prop where
  opcode : b.jmpOpcode = j.opcode short
  offset : b.jmpOffset = BitVec.ofInt 32 disp
  offsetLen : b.jmpOffsetLen = if short then 1 else 4

/-- What a jump of block `src` may look like between two updates. A jump in the long form has its
target out of reach of the short one. -/
inductive JmpState (src : Nat) (b : TextBBlock) (bs : List TextBBlock) : Prop where
  | noJmp (hj : b.jmpInstr = none) (ho : b.jmpOpcode = []) (hl : b.jmpOffsetLen = 0)
  | fresh (j : JmpInstr) (hj : b.jmpInstr = some j) (ho : b.jmpOpcode = [])
      (hl : b.jmpOffsetLen = 0) (hz : b.jmpOffset = 0)
  | short (j : JmpInstr) (disp : Int) (hj : b.jmpInstr = some j) (he : JmpEncoded b j true disp)
      (h8 : dispIsImm8 b.jmpOffset = true)
  | long (j : JmpInstr) (disp : Int) (hj : b.jmpInstr = some j) (he : JmpEncoded b j false disp)
      (hf : jmpFits src j (jmpDist TextBBlock.size src b j bs) = false)

/-- A jump that may still grow. -/
def TextBBlock.mayGrow (b : TextBBlock) : Bool := b.jmpInstr.isSome && b.jmpOffsetLen ≤ 1

theorem length_opcode (j : JmpInstr) (short : Bool) :
    (j.opcode short).length + (if short then 1 else 4) = j.size short := by
  unfold JmpInstr.opcode JmpInstr.size
  cases j.cond <;> cases short <;> rfl

theorem opcode_length_pos (j : JmpInstr) (short : Bool) : 0 < (j.opcode short).length := by
  unfold JmpInstr.opcode
  cases j.cond <;> cases short <;> simp

theorem size_of_encoded {b : TextBBlock} {j : JmpInstr} {short : Bool} {disp : Int}
    (he : JmpEncoded b j short disp) : b.size = b.buffer.length + j.size short := by
  have hpos := opcode_length_pos j short
  have hlen := length_opcode j short
  have hl : b.jmpOffsetLen ≠ 0 := by
    rw [he.offsetLen]
    split <;> omega
  have ho : b.jmpOpcode.length ≠ 0 := by
    rw [he.opcode]
    omega
  simp only [TextBBlock.size, ho, hl, false_and, ite_false]
  rw [he.opcode, he.offsetLen]
  omega

theorem size_of_fresh {b : TextBBlock} {j : JmpInstr} (hj : b.jmpInstr = some j)
    (ho : b.jmpOpcode = []) (hl : b.jmpOffsetLen = 0) : b.size = b.buffer.length + 2 := by
  simp [TextBBlock.size, hj, ho, hl]

theorem size_of_noJmp {b : TextBBlock} (hj : b.jmpInstr = none) (ho : b.jmpOpcode = [])
    (hl : b.jmpOffsetLen = 0) : b.size = b.buffer.length := by
  simp [TextBBlock.size, hj, ho, hl]

theorem two_le_size (j : JmpInstr) (short : Bool) : 2 ≤ j.size short := by
  unfold JmpInstr.size
  split
  · omega
  · split <;> omega

theorem size_le_long (j : JmpInstr) (short : Bool) : j.size short ≤ j.size false := by
  cases short
  · exact Nat.le_refl _
  · exact two_le_size j false

theorem JmpState.size_le {src : Nat} {b : TextBBlock} {bs : List TextBBlock}
    (h : JmpState src b bs) : b.size ≤ b.longSize := by
  unfold TextBBlock.longSize
  cases h with
  | noJmp hj ho hl =>
    rw [size_of_noJmp hj ho hl]
    omega
  | fresh j hj ho hl hz =>
    have := two_le_size j false
    rw [size_of_fresh hj ho hl, hj]
    show _ ≤ _ + j.size false
    omega
  | short j disp hj he h8 =>
    have := size_le_long j true
    rw [size_of_encoded he, hj]
    show _ ≤ _ + j.size false
    omega
  | long j disp hj he hf =>
    rw [size_of_encoded he, hj]

/-- The displacement of either form is a 32-bit number where that of the long form is. -/
theorem toInt_jmpDisp {src : Nat} {j : JmpInstr} {dist : Nat} (short : Bool)
    (hr : -2147483648 ≤ jmpDisp src j dist false ∧ jmpDisp src j dist false ≤ 2147483647) :
    (BitVec.ofInt 32 (jmpDisp src j dist short)).toInt = jmpDisp src j dist short := by
  have hle := size_le_long j short
  unfold jmpDisp at hr ⊢
  apply toInt_ofInt32
  · split at hr <;> omega
  · split at hr <;> omega

/-- The displacement of the form that a distance fits is a byte exactly if the form is short. -/
theorem dispIsImm8_jmpDisp {src : Nat} {j : JmpInstr} {dist : Nat}
    (hr : -2147483648 ≤ jmpDisp src j dist false ∧ jmpDisp src j dist false ≤ 2147483647) :
    dispIsImm8 (BitVec.ofInt 32 (jmpDisp src j dist (jmpFits src j dist))) =
      jmpFits src j dist := by
  have hlong : 5 ≤ j.size false := by
    unfold JmpInstr.size
    split
    · contradiction
    · split <;> omega
  unfold dispIsImm8
  rw [toInt_jmpDisp _ hr]
  unfold jmpDisp jmpFits
  by_cases hfwd : src < j.target
  · simp only [if_pos hfwd]
    by_cases hfit : dist ≤ 127
    · simp only [hfit, decide_true, Bool.and_eq_true, decide_eq_true_eq]
      omega
    · simp only [hfit, decide_false, Bool.and_eq_false_iff, decide_eq_false_iff_not]
      omega
  · simp only [if_neg hfwd]
    by_cases hfit : dist ≤ 126
    · have h2 : j.size true = 2 := rfl
      simp only [hfit, decide_true, h2, Bool.and_eq_true, decide_eq_true_eq]
      omega
    · simp only [hfit, decide_false, Bool.and_eq_false_iff, decide_eq_false_iff_not]
      omega

/-! ## One update -/

/-- What `X64_update_jmp` does to block `src`: its jump gets the form and the displacement for the
sizes of the other blocks. -/
structure Updated (src : Nat) (bs : List TextBBlock) (b b' : TextBBlock) (changed : Bool) :
    Prop where
  buffer : b'.buffer = b.buffer
  jmpInstr : b'.jmpInstr = b.jmpInstr
  noJmp : b.jmpInstr = none → b'.jmpOpcode = [] ∧ b'.jmpOffsetLen = 0
  encoded : ∀ j, b.jmpInstr = some j →
    let dist := jmpDist TextBBlock.size src b j bs
    JmpEncoded b' j (jmpFits src j dist) (jmpDisp src j dist (jmpFits src j dist))
  size_le : b.size ≤ b'.size
  same : changed = false → b'.size = b.size ∧ b'.mayGrow = b.mayGrow
  grown : changed = true → b.mayGrow = true ∧ b'.mayGrow = false

/-- The target is in reach of a 32-bit displacement. -/
def InReach (f : TextBBlock → Nat) (src : Nat) (b : TextBBlock) (j : JmpInstr)
    (bs : List TextBBlock) : Prop :=
  -2147483648 ≤ jmpDisp src j (jmpDist f src b j bs) false ∧
    jmpDisp src j (jmpDist f src b j bs) false ≤ 2147483647

section

variable {src : Nat} {b : TextBBlock} {bs : List TextBBlock}

/-- An update writes the jump in its form. -/
def TextBBlock.setJmp (b : TextBBlock) (j : JmpInstr) (short : Bool) (offset : BitVec 32) :
    TextBBlock :=
  { b with jmpOpcode := j.opcode short, jmpOffset := offset,
           jmpOffsetLen := if short then 1 else 4 }

theorem encoded_setJmp (b : TextBBlock) (j : JmpInstr) (short : Bool) (disp : Int) :
    JmpEncoded (b.setJmp j short (BitVec.ofInt 32 disp)) j short disp := ⟨rfl, rfl, rfl⟩

theorem mayGrow_of_encoded {j : JmpInstr} {short : Bool} {disp : Int} (hj : b.jmpInstr = some j)
    (he : JmpEncoded b j short disp) : b.mayGrow = short := by
  unfold TextBBlock.mayGrow
  rw [hj, he.offsetLen]
  cases short <;> rfl

theorem mayGrow_of_fresh {j : JmpInstr} (hj : b.jmpInstr = some j) (hl : b.jmpOffsetLen = 0) :
    b.mayGrow = true := by
  simp [TextBBlock.mayGrow, hj, hl]

/-- The new form of a jump, whatever form it had before, if a long one is not to be shortened. -/
theorem updated_setJmp {j : JmpInstr} {short : Bool} (hj : b.jmpInstr = some j)
    (hsize : b.size = b.buffer.length + j.size b.mayGrow)
    (hshort : jmpFits src j (jmpDist TextBBlock.size src b j bs) = short)
    (hlong : b.mayGrow = false → short = false) :
    Updated src bs b
      (b.setJmp j short (BitVec.ofInt 32 (jmpDisp src j (jmpDist TextBBlock.size src b j bs) short)))
      (b.mayGrow != short) := by
  have he := encoded_setJmp b j short
    (jmpDisp src j (jmpDist TextBBlock.size src b j bs) short)
  have hj' : (b.setJmp j short (BitVec.ofInt 32
    (jmpDisp src j (jmpDist TextBBlock.size src b j bs) short))).jmpInstr = some j := hj
  have hsize' := size_of_encoded he
  have hgrow' := mayGrow_of_encoded hj' he
  refine ⟨rfl, rfl, ?_, ?_, ?_, ?_, ?_⟩
  · intro h
    rw [hj] at h
    cases h
  · intro j' h
    rw [hj] at h
    cases h
    dsimp only
    rw [hshort]
    exact he
  · rw [hsize, hsize']
    cases hb : b.mayGrow with
    | false =>
      rw [hlong hb]
      exact Nat.le_refl _
    | true =>
      have := two_le_size j short
      show _ + 2 ≤ _ + _
      exact Nat.add_le_add_left this _
  · intro h
    rw [bne_eq_false_iff_eq] at h
    rw [hsize, hsize', hgrow', h]
    exact ⟨rfl, rfl⟩
  · intro h
    rw [hgrow']
    cases hb : b.mayGrow with
    | false =>
      rw [hb, hlong hb] at h
      cases h
    | true =>
      rw [hb] at h
      refine ⟨rfl, ?_⟩
      cases short
      · rfl
      · cases h

/-- The branch of `updateJmp` that writes the jump; the one that keeps it agrees. -/
theorem updateJmp_eq {j : JmpInstr} {offset : BitVec 32} (hj : b.jmpInstr = some j)
    (hoff : jmpOffsetTo src b j bs = some offset)
    (hassert : b.jmpOffsetLen ≤ 1 → dispIsImm8 b.jmpOffset = true)
    (hkeep : b.jmpOpcode.length ≠ 0 → b.jmpOffset = offset →
      b.setJmp j (dispIsImm8 offset) offset = b) :
    updateJmp src bs b =
      some (b.setJmp j (dispIsImm8 offset) offset, b.mayGrow != dispIsImm8 offset) := by
  have hgrow : b.mayGrow = decide (b.jmpOffsetLen ≤ 1) := by simp [TextBBlock.mayGrow, hj]
  simp only [updateJmp, hj, hoff, Option.bind_eq_bind, Option.bind_some]
  by_cases hw : b.jmpOpcode.length = 0 ∨ b.jmpOffsetLen = 0 ∨ b.jmpOffset ≠ offset
  · rw [if_pos hw, if_neg, hgrow]
    · rw [TextBBlock.setJmp, hj]
    · rintro ⟨hfits, h8⟩
      exact h8 (hassert (by simpa using hfits))
  · rw [if_neg hw]
    push Not at hw
    have hb := hkeep hw.1 hw.2.2
    have hlen : b.jmpOffsetLen = if dispIsImm8 offset then 1 else 4 := by
      rw [← hb]
      rfl
    have hsame : (b.mayGrow != dispIsImm8 offset) = false := by
      rw [hgrow, hlen]
      cases dispIsImm8 offset <;> rfl
    rw [hb, hsame]

/-- An update of a jump writes the form that the distance fits. -/
theorem updateJmp_spec (hs : JmpState src b bs)
    (hr : ∀ j, b.jmpInstr = some j → InReach TextBBlock.size src b j bs) :
    ∃ b' c, updateJmp src bs b = some (b', c) ∧ Updated src bs b b' c := by
  cases hs with
  | noJmp hj ho hl =>
    have hb : updateJmp src bs b = some (b, false) := by
      cases b
      cases hj
      cases ho
      cases hl
      rfl
    refine ⟨b, false, hb, rfl, rfl, fun _ => ⟨ho, hl⟩, ?_, Nat.le_refl _, fun _ => ⟨rfl, rfl⟩, ?_⟩
    · intro j h
      rw [hj] at h
      cases h
    · intro hc
      cases hc
  | fresh j hj ho hl hz =>
    have h8 := dispIsImm8_jmpDisp (hr j hj)
    have hgrow := mayGrow_of_fresh hj hl
    refine ⟨_, _, updateJmp_eq hj (jmpOffsetTo_eq rfl (hr j hj)) ?_ ?_, ?_⟩
    · intro _
      rw [hz]
      decide
    · intro h
      simp [ho] at h
    · rw [h8]
      refine updated_setJmp hj ?_ rfl ?_
      · rw [size_of_fresh hj ho hl, hgrow]
        rfl
      · rw [hgrow]
        intro h
        cases h
  | short j disp hj he h8' =>
    have h8 := dispIsImm8_jmpDisp (hr j hj)
    have hgrow := mayGrow_of_encoded hj he
    refine ⟨_, _, updateJmp_eq hj (jmpOffsetTo_eq rfl (hr j hj)) (fun _ => h8') ?_, ?_⟩
    · intro _ hoff
      rw [← hoff, h8']
      unfold TextBBlock.setJmp
      rw [← he.opcode, ← he.offsetLen]
    · rw [h8]
      refine updated_setJmp hj ?_ rfl ?_
      · rw [size_of_encoded he, hgrow]
      · rw [hgrow]
        intro h
        cases h
  | long j disp hj he hf =>
    have h8 := dispIsImm8_jmpDisp (hr j hj)
    have hgrow := mayGrow_of_encoded hj he
    refine ⟨_, _, updateJmp_eq hj (jmpOffsetTo_eq rfl (hr j hj)) ?_ ?_, ?_⟩
    · intro hl
      rw [he.offsetLen] at hl
      contradiction
    · intro _ hoff
      rw [h8, ← hoff, hf]
      unfold TextBBlock.setJmp
      rw [← he.opcode, ← he.offsetLen]
    · rw [h8]
      refine updated_setJmp hj ?_ rfl (fun _ => hf)
      rw [size_of_encoded he, hgrow]

end

end Nibble.X64
