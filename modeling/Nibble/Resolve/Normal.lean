import Nibble.Resolve.ConstExpr

/-!
# Normal scalars

A scalar is normal at a kind if its 64 bits are those of the number that the member of
the kind holds. A conversion writes the member and nothing else, so it keeps the
scalar normal exactly if the number fits.
-/

namespace Nibble.Resolve

/-- The kind of 64 bits with the sign of a kind. -/
def wideKind (k : IntegerKind) : IntegerKind := if intKindSigned k then .s64 else .u64

/-- The 64 bits of a number, read with the sign of the kind, stand for one that the kind has. -/
def FitsIn (k : IntegerKind) (n : Int) : Prop := InRange k (wrap (wideKind k) n)

instance (k : IntegerKind) (n : Int) : Decidable (FitsIn k n) :=
  inferInstanceAs (Decidable (InRange k (wrap (wideKind k) n)))

namespace Scalar

variable {s v : Scalar} {k d : IntegerKind} {n : Int} {b : Bool}

theorem bitsOf_wideKind (k : IntegerKind) : bitsOf (wideKind k) = 64 := by
  cases k <;> rfl

theorem normal_wideKind (s : Scalar) (k : IntegerKind) : s.Normal (wideKind k) :=
  normal_of_bits (bitsOf_wideKind k) s

theorem Normal.eq_ofInt (h : s.Normal k) : s = BitVec.ofInt 64 (s.value k) :=
  h.symm.trans (read_eq_ofInt s k)

/-- The 64-bit view is one of the numbers of the kind. -/
theorem normal_iff : s.Normal k ↔ InRange k (s.value (wideKind k)) := by
  constructor
  · intro h
    have hview : s.value (wideKind k) = s.value k := by
      have hvalue := value_eq s k
      rw [show s.read k = s from h] at hvalue
      exact (view_eq_value s (intKindSigned k)).symm.trans hvalue.symm
    exact hview ▸ value_inRange s k
  · intro h
    have hs := (normal_wideKind s k).eq_ofInt
    have hvalue : s.value k = s.value (wideKind k) := by
      conv_lhs => rw [hs, value_ofInt, wrap_eq_self h]
    exact (read_eq_ofInt s k).trans (hvalue ▸ hs.symm)

theorem normal_ofInt : Normal (BitVec.ofInt 64 n) k ↔ FitsIn k n := by
  rw [normal_iff, value_ofInt]
  rfl

/-- A scalar that is normal at a kind is so at another if its number fits. -/
theorem Normal.iff_fitsIn (h : s.Normal k) : s.Normal d ↔ FitsIn d (s.value k) := by
  conv_lhs => rw [h.eq_ofInt]
  exact normal_ofInt

/-- Among normal scalars, only a conversion to `bool` changes bits. -/
theorem Normal.intCast_eq (h : s.Normal k) (hd : d ≠ .bool) : intCast s k d = s := by
  have hwrite : intCast s k d = s.write d (s.read k) := by
    cases d <;> first | rfl | exact absurd rfl hd
  rw [hwrite, show s.read k = s from h]
  exact setLow_self s rfl

/-! ## The bits above a member -/

/-- The bits above a member are all `b`. -/
def Above (s : Scalar) (k : IntegerKind) (b : Bool) : Prop :=
  ∀ i, bitsOf k ≤ i → i < 64 → s.getLsbD i = b

/-- The sign of a member. -/
def sign (s : Scalar) (k : IntegerKind) : Bool :=
  intKindSigned k && s.getLsbD (bitsOf k - 1)

theorem getLsbD_read (s : Scalar) (k : IntegerKind) {i : Nat} (hi : i < 64) :
    (s.read k).getLsbD i = if i < bitsOf k then s.getLsbD i else s.sign k := by
  have hbits := bitsOf_le k
  unfold read sign
  split
  · rename_i hs
    rw [BitVec.getLsbD_signExtend, BitVec.msb_eq_getLsbD_last, hs]
    by_cases hlow : i < bitsOf k
    · simp [hi, hlow]
    · simp [hi, hlow, hbits.1]
  · rename_i hs
    rw [Bool.not_eq_true] at hs
    rw [hs]
    by_cases hlow : i < bitsOf k
    · simp [hi, hlow]
    · simp [hlow]

theorem normal_iff_above : s.Normal k ↔ s.Above k (s.sign k) := by
  constructor
  · intro h i hlow hi
    have hbit := getLsbD_read s k hi
    rwa [show s.read k = s from h, if_neg (Nat.not_lt.mpr hlow)] at hbit
  · intro h
    apply BitVec.eq_of_getLsbD_eq
    intro i hi
    rw [getLsbD_read s k hi]
    split
    · rfl
    · rename_i hlow
      exact (h i (Nat.not_lt.mp hlow) hi).symm

theorem getLsbD_write (s v : Scalar) (k : IntegerKind) {i : Nat} (hi : i < 64) :
    (s.write k v).getLsbD i = if i < bitsOf k then v.getLsbD i else s.getLsbD i := by
  unfold write setLow
  by_cases hlow : i < bitsOf k
  · simp [hlow, hi]
  · simp [hlow, hi, show bitsOf k + (i - bitsOf k) = i by omega]

theorem above_write : (s.write k v).Above k b ↔ s.Above k b := by
  refine forall_congr' fun i => forall_congr' fun hlow => forall_congr' fun hi => ?_
  rw [getLsbD_write s v k hi, if_neg (Nat.not_lt.mpr hlow)]

theorem sign_write : (s.write k v).sign k = v.sign k := by
  have hbits := bitsOf_le k
  unfold sign
  rw [getLsbD_write s v k (by omega), if_pos (by omega)]

/-- A write leaves a normal scalar if the bits above repeat the sign of what is written. -/
theorem normal_write : (s.write k v).Normal k ↔ s.Above k (v.sign k) := by
  rw [normal_iff_above, sign_write, above_write]

/-- A conversion of a normal scalar leaves one exactly if the number fits. -/
theorem Normal.intCast_iff (h : s.Normal k) : (intCast s k d).Normal d ↔ FitsIn d (s.value k) := by
  rw [← h.iff_fitsIn]
  by_cases hd : d = .bool
  · subst hd
    exact normal_write.trans normal_iff_above.symm
  · rw [h.intCast_eq hd]

end Scalar

end Nibble.Resolve
