import Nibble.Print.Float
import Nibble.Lib.Decimal
import Mathlib.Tactic.Ring
import Mathlib.Tactic.NormNum
import Mathlib.Tactic.FieldSimp
import Mathlib.Data.Rat.Defs
import Mathlib.Algebra.Order.Field.Basic

/-!
# The decimal digits of a double

`Shows` says which digits the array holds. A round of the multiplication doubles the number they
write, a round of the division halves it and may add a digit; how many rounds there are bounds
the number of digits.
-/

namespace Nibble.Print

open Lib

variable {digits : Digits} {ds : List Nat} {n : Nat}

/-! ## The array -/

/-- The array begins with these digits. -/
def Shows (digits : Digits) (ds : List Nat) : Prop :=
  ∃ rest, digits.chars = ds.map chr ++ rest

@[simp] theorem num_chr (d : Nat) : num (chr d) = d := Nat.add_sub_cancel_left 48 d

theorem Digits.load_append {pre rest : List Nat} {c : Nat} (h : digits.chars = pre ++ c :: rest) :
    digits.load pre.length = some c := by
  rw [Digits.load, h, List.getElem?_append_right (Nat.le_refl _), Nat.sub_self]
  rfl

theorem Digits.store_append {pre rest : List Nat} {a : Nat} (h : digits.chars = pre ++ a :: rest)
    (c : Nat) : ∃ b, digits.store pre.length c = some b ∧ b.chars = pre ++ c :: rest := by
  have hlt : pre.length < 1024 := by
    rw [← digits.cap, h, List.length_append, List.length_cons]
    omega
  refine ⟨_, if_pos hlt, ?_⟩
  show digits.chars.set pre.length c = _
  rw [h, List.set_append_right _ _ (Nat.le_refl _), Nat.sub_self]
  rfl

/-- There is room for another character. -/
theorem Digits.exists_rest {pre rest : List Nat} (h : digits.chars = pre ++ rest)
    (hlt : pre.length < 1024) : ∃ a rest', rest = a :: rest' := by
  refine List.exists_cons_of_ne_nil fun hnil => ?_
  have hcap := digits.cap
  rw [h, hnil, List.append_nil] at hcap
  omega

theorem Shows.length_le (h : Shows digits ds) : ds.length ≤ 1024 := by
  obtain ⟨rest, h⟩ := h
  rw [← digits.cap, h, List.length_append, List.length_map]
  exact Nat.le_add_right _ _

/-- A digit is written after the others. -/
theorem Shows.push (h : Shows digits ds) (hlt : ds.length < 1024) (d : Nat) :
    ∃ b, digits.store ds.length (chr d) = some b ∧ Shows b (ds ++ [d]) := by
  obtain ⟨rest, h⟩ := h
  obtain ⟨a, rest, rfl⟩ := Digits.exists_rest h (by rwa [List.length_map])
  obtain ⟨b, hstore, hb⟩ := Digits.store_append h (chr d)
  rw [List.length_map] at hstore
  exact ⟨b, hstore, rest, by rw [hb, List.map_append, List.append_assoc]; rfl⟩

/-! ## The significand -/

theorem itoaLoop_spec {fuel value : Nat} {tmpBuf : List Nat} (hpos : 0 < value)
    (hfuel : (Nat.digits 10 value).length ≤ fuel)
    (hcap : tmpBuf.length + (Nat.digits 10 value).length ≤ PRINT_MAX_NUM_DIGITS) :
    itoaLoop fuel tmpBuf value = some (tmpBuf ++ (Nat.digits 10 value).map chr) := by
  induction fuel generalizing value tmpBuf with
  | zero =>
    rw [Nat.digits_def' (by decide) hpos] at hfuel
    cases hfuel
  | succ fuel ih =>
    rw [Nat.digits_def' (by decide) hpos] at hfuel hcap ⊢
    rw [List.length_cons] at hfuel hcap
    rw [itoaLoop, if_pos (by omega)]
    by_cases hrest : value / 10 > 0
    · simp only [if_pos hrest]
      rw [ih hrest (by omega) (by rw [List.length_append, List.length_singleton]; omega),
        List.append_assoc]
      rfl
    · simp only [if_neg hrest]
      rw [show value / 10 = 0 by omega, Nat.digits_zero]
      rfl

theorem copyDigits_spec (cs : List Nat) {ds : List Nat} (h : Shows digits ds)
    (hlt : ds.length + cs.length ≤ 1024) : ∃ b, copyDigits (cs.map chr) digits ds.length =
      some (b, ds.length + cs.length) ∧ Shows b (ds ++ cs) := by
  induction cs generalizing digits ds with
  | nil => exact ⟨digits, rfl, by rwa [List.append_nil]⟩
  | cons c cs ih =>
    rw [List.length_cons] at hlt
    obtain ⟨b, hstore, hb⟩ := h.push (by omega) c
    obtain ⟨b', hcopy, hb'⟩ := ih hb (by rw [List.length_append, List.length_singleton]; omega)
    rw [List.length_append, List.length_singleton] at hcopy
    refine ⟨b', ?_, by rwa [List.append_assoc] at hb'⟩
    rw [List.map_cons, copyDigits, hstore]
    show copyDigits (cs.map chr) b (ds.length + 1) = _
    rw [hcopy, List.length_cons, Nat.add_assoc, Nat.add_comm 1]

theorem significandToStr_spec (digits : Digits) {f : BitVec 64} (hf : f ≠ 0) :
    ∃ b ds, significandToStr digits f = some (b, ds.length) ∧ Shows b ds ∧ Writes ds f.toNat := by
  have hne : f.toNat ≠ 0 := fun h => hf (BitVec.eq_of_toNat_eq h)
  have hwrites := writes_digits hne
  have hlen : (Nat.digits 10 f.toNat).length ≤ 20 := by
    have h := hwrites.length_le (k := 20) (Nat.lt_trans f.isLt (by norm_num))
    rwa [List.length_reverse] at h
  obtain ⟨b, hcopy, hb⟩ := @copyDigits_spec digits (Nat.digits 10 f.toNat).reverse [] ⟨digits.chars, rfl⟩ (by rw [List.length_reverse, List.length_nil]; omega)
  refine ⟨b, _, ?_, hb, hwrites⟩
  have hcap : PRINT_MAX_NUM_DIGITS = 32 := rfl
  unfold significandToStr
  rw [itoaLoop_spec (Nat.pos_of_ne_zero hne) (by omega)
    (by rw [List.length_nil]; omega)]
  rw [List.length_nil, Nat.zero_add] at hcopy
  simp only [Option.bind_eq_bind, Option.bind_some, List.nil_append, ← List.map_reverse]
  exact hcopy

/-! ## Multiplication by two -/

/-- The digits `ds` are doubled, and `gap` characters lie between them and those that are done. -/
theorem doubleLoop_spec (ds : List Nat) {carry : Nat} {gap rest : List Nat} {digits : Digits}
    (h : digits.chars = ds.map chr ++ gap ++ rest) : ∃ b gap', gap'.length = gap.length ∧
      doubleLoop gap.length ds.length carry digits = some b ∧
      b.chars = gap' ++ (doubled carry ds).2.map chr ++ rest := by
  induction ds using List.reverseRecOn generalizing carry gap rest digits with
  | nil => exact ⟨digits, gap, rfl, rfl, by simpa [doubled] using h⟩
  | append_singleton ds d ih =>
    have hlen : (ds ++ [d]).length = ds.length + 1 := by
      rw [List.length_append, List.length_singleton]
    -- The digit moves into the gap, if there is one.
    obtain ⟨gap', g, hgap', hmove⟩ : ∃ gap' g, gap'.length = gap.length ∧
        chr d :: gap = gap' ++ [g] := by
      refine ⟨(chr d :: gap).dropLast, (chr d :: gap).getLast (List.cons_ne_nil _ _), ?_,
        (List.dropLast_append_getLast _).symm⟩
      rw [List.length_dropLast, List.length_cons, Nat.add_sub_cancel]
    have hload : digits.load ds.length = some (chr d) := by
      have hpre : digits.chars = ds.map chr ++ chr d :: (gap ++ rest) := by
        rw [h, List.map_append]
        simp only [List.map_cons, List.map_nil, List.append_assoc, List.cons_append, List.nil_append]
      have := Digits.load_append hpre
      rwa [List.length_map] at this
    have hat : digits.chars = (ds.map chr ++ gap') ++ g :: rest := by
      rw [h, List.map_append, List.append_assoc, List.append_assoc, List.append_assoc,
        List.map_cons, List.map_nil, List.singleton_append, ← List.cons_append, hmove,
        List.append_assoc]
      rfl
    obtain ⟨b, hstore, hb⟩ := Digits.store_append hat (chr ((carry + 2 * d) % 10))
    rw [List.length_append, List.length_map, hgap'] at hstore
    obtain ⟨b', gap'', hgap'', hrun, hb'⟩ := @ih ((carry + 2 * d) / 10) _ _ _ hb
    refine ⟨b', gap'', hgap''.trans hgap', ?_, ?_⟩
    · rw [hlen, doubleLoop, hload]
      simp only [Option.bind_eq_bind, Option.bind_some, num_chr, hstore]
      rw [← hgap']
      exact hrun
    · rw [doubled_concat, hb', List.map_append]
      simp only [List.map_cons, List.map_nil, List.append_assoc, List.cons_append, List.nil_append]

theorem doubleOnce_spec {v : Nat} (h : Shows digits ds) (hw : Writes ds v)
    (hroom : ds.length < 1024) : ∃ b ds', doubleOnce digits ds.length = some (b, ds'.length) ∧
      Shows b ds' ∧ Writes ds' (2 * v) := by
  obtain ⟨d, tail, rfl⟩ := List.exists_cons_of_ne_nil hw.ne
  obtain ⟨rest, h⟩ := h
  have hload : digits.load 0 = some (chr d) := @Digits.load_append _ [] _ _ h
  have hlen := doubled_length 0 (d :: tail)
  have hdouble := hw.double
  unfold doubleOnce
  rw [hload]
  simp only [Option.bind_eq_bind, Option.bind_some]
  by_cases hbig : 5 ≤ d
  · have hadd : chr d ≥ chr 5 := Nat.add_le_add_left hbig 48
    rw [if_pos hbig] at hdouble
    obtain ⟨a, rest, rfl⟩ := Digits.exists_rest h (by rwa [List.length_map])
    obtain ⟨b, gap, hgap, hrun, hb⟩ := @doubleLoop_spec (d :: tail) 0 [a] rest _ (by rw [h, List.append_assoc]; rfl)
    obtain ⟨g, rfl⟩ := List.length_eq_one_iff.mp hgap
    obtain ⟨b', hstore, hb'⟩ := @Digits.store_append _ [] _ _ hb (chr 1)
    refine ⟨b', 1 :: (doubled 0 (d :: tail)).2, ?_, ⟨rest, hb'⟩, hdouble⟩
    rw [List.length_singleton] at hrun
    rw [List.length_nil] at hstore
    simp only [hadd, if_true, hrun, Option.bind_some, hstore]
    rw [List.length_cons, List.length_cons, hlen, List.length_cons]
  · have hadd : ¬ chr d ≥ chr 5 := fun h => hbig (Nat.le_of_add_le_add_left h)
    rw [if_neg hbig] at hdouble
    obtain ⟨b, gap, hgap, hrun, hb⟩ := @doubleLoop_spec (d :: tail) 0 [] rest _ (by rw [h, List.append_nil])
    rw [List.length_nil] at hrun
    rw [List.length_eq_zero_iff.mp hgap] at hb
    refine ⟨b, (doubled 0 (d :: tail)).2, ?_, ⟨rest, hb⟩, hdouble⟩
    simp only [hadd, if_false, hrun, Option.bind_some, hlen]

theorem doubleTimes_spec {v bound : Nat} (e : Nat) {digits : Digits} {ds : List Nat}
    (h : Shows digits ds) (hw : Writes ds v) (hv : v * 2 ^ e < 10 ^ bound) (hbound : bound < 1024) :
    ∃ b ds', doubleTimes e digits ds.length = some (b, ds'.length) ∧ Shows b ds' ∧
      Writes ds' (v * 2 ^ e) := by
  induction e generalizing v digits ds with
  | zero => exact ⟨digits, ds, rfl, h, by rwa [pow_zero, Nat.mul_one]⟩
  | succ e ih =>
    have hlt : v < 10 ^ bound := Nat.lt_of_le_of_lt (Nat.le_mul_of_pos_right v (by positivity)) hv
    have hroom : ds.length < 1024 := Nat.lt_of_le_of_lt (hw.length_le hlt) hbound
    have hpow : v * 2 ^ (e + 1) = 2 * v * 2 ^ e := by ring
    obtain ⟨b, ds', hrun, hb, hw'⟩ := doubleOnce_spec h hw hroom
    rw [hpow] at hv
    obtain ⟨b', ds'', hrun', hb', hw''⟩ := ih hb hw' hv
    refine ⟨b', ds'', ?_, hb', hpow ▸ hw''⟩
    rw [doubleTimes, hrun]
    exact hrun'

/-! ## Division by two -/

/-- The digits `ds` are halved, and `gap` characters lie between them and those that are done. -/
theorem halveLoop_spec (ds : List Nat) {c : Nat} {done gap rest : List Nat} {digits : Digits}
    (h : digits.chars = done ++ gap ++ ds.map chr ++ rest) : ∃ b rest',
      halveLoop gap.length ds.length done.length c digits = some b ∧
      b.chars = done ++ (halved c ds).1.map chr ++ rest' := by
  induction ds generalizing c done gap rest digits with
  | nil => exact ⟨digits, gap ++ rest, rfl, by simpa [halved] using h⟩
  | cons d ds ih =>
    obtain ⟨g, gap', hgap', hmove⟩ : ∃ g gap', gap'.length = gap.length ∧
        gap ++ [chr d] = g :: gap' := by
      obtain ⟨g, gap', h⟩ := List.exists_cons_of_ne_nil
        (fun h => List.cons_ne_nil _ _ (List.append_eq_nil_iff.mp h).2 : gap ++ [chr d] ≠ [])
      have hlen := congrArg List.length h
      rw [List.length_append, List.length_singleton, List.length_cons] at hlen
      exact ⟨g, gap', by omega, h⟩
    have hload : digits.load (done.length + gap.length) = some (chr d) := by
      have := @Digits.load_append digits (done ++ gap) (ds.map chr ++ rest) (chr d) (by rw [h, List.map_cons]; simp only [List.append_assoc, List.cons_append])
      rwa [List.length_append] at this
    have hat : digits.chars = done ++ g :: (gap' ++ ds.map chr ++ rest) := by
      rw [h, ← List.cons_append, ← List.cons_append, ← hmove, List.map_cons]
      simp only [List.append_assoc, List.cons_append, List.nil_append]
    obtain ⟨b, hstore, hb⟩ := Digits.store_append hat (chr ((c * 10 + d) / 2))
    obtain ⟨b', rest', hrun, hb'⟩ := @ih ((c * 10 + d) % 2)
      (done ++ [chr ((c * 10 + d) / 2)]) gap' rest b
      (by rw [hb]; simp only [List.append_assoc, List.cons_append, List.nil_append])
    rw [List.length_append, List.length_singleton, hgap'] at hrun
    refine ⟨b', rest', ?_, ?_⟩
    · rw [List.length_cons, halveLoop, hload]
      simp only [Option.bind_eq_bind, Option.bind_some, num_chr, hstore]
      exact hrun
    · rw [hb', halved]
      simp only [List.map_cons, List.append_assoc, List.cons_append, List.nil_append]

theorem Shows.load_last (h : Shows digits ds) (hne : ds ≠ []) :
    ∃ l, digits.load (ds.length - 1) = some (chr l) ∧ decimal ds % 2 = chr l % 2 := by
  obtain ⟨rest, h⟩ := h
  rw [← List.dropLast_append_getLast hne, List.map_append, List.append_assoc] at h
  have hload := Digits.load_append h
  rw [List.length_map, List.length_dropLast] at hload
  refine ⟨ds.getLast hne, hload, ?_⟩
  have hval := decimal_concat ds.dropLast (ds.getLast hne)
  rw [List.dropLast_append_getLast] at hval
  rw [hval, chr]
  omega

/-- The digits of an even number are halved. -/
theorem halve_even {v : Nat} (h : Shows digits ds) (hw : Writes ds (2 * v)) (point : Int) :
    ∃ first b ds' point', digits.load 0 = some first ∧
      (if first < chr 2 then
          (halveLoop 1 (ds.length - 1) 0 (num first) digits).bind fun b =>
            some (b, ds.length - 1, point - 1)
        else (halveLoop 0 ds.length 0 0 digits).bind fun b => some (b, ds.length, point)) =
        some (b, ds'.length, point') ∧
      Shows b ds' ∧ Writes ds' v ∧ (ds'.length : Int) - point' = ds.length - point := by
  obtain ⟨d, tail, rfl⟩ := List.exists_cons_of_ne_nil hw.ne
  obtain ⟨rest, h⟩ := h
  have hload : digits.load 0 = some (chr d) := @Digits.load_append _ [] _ _ h
  have hhalve := hw.halve
  by_cases hsmall : d < 2
  · have hlt : chr d < chr 2 := Nat.add_lt_add_left hsmall 48
    rw [if_pos hsmall] at hhalve
    obtain ⟨b, rest', hrun, hb⟩ := @halveLoop_spec tail d [] [chr d] rest digits h
    refine ⟨chr d, b, _, point - 1, hload, ?_, ⟨rest', hb⟩, hhalve, ?_⟩
    · rw [if_pos hlt, num_chr, halved_length, List.length_cons, Nat.add_sub_cancel]
      exact congrArg (Option.bind · _) hrun
    · rw [halved_length, List.length_cons]
      omega
  · have hlt : ¬ chr d < chr 2 := fun h => hsmall (Nat.lt_of_add_lt_add_left h)
    rw [if_neg hsmall] at hhalve
    obtain ⟨b, rest', hrun, hb⟩ := @halveLoop_spec (d :: tail) 0 [] [] rest digits h
    refine ⟨chr d, b, _, point, hload, ?_, ⟨rest', hb⟩, hhalve, by rw [halved_length]⟩
    rw [if_neg hlt, halved_length]
    exact congrArg (Option.bind · _) hrun

/-- A round of the division; an odd number gets another digit. -/
theorem halveOnce_spec {v : Nat} (h : Shows digits ds) (hw : Writes ds v)
    (hroom : ds.length < 1024) (point : Int) : ∃ (b : Digits) (ds' : List Nat) (point' : Int)
      (w grow : Nat),
      halveOnce digits ds.length point = some (b, ds'.length, point') ∧ Shows b ds' ∧
      Writes ds' w ∧ grow = v % 2 ∧ 2 * w = v * 10 ^ grow ∧
      (ds'.length : Int) - point' = ds.length - point + grow := by
  obtain ⟨l, hlast, hparity⟩ := h.load_last hw.ne
  rw [hw.value] at hparity
  unfold halveOnce
  rw [hlast]
  simp only [Option.bind_eq_bind, Option.bind_some]
  by_cases hodd : chr l % 2 ≠ 0
  · obtain ⟨b₀, hstore, hb₀⟩ := h.push hroom 0
    have hw₀ : Writes (ds ++ [0]) (2 * (v * 5)) := by
      have hpush := hw.push (d := 0) (by decide)
      rwa [show v * 10 + 0 = 2 * (v * 5) by ring] at hpush
    obtain ⟨first, b, ds', point', hload, hrun, hb, hw', hlen⟩ := halve_even hb₀ hw₀ point
    rw [List.length_append, List.length_singleton] at hrun hlen
    refine ⟨b, ds', point', v * 5, 1, ?_, hb, hw', by omega, by ring, by omega⟩
    rw [if_pos hodd, hstore]
    simp only [Option.map_some, Option.bind_some, hload]
    exact hrun
  · have heven : 2 * (v / 2) = v := by omega
    obtain ⟨first, b, ds', point', hload, hrun, hb, hw', hlen⟩ :=
      halve_even h (heven.symm ▸ hw) point
    refine ⟨b, ds', point', v / 2, 0, ?_, hb, hw', by omega, by rw [heven, pow_zero, Nat.mul_one],
      by omega⟩
    rw [if_neg hodd]
    simp only [Option.bind_some, hload]
    exact hrun

theorem five_pow_le {k m : Nat} (h : k ≤ 10 * m) : 5 ^ k ≤ 10 ^ (7 * m) := by
  calc 5 ^ k ≤ 5 ^ (10 * m) := Nat.pow_le_pow_right (by decide) h
    _ = (5 ^ 10) ^ m := Nat.pow_mul 5 10 m
    _ ≤ (10 ^ 7) ^ m := Nat.pow_le_pow_left (by norm_num) m
    _ = 10 ^ (7 * m) := (Nat.pow_mul 10 7 m).symm

/-- A digit is added at most once a round. -/
theorem length_le_of_rounds {f k q v m : Nat} (hw : Writes ds v) (hf : f < 10 ^ 20)
    (hk : k ≤ 10 * m) (hq : q ≤ k) (hv : v * 2 ^ k = f * 10 ^ q) : ds.length ≤ 20 + 7 * m := by
  refine hw.length_le (Nat.lt_of_mul_lt_mul_right (a := 2 ^ k) ?_)
  calc v * 2 ^ k = f * 10 ^ q := hv
    _ ≤ f * 10 ^ k := Nat.mul_le_mul_left f (Nat.pow_le_pow_right (by decide) hq)
    _ < 10 ^ 20 * 10 ^ k := Nat.mul_lt_mul_of_pos_right hf (by positivity)
    _ = 10 ^ 20 * 5 ^ k * 2 ^ k := by rw [Nat.mul_assoc, ← Nat.mul_pow]
    _ ≤ 10 ^ (20 + 7 * m) * 2 ^ k := by
      rw [Nat.pow_add]
      exact Nat.mul_le_mul_right _ (Nat.mul_le_mul_left _ (five_pow_le hk))

/-- The array is never full. -/
theorem room_of_rounds {f k q v : Nat} (hw : Writes ds v) (hf : f < 10 ^ 20) (hk : k ≤ 1137)
    (hq : q ≤ k) (hv : v * 2 ^ k = f * 10 ^ q) : ds.length < 1024 := by
  have := length_le_of_rounds (m := 114) hw hf (by omega) hq hv
  omega

/-- `k` rounds after `f`, the digits that are there write `f` times a power of ten. -/
theorem halveTimes_spec {f : Nat} (e : Nat) {k q v : Nat} {point : Int} {digits : Digits}
    {ds : List Nat} (h : Shows digits ds) (hw : Writes ds v) (hf : f < 10 ^ 20)
    (hk : k + e ≤ 1137) (hq : q ≤ k) (hv : v * 2 ^ k = f * 10 ^ q)
    (hpoint : (ds.length : Int) - point = q) (hfive : 0 < q → v % 10 = 5) :
    ∃ (b : Digits) (ds' : List Nat) (point' : Int) (q' v' : Nat),
      halveTimes e digits ds.length point = some (b, ds'.length, point') ∧ Shows b ds' ∧
      Writes ds' v' ∧ v' * 2 ^ (k + e) = f * 10 ^ q' ∧ (ds'.length : Int) - point' = q' ∧
      q' ≤ k + e ∧ (0 < q' → v' % 10 = 5) ∧ ds'.length < 1024 := by
  have hroom := room_of_rounds hw hf (by omega) hq hv
  induction e generalizing k q v point digits ds with
  | zero => exact ⟨digits, ds, point, q, v, rfl, h, hw, hv, hpoint, hq, hfive, hroom⟩
  | succ e ih =>
    obtain ⟨b, ds', point', w, grow, hrun, hb, hw', hgrow, hwv, hlen⟩ :=
      halveOnce_spec h hw hroom point
    have hv' : w * 2 ^ (k + 1) = f * 10 ^ (q + grow) := by
      calc w * 2 ^ (k + 1) = 2 * w * 2 ^ k := by ring
        _ = v * 2 ^ k * 10 ^ grow := by rw [hwv]; ring
        _ = f * 10 ^ (q + grow) := by rw [hv]; ring
    have hpoint' : (ds'.length : Int) - point' = ((q + grow : Nat) : Int) := by
      rw [hlen, hpoint, Nat.cast_add]
    -- A number that got digits is odd, and its half ends in a five again.
    have hfive' : 0 < q + grow → w % 10 = 5 := by
      intro hpos
      by_cases hodd : v % 2 = 1
      · rw [hgrow, hodd, pow_one] at hwv
        omega
      · have := hfive (by omega)
        omega
    obtain ⟨b', ds'', point'', q'', v'', hrun', hb', hw'', hv'', hlen', hq', hlast, hroom'⟩ :=
      ih hb hw' (by omega) (by omega) hv' hpoint' hfive'
        (room_of_rounds hw' hf (by omega) (by omega) hv')
    refine ⟨b', ds'', point'', q'', v'', ?_, hb', hw'', ?_, hlen', by omega, hlast, hroom'⟩
    · rw [halveTimes, hrun]
      exact hrun'
    · rw [Nat.add_comm e 1, ← Nat.add_assoc]
      exact hv''

/-! ## The fields of a double -/

theorem and_high_mask {w : Nat} (x : BitVec w) (k : Nat) :
    x &&& BitVec.allOnes w <<< k = 0 ↔ x.toNat < 2 ^ k := by
  have hle : x.toNat / 2 ^ k * 2 ^ k < 2 ^ w :=
    Nat.lt_of_le_of_lt (Nat.div_mul_le_self _ _) x.isLt
  rw [← BitVec.shiftLeft_ushiftRight, ← BitVec.toNat_inj, BitVec.toNat_shiftLeft,
    BitVec.toNat_ushiftRight, Nat.shiftLeft_eq, Nat.shiftRight_eq_div_pow, Nat.mod_eq_of_lt hle]
  show _ = 0 % 2 ^ w ↔ _
  rw [Nat.zero_mod, Nat.mul_eq_zero, Nat.div_eq_zero_iff_lt (by positivity)]
  exact ⟨fun h => h.resolve_right (by positivity), .inl⟩

theorem toNat_shiftLeft_of_lt {x : BitVec 64} {k : Nat} (h : x.toNat * 2 ^ k < 2 ^ 64) :
    (x <<< k).toNat = x.toNat * 2 ^ k := by
  rw [BitVec.toNat_shiftLeft, Nat.shiftLeft_eq, Nat.mod_eq_of_lt h]

theorem log2_mul_pow {n : Nat} (hn : n ≠ 0) (s : Nat) : (n * 2 ^ s).log2 = n.log2 + s := by
  rw [Nat.log2_eq_iff (Nat.mul_ne_zero hn (by positivity)), Nat.pow_add, Nat.add_right_comm,
    Nat.pow_add]
  obtain ⟨hle, hlt⟩ := (Nat.log2_eq_iff hn).mp rfl
  exact ⟨Nat.mul_le_mul_right _ hle, Nat.mul_lt_mul_of_pos_right hlt (by positivity)⟩

/-- The shifts stop at the first significand that has a bit of the mask. -/
theorem shift_spec {step bound fuel : Nat} {mask : BitVec 64} (hstep : 0 < step)
    (hbound : bound + step ≤ 64) (hmask : mask = BitVec.allOnes 64 <<< bound) {x : CustomFP}
    (hx : x.f ≠ 0) (hfuel : (63 - x.f.toNat.log2) / step < fuel) :
    ∃ k : Nat, runSteps (CustomFP.shift step) (fun x => x.f &&& mask ≠ 0) fuel x =
        some ⟨x.f <<< k, x.e - k⟩ ∧
      x.f.toNat * 2 ^ k < 2 ^ 64 ∧ 2 ^ bound ≤ x.f.toNat * 2 ^ k := by
  have hpos : x.f.toNat ≠ 0 := fun h => hx (BitVec.eq_of_toNat_eq h)
  let Inv (y : CustomFP) := ∃ k : Nat, y = ⟨x.f <<< k, x.e - k⟩ ∧ x.f.toNat * 2 ^ k < 2 ^ 64
  let left (y : CustomFP) := (63 - y.f.toNat.log2) / step
  have hnext (y : CustomFP) (hy : Inv y) (hrun : ¬ y.f &&& mask ≠ 0) :
      ∃ z, CustomFP.shift step y = some z ∧ Inv z ∧ left z < left y := by
    obtain ⟨k, rfl, hk⟩ := hy
    rw [not_not, hmask, and_high_mask, toNat_shiftLeft_of_lt hk] at hrun
    have hk' : x.f.toNat * 2 ^ (k + step) < 2 ^ 64 := by
      calc x.f.toNat * 2 ^ (k + step) = x.f.toNat * 2 ^ k * 2 ^ step := by ring
        _ < 2 ^ bound * 2 ^ step := Nat.mul_lt_mul_of_pos_right hrun (by positivity)
        _ = 2 ^ (bound + step) := (Nat.pow_add 2 bound step).symm
        _ ≤ 2 ^ 64 := Nat.pow_le_pow_right (by decide) hbound
    have hshift : x.f <<< k <<< step = x.f <<< (k + step) := (BitVec.shiftLeft_add _ _ _).symm
    refine ⟨_, rfl, ⟨k + step, ?_, hk'⟩, ?_⟩
    · rw [hshift, Nat.cast_add, Int.sub_sub]
    · have hlog : (x.f.toNat * 2 ^ k).log2 < bound :=
        (Nat.log2_lt (Nat.mul_ne_zero hpos (by positivity))).mpr hrun
      have hlog' : (x.f.toNat * 2 ^ (k + step)).log2 = (x.f.toNat * 2 ^ k).log2 + step := by
        rw [Nat.pow_add, ← Nat.mul_assoc, log2_mul_pow (Nat.mul_ne_zero hpos (by positivity))]
      show (63 - (x.f <<< k <<< step).toNat.log2) / step < (63 - (x.f <<< k).toNat.log2) / step
      rw [hshift, toNat_shiftLeft_of_lt hk', toNat_shiftLeft_of_lt hk, hlog', ← Nat.sub_sub]
      have hone := Nat.sub_mul_div (63 - (x.f.toNat * 2 ^ k).log2) step 1
      rw [Nat.mul_one] at hone
      have hge : 1 ≤ (63 - (x.f.toNat * 2 ^ k).log2) / step :=
        (Nat.le_div_iff_mul_le hstep).mpr (by omega)
      omega
  obtain ⟨y, hrun, ⟨k, rfl, hk⟩, hhalt⟩ := runSteps_halts hnext
    ⟨0, by simp, by simpa using x.f.isLt⟩ hfuel
  refine ⟨k, hrun, hk, ?_⟩
  rw [ne_eq, hmask, and_high_mask, toNat_shiftLeft_of_lt hk] at hhalt
  exact Nat.le_of_not_lt hhalt

/-- The significand is shifted until it has all its 64 bits. -/
theorem customFpNorm_spec {x : CustomFP} (hx : x.f ≠ 0) :
    ∃ k : Nat, customFpNorm x = some ⟨x.f <<< k, x.e - k⟩ ∧
      (x.f <<< k).toNat = x.f.toNat * 2 ^ k ∧ 2 ^ 63 ≤ x.f.toNat * 2 ^ k := by
  have hpos : x.f.toNat ≠ 0 := fun h => hx (BitVec.eq_of_toNat_eq h)
  obtain ⟨k, hrun, hlt, hge⟩ := @shift_spec 8 56 8 0xFF00000000000000 (by decide) (by decide) (by decide) _ hx (by omega)
  have hshift := toNat_shiftLeft_of_lt hlt
  have hne : x.f <<< k ≠ 0 := fun h => by
    rw [h] at hshift
    have : 0 < x.f.toNat * 2 ^ k := Nat.lt_of_lt_of_le (by decide) hge
    exact absurd hshift.symm (Nat.pos_iff_ne_zero.mp this)
  have hlog : 56 ≤ (x.f <<< k).toNat.log2 := by
    rw [hshift]
    exact (Nat.le_log2 (Nat.mul_ne_zero hpos (by positivity))).mpr hge
  obtain ⟨j, hrun', hlt', hge'⟩ := @shift_spec 1 63 8 0x8000000000000000 (by decide) (by decide) (by decide) ⟨x.f <<< k, x.e - k⟩ hne (by show (63 - (x.f <<< k).toNat.log2) / 1 < 8; omega)
  have hadd : x.f <<< k <<< j = x.f <<< (k + j) := (BitVec.shiftLeft_add _ _ _).symm
  have hval : (x.f <<< k).toNat * 2 ^ j = x.f.toNat * 2 ^ (k + j) := by
    rw [hshift, Nat.pow_add, Nat.mul_assoc]
  refine ⟨k + j, ?_, toNat_shiftLeft_of_lt (hval ▸ hlt'), hval ▸ hge'⟩
  unfold customFpNorm
  simp only [hrun, Option.bind_eq_bind, Option.bind_some]
  rw [hrun', hadd, Nat.cast_add, Int.sub_sub]

/-- The exponent field of a double. -/
def f64Exp (x : BitVec 64) : Nat := x.toNat / 2 ^ 52 % 2 ^ 11

/-- The fraction field of a double. -/
def f64Frac (x : BitVec 64) : Nat := x.toNat % 2 ^ 52

/-- Neither an infinity nor a NaN. -/
def IsFinite (x : BitVec 64) : Prop := f64Exp x ≠ 2047

instance (x : BitVec 64) : Decidable (IsFinite x) := inferInstanceAs (Decidable (_ ≠ _))

/-- The absolute value of a finite double. -/
def f64Abs (x : BitVec 64) : ℚ :=
  if f64Exp x = 0 then f64Frac x * 2 ^ (-1074 : Int)
  else (2 ^ 52 + f64Frac x) * 2 ^ ((f64Exp x : Int) - 1075)

theorem toNat_and_frac (x : BitVec 64) : (x &&& F64_FRAC_MASK).toNat = f64Frac x := by
  rw [BitVec.toNat_and, f64Frac, ← Nat.and_two_pow_sub_one_eq_mod]
  rfl

theorem toNat_exp (x : BitVec 64) : ((x &&& F64_EXP_MASK) >>> F64_EXP_POS).toNat = f64Exp x := by
  rw [BitVec.ushiftRight_and_distrib, BitVec.toNat_and, BitVec.toNat_ushiftRight,
    Nat.shiftRight_eq_div_pow, f64Exp, ← Nat.and_two_pow_sub_one_eq_mod]
  rfl

theorem and_exp_eq_zero (x : BitVec 64) : x &&& F64_EXP_MASK = 0 ↔ f64Exp x = 0 := by
  rw [← toNat_exp]
  refine ⟨fun h => by rw [h]; rfl, fun h => ?_⟩
  have hzero : (x &&& F64_EXP_MASK) >>> F64_EXP_POS = 0 := BitVec.eq_of_toNat_eq h
  have hlow : F64_EXP_MASK &&& BitVec.allOnes 64 <<< F64_EXP_POS = F64_EXP_MASK := by decide
  have hback := BitVec.shiftLeft_ushiftRight (x := x &&& F64_EXP_MASK) (n := F64_EXP_POS)
  rw [hzero, BitVec.and_assoc, hlow] at hback
  exact hback.symm

/-- The significand and the exponent that are read from the fields. -/
theorem customFpFromF64_spec {x : BitVec 64} (hfin : IsFinite x) : ∃ (f : Nat) (e : Int),
    customFpFromF64 x = ⟨BitVec.ofNat 64 f, e⟩ ∧ f < 2 ^ 53 ∧ -1074 ≤ e ∧ e ≤ 971 ∧
    (f : ℚ) * 2 ^ e = f64Abs x := by
  have hfrac : f64Frac x < 2 ^ 52 := Nat.mod_lt _ (by decide)
  have hexp : f64Exp x < 2 ^ 11 := Nat.mod_lt _ (by decide)
  have hne : f64Exp x ≠ 2047 := hfin
  unfold customFpFromF64 f64Abs
  by_cases hsub : f64Exp x = 0
  · rw [if_pos ((and_exp_eq_zero x).mpr hsub), if_pos hsub]
    refine ⟨f64Frac x, -1074, ?_, by omega, by omega, by omega, rfl⟩
    rw [← toNat_and_frac, BitVec.ofNat_toNat, BitVec.setWidth_eq]
    rfl
  · rw [if_neg (fun h => hsub ((and_exp_eq_zero x).mp h)), if_neg hsub, toNat_exp]
    refine ⟨2 ^ 52 + f64Frac x, f64Exp x - 1075, ?_, by omega, by omega, by omega, by push_cast; rfl⟩
    rw [← toNat_and_frac, BitVec.ofNat_add, BitVec.ofNat_toNat, BitVec.setWidth_eq]
    rfl

theorem sign_ne_zero (x : BitVec 64) : x >>> 63 ≠ 0 ↔ x.msb = true := by
  have hx := x.isLt
  rw [BitVec.msb_eq_decide, decide_eq_true_iff, ne_eq, ← BitVec.toNat_inj, BitVec.toNat_ushiftRight,
    Nat.shiftRight_eq_div_pow]
  show ¬ x.toNat / 2 ^ 63 = 0 ↔ 2 ^ 63 ≤ x.toNat
  omega

/-- The sign bit is taken away. -/
theorem clear_sign (x : BitVec 64) :
    (if x >>> 63 ≠ 0 then x ^^^ F64_SIGN_MASK else x).toNat = x.toNat % 2 ^ 63 := by
  have hx := x.isLt
  split
  · rename_i hneg
    have hge : 2 ^ 63 ≤ x.toNat := by
      have hmsb := (sign_ne_zero x).mp hneg
      rw [BitVec.msb_eq_decide, decide_eq_true_iff] at hmsb
      exact hmsb
    have hmask : F64_SIGN_MASK.toNat = 2 ^ 63 := by decide
    rw [BitVec.toNat_xor, hmask]
    refine Nat.eq_of_testBit_eq fun i => ?_
    rw [Nat.testBit_xor, Nat.testBit_two_pow, Nat.testBit_mod_two_pow]
    rcases Nat.lt_trichotomy i 63 with hi | rfl | hi
    · simp [hi, Nat.ne_of_gt hi]
    · have hbit : x.toNat.testBit 63 = true := by
        rw [Nat.testBit_eq_decide_div_mod_eq, decide_eq_true_iff]
        omega
      simp [hbit]
    · have hbit : x.toNat.testBit i = false :=
        Nat.testBit_lt_two_pow (Nat.lt_of_lt_of_le hx (Nat.pow_le_pow_right (by decide) hi))
      simp [hbit, Nat.ne_of_lt hi]
  · rename_i hpos
    have hmsb := (sign_ne_zero x).not.mp hpos
    rw [BitVec.msb_eq_decide, decide_eq_true_iff] at hmsb
    exact (Nat.mod_eq_of_lt (Nat.lt_of_not_le hmsb)).symm

/-! ## The whole conversion -/

theorem mul_two_pow_lt {f a b m : Nat} (hf : f < 2 ^ a) (hm : m ≠ 0) (hab : a + b ≤ 2 * m) :
    f * 2 ^ b < 10 ^ m := by
  calc f * 2 ^ b < 2 ^ a * 2 ^ b := Nat.mul_lt_mul_of_pos_right hf (by positivity)
    _ = 2 ^ (a + b) := (Nat.pow_add 2 a b).symm
    _ ≤ 2 ^ (2 * m) := Nat.pow_le_pow_right (by decide) hab
    _ = (2 ^ 2) ^ m := Nat.pow_mul 2 2 m
    _ < 10 ^ m := Nat.pow_lt_pow_left (by decide) hm

/-- The digits write `f * 2 ^ e`. -/
theorem customFpToStr_spec (digits : Digits) {fp : CustomFP} (hf : fp.f ≠ 0)
    (hup : fp.f.toNat * 2 ^ fp.e.toNat < 10 ^ 512) (hlow : -1137 ≤ fp.e) :
    ∃ (b : Digits) (ds : List Nat) (point : Int) (q : Nat) (v : Nat),
      customFpToStr digits fp = some (b, ds.length, point) ∧ Shows b ds ∧ Writes ds v ∧
      (ds.length : Int) - point = q ∧ q ≤ 1137 ∧ (0 < q → v % 10 = 5) ∧ ds.length < 1024 ∧
      (v : ℚ) * 10 ^ (-(q : Int)) = fp.f.toNat * 2 ^ fp.e := by
  obtain ⟨b, ds, hsig, hb, hw⟩ := significandToStr_spec digits hf
  obtain ⟨b₁, ds₁, hdouble, hb₁, hw₁⟩ := doubleTimes_spec fp.e.toNat hb hw hup (by decide)
  unfold customFpToStr
  simp only [hsig, hdouble, Option.bind_eq_bind, Option.bind_some]
  rcases le_or_gt 0 fp.e with hpos | hneg
  · have hnone : (-fp.e).toNat = 0 := by omega
    have hlen := hw₁.length_le hup
    rw [hnone]
    refine ⟨b₁, ds₁, ds₁.length, 0, _, rfl, hb₁, hw₁, by omega, by omega,
      fun h => absurd h (Nat.lt_irrefl 0), by omega, ?_⟩
    rw [Nat.cast_zero, neg_zero, zpow_zero, mul_one, Nat.cast_mul, Nat.cast_pow, Nat.cast_ofNat,
      ← zpow_natCast, Int.toNat_of_nonneg hpos]
  · have hnone : fp.e.toNat = 0 := by omega
    rw [hnone, pow_zero, Nat.mul_one] at hw₁
    have hlt : fp.f.toNat < 10 ^ 20 := Nat.lt_trans fp.f.isLt (by norm_num)
    obtain ⟨b₂, ds₂, point, q, v, hrun, hb₂, hw₂, hv, hpoint, hq, hfive, hroom⟩ :=
      @halveTimes_spec _ (-fp.e).toNat 0 0 _ ds₁.length _ _ hb₁ hw₁ hlt (by omega) (Nat.le_refl 0) (by rw [pow_zero, pow_zero]) (by omega)
        fun h => absurd h (Nat.lt_irrefl 0)
    refine ⟨b₂, ds₂, point, q, v, hrun, hb₂, hw₂, hpoint, by omega, hfive, hroom, ?_⟩
    have he : (2 : ℚ) ^ fp.e = (2 ^ (-fp.e).toNat)⁻¹ := by
      rw [← zpow_natCast, Int.toNat_of_nonneg (by omega), zpow_neg, inv_inv]
    have hcast : (v : ℚ) * 2 ^ (-fp.e).toNat = fp.f.toNat * 10 ^ q := by
      rw [Nat.zero_add] at hv
      exact_mod_cast hv
    rw [he, zpow_neg, zpow_natCast, mul_inv_eq_iff_eq_mul₀ (by positivity), mul_right_comm,
      eq_mul_inv_iff_mul_eq₀ (by positivity), hcast]

/-- The digits of a normalised significand write what was there before. -/
theorem normalised_spec (digits : Digits) {f : Nat} {e : Int} (hf0 : f ≠ 0) (hf : f < 2 ^ 53)
    (hlow : -1074 ≤ e) (hup : e ≤ 971) :
    ∃ (fp : CustomFP) (b : Digits) (ds : List Nat) (point : Int) (q : Nat) (v : Nat),
      customFpNorm ⟨BitVec.ofNat 64 f, e⟩ = some fp ∧
      customFpToStr digits fp = some (b, ds.length, point) ∧ Shows b ds ∧ Writes ds v ∧
      (ds.length : Int) - point = q ∧ q ≤ 1137 ∧ (0 < q → v % 10 = 5) ∧ ds.length < 1024 ∧
      (v : ℚ) * 10 ^ (-(q : Int)) = f * 2 ^ e := by
  have hof : (BitVec.ofNat 64 f).toNat = f := by
    rw [BitVec.toNat_ofNat]
    exact Nat.mod_eq_of_lt (Nat.lt_trans hf (by decide))
  obtain ⟨k, hnorm, hval, hge⟩ := customFpNorm_spec (x := ⟨BitVec.ofNat 64 f, e⟩)
    fun h => hf0 (hof.symm.trans (congrArg BitVec.toNat h))
  have hlt := (BitVec.ofNat 64 f <<< k).isLt
  simp only [hof] at hval hge
  rw [hval] at hlt
  have hk : k < 64 := by
    refine (Nat.pow_lt_pow_iff_right (a := 2) (by decide)).mp (Nat.lt_of_le_of_lt ?_ hlt)
    exact Nat.le_mul_of_pos_left _ (Nat.pos_of_ne_zero hf0)
  have hbound : f * 2 ^ k * 2 ^ (e - k).toNat < 10 ^ 512 := by
    rcases le_or_gt (k : Int) e with hke | hke
    · rw [Nat.mul_assoc, ← Nat.pow_add, show k + (e - k).toNat = e.toNat by omega]
      exact mul_two_pow_lt hf (by decide) (by omega)
    · rw [show (e - k).toNat = 0 by omega]
      exact mul_two_pow_lt hlt (by decide) (by decide)
  obtain ⟨b, ds, point, q, v, hrun, hb, hw, hpoint, hq, hfive, hroom, hv⟩ :=
    @customFpToStr_spec digits ⟨BitVec.ofNat 64 f <<< k, e - k⟩ (fun h => by
        have hzero := congrArg BitVec.toNat h
        rw [hval] at hzero
        exact Nat.mul_ne_zero hf0 (by positivity) hzero) (by simpa only [hval] using hbound) (by show -1137 ≤ e - k; omega)
  refine ⟨_, b, ds, point, q, v, hnorm, hrun, hb, hw, hpoint, hq, hfive, hroom, hv.trans ?_⟩
  show ((BitVec.ofNat 64 f <<< k).toNat : ℚ) * 2 ^ (e - k : Int) = f * 2 ^ e
  rw [hval, Nat.cast_mul, Nat.cast_pow, Nat.cast_ofNat, mul_assoc, ← zpow_natCast,
    ← zpow_add₀ two_ne_zero, add_sub_cancel]

/-- The number of `n` digits with the point at `point`. -/
theorem scale_eq {n : Nat} {point q : Int} (v : Nat) (h : (n : Int) - point = q) :
    (v : ℚ) / 10 ^ n * 10 ^ point = v * 10 ^ (-q) := by
  rw [div_mul_eq_mul_div, mul_div_assoc, ← zpow_natCast (10 : ℚ) n, ← zpow_sub₀ (by norm_num),
    show point - (n : Int) = -q by omega]

/-- What `f64_to_str` leaves of a finite double: `q` of its digits lie after the point. -/
structure Written (x : BitVec 64) (s : F64String) (ds : List Nat) (q : Nat) : Prop where
  numDigits : s.numDigits = ds.length
  shows : Shows s.digits ds
  lt : ∀ d ∈ ds, d < 10
  first : if f64Abs x = 0 then ds = [0] else ∃ d, ds.head? = some d ∧ d ≠ 0
  point : (ds.length : Int) - s.decimalPoint = q
  fracs : q ≤ 1137
  last : 0 < q → decimal ds % 10 = 5
  value : (decimal ds : ℚ) * 10 ^ (-(q : Int)) = f64Abs x
  flags : s.flags = if x.msb then F64_STRING_IS_NEG else 0
  room : ds.length < 1024
  terminated : f64Abs x ≠ 0 → s.digits.load ds.length = some 0

theorem f64Exp_congr {x y : BitVec 64} (h : y.toNat = x.toNat % 2 ^ 63) : f64Exp y = f64Exp x := by
  unfold f64Exp
  omega

theorem f64Frac_congr {x y : BitVec 64} (h : y.toNat = x.toNat % 2 ^ 63) :
    f64Frac y = f64Frac x := by
  unfold f64Frac
  omega

theorem f64Abs_congr {x y : BitVec 64} (h : y.toNat = x.toNat % 2 ^ 63) : f64Abs y = f64Abs x := by
  unfold f64Abs
  rw [f64Exp_congr h, f64Frac_congr h]

theorem f64Abs_eq_zero {x : BitVec 64} : f64Abs x = 0 ↔ x.toNat % 2 ^ 63 = 0 := by
  have hexp : f64Exp x = x.toNat / 2 ^ 52 % 2 ^ 11 := rfl
  have hfrac : f64Frac x = x.toNat % 2 ^ 52 := rfl
  have hpow (e : Int) : (2 : ℚ) ^ e ≠ 0 := zpow_ne_zero e two_ne_zero
  unfold f64Abs
  split
  · rename_i hzero
    rw [mul_eq_zero, or_iff_left (hpow _), Nat.cast_eq_zero]
    omega
  · rename_i hne
    refine iff_of_false (mul_ne_zero (by positivity) (hpow _)) ?_
    omega

theorem f64ToStr_spec (dst : F64String) {x : BitVec 64} (hfin : IsFinite x) :
    ∃ s ds q, f64ToStr dst x = some s ∧ Written x s ds q := by
  have hclear := clear_sign x
  have hflags : (if x >>> 63 ≠ 0 then F64_STRING_IS_NEG else 0) =
      if x.msb then F64_STRING_IS_NEG else 0 := by simp only [sign_ne_zero]
  unfold f64ToStr
  simp only [hflags]
  generalize hy : (if x >>> 63 ≠ 0 then x ^^^ F64_SIGN_MASK else x) = y at hclear
  by_cases hzero : y = 0
  · have habs : f64Abs x = 0 := by
      rw [f64Abs_eq_zero, ← hclear, hzero]
      rfl
    obtain ⟨b, hstore, hb⟩ := (show Shows dst.digits [] from ⟨_, rfl⟩).push (by decide) 0
    refine ⟨⟨b, 1, 1, if x.msb then F64_STRING_IS_NEG else 0⟩, [0], 0, ?_, rfl, hb, ?_, ?_, rfl,
      Nat.zero_le _, fun h => absurd h (Nat.lt_irrefl 0), ?_, rfl, by decide,
      fun h => absurd habs h⟩
    · rw [if_pos hzero]
      exact congrArg (Option.bind · _) hstore
    · intro d hd
      rw [List.mem_singleton.mp hd]
      decide
    · rw [if_pos habs]
    · rw [habs, decimal_singleton, Nat.cast_zero, zero_mul]
  · have habs : f64Abs x ≠ 0 := by
      rw [ne_eq, f64Abs_eq_zero, ← hclear]
      exact fun h => hzero (BitVec.eq_of_toNat_eq h)
    have hfin' : IsFinite y := by
      unfold IsFinite
      rwa [f64Exp_congr hclear]
    have hexp : (y &&& F64_EXP_MASK) >>> F64_EXP_POS ≠ 0x7FF := by
      intro h
      exact hfin' (by rw [← toNat_exp, h]; rfl)
    obtain ⟨f, e, hfp, hf, hlow, hup, hval⟩ := customFpFromF64_spec hfin'
    rw [f64Abs_congr hclear] at hval
    have hf0 : f ≠ 0 := fun h => habs (by rw [← hval, h, Nat.cast_zero, zero_mul])
    obtain ⟨norm, b, ds, point, q, v, hnorm, hrun, hb, hw, hpoint, hq, hfive, hroom, hv⟩ :=
      normalised_spec dst.digits hf0 hf hlow hup
    obtain ⟨rest, hrest⟩ := hb
    obtain ⟨a, rest, rfl⟩ := Digits.exists_rest hrest (by rwa [List.length_map])
    obtain ⟨b', hstore, hb'⟩ := Digits.store_append hrest 0
    have hload := Digits.load_append hb'
    rw [List.length_map] at hstore hload
    refine ⟨⟨b', ds.length, point, if x.msb then F64_STRING_IS_NEG else 0⟩, ds, q, ?_, rfl,
      ⟨_, hb'⟩, hw.lt, ?_, hpoint, hq, by rwa [hw.value], ?_, rfl, hroom, fun _ => hload⟩
    · simp only [if_neg hzero, if_neg hexp, hfp, hnorm, hrun, hstore, Option.bind_eq_bind,
        Option.bind_some]
    · obtain ⟨d, ds, rfl⟩ := List.exists_cons_of_ne_nil hw.ne
      rw [if_neg habs]
      exact ⟨d, rfl, hw.head d rfl⟩
    · rw [hw.value, hv, hval]

/-- The digits of a double write its absolute value, and all of them are in the array. -/
theorem f64_to_str_exact (dst : F64String) (x : BitVec 64) (hfin : IsFinite x) :
    ∃ s ds, f64ToStr dst x = some s ∧ s.numDigits = ds.length ∧ Shows s.digits ds ∧
      (∀ d ∈ ds, d < 10) ∧
      (decimal ds : ℚ) / 10 ^ ds.length * 10 ^ s.decimalPoint = f64Abs x ∧
      (f64Abs x = 0 → ds = [0]) ∧
      (f64Abs x ≠ 0 → (∃ d, ds.head? = some d ∧ d ≠ 0) ∧ s.digits.load ds.length = some 0) ∧
      s.flags = if x.msb then F64_STRING_IS_NEG else 0 := by
  obtain ⟨s, ds, q, hrun, h⟩ := f64ToStr_spec dst hfin
  have hfirst := h.first
  refine ⟨s, ds, hrun, h.numDigits, h.shows, h.lt, ?_, fun h0 => ?_, fun h0 => ⟨?_, h.terminated h0⟩,
    h.flags⟩
  · rw [scale_eq _ h.point, h.value]
  · rwa [if_pos h0] at hfirst
  · rwa [if_neg h0] at hfirst

theorem f64_to_str_three_halves : IsFinite 0x3FF8000000000000 ∧
    ∃ s ds, f64ToStr F64String.blank 0x3FF8000000000000 = some s ∧ s.numDigits = ds.length ∧
      (decimal ds : ℚ) / 10 ^ ds.length * 10 ^ s.decimalPoint = f64Abs 0x3FF8000000000000 := by
  obtain ⟨s, ds, hrun, hlen, -, -, hval, -⟩ :=
    f64_to_str_exact F64String.blank 0x3FF8000000000000 (by decide)
  exact ⟨by decide, s, ds, hrun, hlen, hval⟩

end Nibble.Print
