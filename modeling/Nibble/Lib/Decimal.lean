import Mathlib.Data.Nat.Digits.Lemmas
import Mathlib.Tactic.Ring
import Mathlib.Tactic.Positivity

/-!
# Decimal digits

The digits of a number with the first one in front, as a text has them, and their doubling and
halving by hand: from the right with a carry, from the left with a remainder.
-/

namespace Nibble.Lib

/-- The number that digits write. -/
def decimal (ds : List Nat) : Nat := Nat.ofDigits 10 ds.reverse

variable {d c : Nat} {ds : List Nat}

@[simp] theorem decimal_nil : decimal [] = 0 := rfl

theorem decimal_append (xs ys : List Nat) :
    decimal (xs ++ ys) = decimal xs * 10 ^ ys.length + decimal ys := by
  unfold decimal
  rw [List.reverse_append, Nat.ofDigits_append, List.length_reverse, Nat.mul_comm, Nat.add_comm]

theorem decimal_singleton (d : Nat) : decimal [d] = d :=
  Nat.ofDigits_singleton

theorem decimal_cons (d : Nat) (ds : List Nat) :
    decimal (d :: ds) = d * 10 ^ ds.length + decimal ds := by
  rw [← List.singleton_append, decimal_append, decimal_singleton]

theorem decimal_concat (ds : List Nat) (d : Nat) : decimal (ds ++ [d]) = decimal ds * 10 + d := by
  rw [decimal_append, decimal_singleton, List.length_singleton, pow_one]

theorem decimal_lt (h : ∀ d ∈ ds, d < 10) : decimal ds < 10 ^ ds.length := by
  rw [← List.length_reverse]
  exact Nat.ofDigits_lt_base_pow_length (by decide) fun d hd => h d (List.mem_reverse.mp hd)

theorem decimal_zeros (k : Nat) : decimal (List.replicate k 0) = 0 := by
  induction k with
  | zero => rfl
  | succ k ih => rw [List.replicate_succ, decimal_cons, ih, Nat.zero_mul]

theorem decimal_nines (k : Nat) : decimal (List.replicate k 9) + 1 = 10 ^ k := by
  induction k with
  | zero => rfl
  | succ k ih =>
    rw [List.replicate_succ, decimal_cons, Nat.add_assoc, ih, List.length_replicate, pow_succ]
    ring

theorem decimal_eq_zero : decimal ds = 0 ↔ ∀ d ∈ ds, d = 0 := by
  induction ds with
  | nil => exact iff_of_true rfl fun _ h => absurd h List.not_mem_nil
  | cons d ds ih =>
    rw [decimal_cons, Nat.add_eq_zero_iff, Nat.mul_eq_zero, or_iff_left (by positivity), ih,
      List.forall_mem_cons]

/-- Digits of one length are determined by their number. -/
theorem decimal_inj {xs ys : List Nat} (hlen : xs.length = ys.length) (hx : ∀ d ∈ xs, d < 10)
    (hy : ∀ d ∈ ys, d < 10) (h : decimal xs = decimal ys) : xs = ys := by
  refine List.reverse_injective (Nat.ofDigits_inj_of_len_eq (b := 10) (by decide) ?_ ?_ ?_ h)
  · rw [List.length_reverse, List.length_reverse, hlen]
  · exact fun d hd => hx d (List.mem_reverse.mp hd)
  · exact fun d hd => hy d (List.mem_reverse.mp hd)

/-- A first digit that is not zero counts. -/
theorem decimal_ge (hd : d ≠ 0) (ds : List Nat) : 10 ^ ds.length ≤ decimal (d :: ds) := by
  rw [decimal_cons]
  exact Nat.le_add_right_of_le (Nat.le_mul_of_pos_left _ (Nat.pos_of_ne_zero hd))

theorem decimal_digits (n : Nat) : decimal (Nat.digits 10 n).reverse = n := by
  rw [decimal, List.reverse_reverse, Nat.ofDigits_digits]

/-- The digits of a number: the first one is not zero. -/
structure Writes (ds : List Nat) (v : Nat) : Prop where
  lt : ∀ d ∈ ds, d < 10
  head : ∀ d, ds.head? = some d → d ≠ 0
  ne : ds ≠ []
  value : decimal ds = v

theorem writes_digits {v : Nat} (hv : v ≠ 0) : Writes (Nat.digits 10 v).reverse v where
  lt := fun d hd => Nat.digits_lt_base (by decide) (List.mem_reverse.mp hd)
  head := by
    intro d hd h0
    rw [List.head?_reverse, List.getLast?_eq_some_getLast (Nat.digits_ne_nil_iff_ne_zero.mpr hv)]
      at hd
    exact Nat.getLast_digit_ne_zero 10 hv ((Option.some.inj hd).trans h0)
  ne := by
    rw [ne_eq, List.reverse_eq_nil_iff]
    exact Nat.digits_ne_nil_iff_ne_zero.mpr hv
  value := decimal_digits v

/-- Digits with a first one that is not zero are those of their number. -/
theorem Writes.eq_digits {v : Nat} (h : Writes ds v) : ds = (Nat.digits 10 v).reverse := by
  rw [← h.value, decimal, Nat.digits_ofDigits 10 (by decide), List.reverse_reverse]
  · exact fun d hd => h.lt d (List.mem_reverse.mp hd)
  · intro hne
    rw [List.getLast_reverse]
    exact h.head _ (List.head?_eq_some_head _)

/-- A number with `n` digits is at least `10 ^ (n - 1)`. -/
theorem Writes.le {v : Nat} (h : Writes ds v) : 10 ^ (ds.length - 1) ≤ v := by
  obtain ⟨d, ds', rfl⟩ := List.exists_cons_of_ne_nil h.ne
  rw [← h.value]
  exact decimal_ge (h.head d rfl) ds'

theorem Writes.length_le {v k : Nat} (h : Writes ds v) (hv : v < 10 ^ k) : ds.length ≤ k := by
  have hlt := (Nat.pow_lt_pow_iff_right (by decide : 1 < 10)).mp (Nat.lt_of_le_of_lt h.le hv)
  omega

theorem Writes.push {v : Nat} (h : Writes ds v) (hd : d < 10) : Writes (ds ++ [d]) (v * 10 + d) where
  lt := fun e he => by
    rcases List.mem_append.mp he with he | he
    · exact h.lt e he
    · exact List.mem_singleton.mp he ▸ hd
  head := fun e he => by
    rw [List.head?_append_of_ne_nil _ h.ne] at he
    exact h.head e he
  ne := fun hnil => h.ne (List.append_eq_nil_iff.mp hnil).1
  value := by rw [decimal_concat, h.value]

/-! ## Doubling -/

/-- The digits of the double and what is carried out of them; `c` is carried in. -/
def doubled (c : Nat) : List Nat → Nat × List Nat
  | [] => (c, [])
  | d :: ds =>
    let (c', r) := doubled c ds
    ((c' + 2 * d) / 10, (c' + 2 * d) % 10 :: r)

theorem doubled_concat (c : Nat) (ds : List Nat) (d : Nat) : doubled c (ds ++ [d]) =
    ((doubled ((c + 2 * d) / 10) ds).1, (doubled ((c + 2 * d) / 10) ds).2 ++ [(c + 2 * d) % 10]) := by
  induction ds with
  | nil => rfl
  | cons a as ih => simp only [List.cons_append, doubled, ih]

theorem doubled_length (c : Nat) (ds : List Nat) : (doubled c ds).2.length = ds.length := by
  induction ds with
  | nil => rfl
  | cons a as ih => simp only [doubled, List.length_cons, ih]

theorem doubled_lt (c : Nat) (ds : List Nat) : ∀ d ∈ (doubled c ds).2, d < 10 := by
  induction ds with
  | nil => exact fun _ h => absurd h List.not_mem_nil
  | cons a as ih =>
    intro d hd
    rcases List.mem_cons.mp hd with rfl | hd
    · exact Nat.mod_lt _ (by decide)
    · exact ih d hd

theorem doubled_value (c : Nat) (ds : List Nat) :
    (doubled c ds).1 * 10 ^ ds.length + decimal (doubled c ds).2 = c + 2 * decimal ds := by
  induction ds with
  | nil => rw [decimal_nil, doubled, List.length_nil, pow_zero, Nat.mul_one, decimal_nil]
  | cons d ds ih =>
    simp only [doubled, decimal_cons, doubled_length, List.length_cons, pow_succ]
    have hdiv := Nat.div_add_mod ((doubled c ds).1 + 2 * d) 10
    calc _ = (10 * (((doubled c ds).1 + 2 * d) / 10) + ((doubled c ds).1 + 2 * d) % 10) *
            10 ^ ds.length + decimal (doubled c ds).2 := by ring
      _ = ((doubled c ds).1 * 10 ^ ds.length + decimal (doubled c ds).2) +
            2 * (d * 10 ^ ds.length) := by rw [hdiv]; ring
      _ = _ := by rw [ih]; ring

theorem doubled_le (hc : c ≤ 1) (h : ∀ d ∈ ds, d < 10) : (doubled c ds).1 ≤ 1 := by
  induction ds with
  | nil => exact hc
  | cons a as ih =>
    have ha := h a List.mem_cons_self
    have hle := ih fun d hd => h d (List.mem_cons_of_mem a hd)
    show ((doubled c as).1 + 2 * a) / 10 ≤ 1
    omega

/-- A number is doubled; a first digit from five on adds a digit. -/
theorem Writes.double {v : Nat} (h : Writes (d :: ds) v) :
    Writes (if 5 ≤ d then 1 :: (doubled 0 (d :: ds)).2 else (doubled 0 (d :: ds)).2) (2 * v) := by
  have hd := h.lt d List.mem_cons_self
  have hd0 := h.head d rfl
  have hle := doubled_le (Nat.zero_le 1) fun e he => h.lt e (List.mem_cons_of_mem d he)
  have hval := doubled_value 0 (d :: ds)
  rw [Nat.zero_add, h.value] at hval
  have hcarry : (doubled 0 (d :: ds)).1 = ((doubled 0 ds).1 + 2 * d) / 10 := rfl
  have hlt := doubled_lt 0 (d :: ds)
  split
  · rename_i hbig
    rw [show (doubled 0 (d :: ds)).1 = 1 by omega] at hval
    refine ⟨fun e he => ?_, fun e he => ?_, List.cons_ne_nil _ _, ?_⟩
    · rcases List.mem_cons.mp he with rfl | he
      · decide
      · exact hlt e he
    · cases he
      decide
    · rw [decimal_cons, doubled_length, hval]
  · rename_i hsmall
    rw [show (doubled 0 (d :: ds)).1 = 0 by omega, Nat.zero_mul, Nat.zero_add] at hval
    refine ⟨hlt, fun e he => ?_, List.cons_ne_nil _ _, hval⟩
    cases he
    omega

/-! ## Halving -/

/-- The digits of the half and the remainder; `c` is the remainder of the digits in front. -/
def halved (c : Nat) : List Nat → List Nat × Nat
  | [] => ([], c)
  | d :: ds =>
    let (r, c') := halved ((c * 10 + d) % 2) ds
    ((c * 10 + d) / 2 :: r, c')

theorem halved_length (c : Nat) (ds : List Nat) : (halved c ds).1.length = ds.length := by
  induction ds generalizing c with
  | nil => rfl
  | cons a as ih => simp only [halved, List.length_cons, ih]

theorem halved_lt (hc : c < 2) (h : ∀ d ∈ ds, d < 10) : ∀ d ∈ (halved c ds).1, d < 10 := by
  induction ds generalizing c with
  | nil => exact fun _ h => absurd h List.not_mem_nil
  | cons a as ih =>
    intro d hd
    rcases List.mem_cons.mp hd with rfl | hd
    · have := h a List.mem_cons_self
      omega
    · exact ih (Nat.mod_lt _ (by decide)) (fun e he => h e (List.mem_cons_of_mem a he)) d hd

theorem halved_rem (hc : c < 2) (ds : List Nat) : (halved c ds).2 < 2 := by
  induction ds generalizing c with
  | nil => exact hc
  | cons a as ih => exact ih (Nat.mod_lt _ (by decide))

theorem halved_value (c : Nat) (ds : List Nat) :
    2 * decimal (halved c ds).1 + (halved c ds).2 = c * 10 ^ ds.length + decimal ds := by
  induction ds generalizing c with
  | nil => rw [decimal_nil, halved, decimal_nil, List.length_nil, pow_zero, Nat.mul_one,
      Nat.mul_zero, Nat.zero_add, Nat.add_zero]
  | cons d ds ih =>
    simp only [halved, decimal_cons, halved_length, List.length_cons, pow_succ]
    have hdiv := Nat.div_add_mod (c * 10 + d) 2
    calc _ = 2 * ((c * 10 + d) / 2) * 10 ^ ds.length +
            (2 * decimal (halved ((c * 10 + d) % 2) ds).1 + (halved ((c * 10 + d) % 2) ds).2) := by
          ring
      _ = (2 * ((c * 10 + d) / 2) + (c * 10 + d) % 2) * 10 ^ ds.length + decimal ds := by
          rw [ih]
          ring
      _ = _ := by rw [hdiv]; ring

/-- An even number is halved without a remainder. -/
theorem halved_even (hc : c < 2) (h : (c * 10 ^ ds.length + decimal ds) % 2 = 0) :
    2 * decimal (halved c ds).1 = c * 10 ^ ds.length + decimal ds := by
  have hval := halved_value c ds
  have hrem := halved_rem hc ds
  omega

/-- An even number is halved; a first digit that is one is taken with the next one. -/
theorem Writes.halve {v : Nat} (h : Writes (d :: ds) (2 * v)) :
    Writes (if d < 2 then (halved d ds).1 else (halved 0 (d :: ds)).1) v := by
  have hlt := fun e he => h.lt e (List.mem_cons_of_mem d he)
  have hd0 := h.head d rfl
  have hval := h.value
  split
  · rename_i hsmall
    rw [decimal_cons] at hval
    have heven := @halved_even _ ds hsmall (by rw [hval]; exact Nat.mul_mod_right 2 v)
    cases ds with
    | nil =>
      rw [List.length_nil, pow_zero, Nat.mul_one, decimal_nil] at hval
      omega
    | cons a as =>
      refine ⟨halved_lt hsmall hlt, fun e he => ?_, List.cons_ne_nil _ _, by omega⟩
      cases he
      omega
  · rename_i hbig
    have heven := @halved_even 0 (d :: ds) (by decide) (by rw [Nat.zero_mul, Nat.zero_add, hval]; exact Nat.mul_mod_right 2 v)
    rw [Nat.zero_mul, Nat.zero_add, hval] at heven
    refine ⟨halved_lt (by decide) h.lt, fun e he => ?_, List.cons_ne_nil _ _, by omega⟩
    cases he
    omega

end Nibble.Lib
