import Nibble.Print.FloatExact
import Nibble.Print.Text
import Nibble.Lib.Rounding

/-!
# How a double is printed

`f64str_round` keeps the digits before the one it rounds at, or adds one to them. Where the
number has no more decimal places than are asked for it does nothing, and what is printed has as
many places as the number has; where the first digit is the one it rounds at, a one that is
carried is lost or a character before the digits is read.
-/

namespace Nibble.Print

open Lib

variable {s : F64String} {digits : Digits} {ds hi rest : List Nat} {d f : Nat}

/-! ## The digits before and after the rounding -/

theorem chr_lt {a b : Nat} : chr a < chr b ↔ a < b := Nat.add_lt_add_iff_left

theorem chr_le {a b : Nat} : chr a ≤ chr b ↔ a ≤ b := Nat.add_le_add_iff_left

theorem chr_inj {a b : Nat} : chr a = chr b ↔ a = b := Nat.add_left_cancel_iff

theorem Shows.load (h : Shows digits (hi ++ d :: rest)) : digits.load hi.length = some (chr d) := by
  obtain ⟨tail, h⟩ := h
  have hload := @Digits.load_append digits (hi.map chr) (rest.map chr ++ tail) (chr d) (by rw [h, List.map_append, List.append_assoc]; rfl)
  rwa [List.length_map] at hload

theorem Shows.store (h : Shows digits (hi ++ d :: rest)) (e : Nat) :
    ∃ b, digits.store hi.length (chr e) = some b ∧ Shows b (hi ++ e :: rest) := by
  obtain ⟨tail, h⟩ := h
  obtain ⟨b, hstore, hb⟩ := @Digits.store_append digits (hi.map chr) (rest.map chr ++ tail) (chr d) (by rw [h, List.map_append, List.append_assoc]; rfl) (chr e)
  rw [List.length_map] at hstore
  exact ⟨b, hstore, tail, by rw [hb, List.map_append, List.append_assoc]; rfl⟩

theorem Shows.take (h : Shows digits (hi ++ rest)) : Shows digits hi := by
  obtain ⟨tail, h⟩ := h
  exact ⟨rest.map chr ++ tail, by rw [h, List.map_append, List.append_assoc]⟩

theorem hasNonzeroLoop_spec (h : Shows digits (hi ++ rest)) (hlt : ∀ e ∈ rest, e < 10) :
    hasNonzeroLoop digits rest.length hi.length = some (decide (decimal rest ≠ 0)) := by
  induction rest generalizing hi with
  | nil => rfl
  | cons e rest ih =>
    rw [List.length_cons, hasNonzeroLoop, h.load]
    simp only [Option.bind_eq_bind, Option.bind_some, gt_iff_lt, chr_lt, chr_le]
    have he := hlt e List.mem_cons_self
    by_cases hzero : e = 0
    · rw [if_neg (by omega), hzero, decimal_cons, Nat.zero_mul, Nat.zero_add]
      have hnext := @ih (hi ++ [e]) (by rwa [List.append_assoc])
        fun a ha => hlt a (List.mem_cons_of_mem e ha)
      rwa [List.length_append, List.length_singleton] at hnext
    · rw [if_pos ⟨by omega, by omega⟩, decide_eq_true]
      intro h0
      exact hzero (decimal_eq_zero.mp h0 e List.mem_cons_self)

/-- The remainder that the digits from the rounding digit on make. -/
theorem decimal_split (hlt : ∀ e ∈ d :: rest, e < 10) :
    decimal (hi ++ d :: rest) / 10 ^ (rest.length + 1) = decimal hi ∧
      decimal (hi ++ d :: rest) % 10 ^ (rest.length + 1) = d * 10 ^ rest.length + decimal rest := by
  have hlo := decimal_lt hlt
  rw [List.length_cons] at hlo
  rw [decimal_append, List.length_cons, ← decimal_cons, Nat.mul_comm]
  exact ⟨by rw [Nat.mul_add_div (by positivity), Nat.div_eq_of_lt hlo, Nat.add_zero],
    by rw [Nat.mul_add_mod, Nat.mod_eq_of_lt hlo]⟩

theorem roundsUpDiv_low (hlt : ∀ e ∈ d :: rest, e < 10) (hd : d < 5) :
    roundsUpDiv (decimal (hi ++ d :: rest)) (10 ^ (rest.length + 1)) = false := by
  have hrest := decimal_lt fun e he => hlt e (List.mem_cons_of_mem d he)
  have hle : d * 10 ^ rest.length ≤ 4 * 10 ^ rest.length := Nat.mul_le_mul_right _ (by omega)
  unfold roundsUpDiv
  rw [(decimal_split hlt).2, pow_succ, decide_eq_false (by omega), decide_eq_false (by omega)]
  rfl

theorem roundsUpDiv_high (hlt : ∀ e ∈ d :: rest, e < 10) (hd : 5 < d) :
    roundsUpDiv (decimal (hi ++ d :: rest)) (10 ^ (rest.length + 1)) = true := by
  have hle : 6 * 10 ^ rest.length ≤ d * 10 ^ rest.length := Nat.mul_le_mul_right _ (by omega)
  have hpow : 0 < 10 ^ rest.length := by positivity
  unfold roundsUpDiv
  rw [(decimal_split hlt).2, pow_succ, decide_eq_true (by omega)]
  rfl

/-- The digit that decides, the one before it and those after it say how a quotient is rounded. -/
theorem roundsUp_spec (h : Shows s.digits (hi ++ d :: rest))
    (hnum : s.numDigits = (hi ++ d :: rest).length) (hlt : ∀ e ∈ hi ++ d :: rest, e < 10)
    (hfirst : hi ≠ [] ∨ d ≠ 5) : roundsUp s hi.length =
      some (roundsUpDiv (decimal (hi ++ d :: rest)) (10 ^ (rest.length + 1))) := by
  have hlow : ∀ e ∈ d :: rest, e < 10 := fun e he => hlt e (List.mem_append_right hi he)
  have hrest := decimal_lt fun e he => hlow e (List.mem_cons_of_mem d he)
  obtain ⟨hdiv, hmod⟩ := @decimal_split hi _ _ hlow
  unfold roundsUp roundsUpDiv
  rw [h.load, hdiv, hmod, pow_succ]
  simp only [Option.bind_eq_bind, Option.bind_some, gt_iff_lt, chr_lt, chr_inj]
  have hpow : 0 < 10 ^ rest.length := by positivity
  generalize 10 ^ rest.length = m at *
  rcases Nat.lt_trichotomy d 5 with hd | rfl | hd
  · have hle : d * m ≤ 4 * m := Nat.mul_le_mul_right m (by omega)
    rw [if_neg (by omega), if_neg (by omega), decide_eq_false (by omega),
      decide_eq_false (by omega)]
    rfl
  · have hne := hfirst.resolve_right (not_not_intro rfl)
    have hprev : s.digits.loadInt ((hi.length : Int) - 1) = some (chr (hi.getLast hne)) := by
      have hpos := List.length_pos_of_ne_nil hne
      rw [← List.dropLast_append_getLast hne, List.append_assoc] at h
      have hload := h.load
      rw [List.length_dropLast] at hload
      rw [Digits.loadInt, if_pos (by omega), ← hload]
      congr 1
      omega
    have hodd : chr (hi.getLast hne) % 2 = decimal hi % 2 := by
      have hval := decimal_concat hi.dropLast (hi.getLast hne)
      rw [List.dropLast_append_getLast] at hval
      rw [hval, chr]
      omega
    have hloop := @hasNonzeroLoop_spec s.digits (hi ++ [5]) rest (by rwa [List.append_assoc]) fun e he => hlow e (List.mem_cons_of_mem 5 he)
    rw [List.length_append, List.length_singleton] at hloop
    rw [if_neg (by omega), if_pos rfl, hprev]
    simp only [Option.bind_some, hodd]
    rw [f64strHasNonzeroDigit, hnum, List.length_append, List.length_cons,
      show hi.length + (rest.length + 1) - (hi.length + 1) = rest.length by omega, hloop]
    by_cases hzero : decimal rest = 0
    · rw [decide_eq_false (p := m * 10 < _) (by omega), decide_eq_true (p := _ = m * 10) (by omega),
        decide_eq_false (not_not_intro hzero)]
      by_cases hpar : decimal hi % 2 = 1
      · rw [if_pos hpar, decide_eq_true hpar]
        rfl
      · rw [if_neg hpar, decide_eq_false hpar]
        rfl
    · rw [decide_eq_true (p := m * 10 < _) (by omega), decide_eq_true hzero]
      split <;> rfl
  · have hle : 6 * m ≤ d * m := Nat.mul_le_mul_right m (by omega)
    rw [if_pos hd, decide_eq_true (by omega)]
    rfl

/-- At the first digit a five needs the character before it. -/
theorem roundsUp_outside (h : Shows s.digits (5 :: rest)) : roundsUp s 0 = none := by
  have hload : s.digits.load 0 = some (chr 5) := @Shows.load _ [] _ _ h
  unfold roundsUp
  rw [hload]
  rfl

/-! ## Adding one -/

/-- The nines at the end become zeros. -/
theorem ninesLoop_spec (h : Shows digits (hi ++ rest)) :
    (hi = List.replicate hi.length 9 ∧ ∃ b, ninesLoop hi.length digits = some (b, none) ∧
      Shows b (List.replicate hi.length 0 ++ rest)) ∨
    ∃ init e j, hi = init ++ e :: List.replicate j 9 ∧ e ≠ 9 ∧
      ∃ b, ninesLoop hi.length digits = some (b, some init.length) ∧
        Shows b (init ++ e :: List.replicate j 0 ++ rest) := by
  induction hi using List.reverseRecOn generalizing digits rest with
  | nil => exact .inl ⟨rfl, digits, rfl, h⟩
  | append_singleton hi a ih =>
    rw [List.append_assoc, List.singleton_append] at h
    rw [List.length_append, List.length_singleton, ninesLoop, h.load]
    simp only [Option.bind_eq_bind, Option.bind_some, chr_inj]
    by_cases hnine : a = 9
    · obtain ⟨b, hstore, hb⟩ := h.store 0
      rw [if_pos hnine, hstore, hnine]
      simp only [Option.bind_some]
      rcases ih hb with ⟨hall, b', hrun, hb'⟩ | ⟨init, e, j, hsplit, he, b', hrun, hb'⟩
      · refine .inl ⟨?_, b', hrun, ?_⟩
        · rw [List.replicate_succ', ← hall]
        · rwa [List.replicate_succ', List.append_assoc]
      · refine .inr ⟨init, e, j + 1, ?_, he, b', hrun, ?_⟩
        · rw [List.replicate_succ', ← List.cons_append, ← List.append_assoc, ← hsplit]
        · rwa [List.replicate_succ', ← List.cons_append, ← List.append_assoc, List.append_assoc]
    · rw [if_neg hnine]
      exact .inr ⟨hi, a, 0, rfl, hnine, digits, rfl, by rwa [List.append_assoc]⟩

/-- The digits before the rounding digit, and one more in front when one is carried. -/
theorem roundUp_spec (h : Shows s.digits (hi ++ d :: rest)) (hlt : ∀ e ∈ hi, e < 10)
    (hne : hi ≠ []) : ∃ b hi' carry, carry ≤ 1 ∧ hi'.length = hi.length + carry ∧
      roundUp s hi.length = some { s with
        digits := b, decimalPoint := s.decimalPoint + carry, numDigits := s.numDigits + carry } ∧
      Shows b hi' ∧ (∀ e ∈ hi', e < 10) ∧ decimal hi' = decimal hi + 1 ∧
      (carry = 1 ∨ (∀ e, hi.head? = some e → e ≠ 0) → ∀ e, hi'.head? = some e → e ≠ 0) := by
  unfold roundUp
  rcases ninesLoop_spec h with ⟨hall, b, hrun, hb⟩ | ⟨init, e, j, hsplit, he, b, hrun, hb⟩
  · obtain ⟨k, hk⟩ : ∃ k, hi.length = k + 1 :=
      ⟨hi.length - 1, by have := List.length_pos_of_ne_nil hne; omega⟩
    rw [hrun, hk]
    rw [hk, List.replicate_succ] at hb
    obtain ⟨b₁, hstore₁, hb₁⟩ := @Shows.store _ [] _ _ hb 1
    have hb₁' : Shows b₁ ((1 :: List.replicate k 0) ++ d :: rest) := hb₁
    obtain ⟨b₂, hstore₂, hb₂⟩ := hb₁'.store 0
    rw [List.length_nil] at hstore₁
    rw [List.length_cons, List.length_replicate] at hstore₂
    refine ⟨b₂, 1 :: List.replicate (k + 1) 0, 1, Nat.le_refl 1, ?_, ?_, ?_, ?_, ?_, ?_⟩
    · rw [List.length_cons, List.length_replicate]
    · simp only [Option.bind_eq_bind, Option.bind_some, hstore₁, hstore₂]
      rfl
    · rw [List.replicate_succ', ← List.cons_append]
      rw [List.append_cons] at hb₂
      exact hb₂.take
    · intro a ha
      rcases List.mem_cons.mp ha with rfl | ha
      · decide
      · rw [List.eq_of_mem_replicate ha]
        decide
    · rw [hall, hk, decimal_nines, decimal_cons, decimal_zeros, List.length_replicate, Nat.one_mul,
        Nat.add_zero]
    · rintro - a ⟨⟩
      decide
  · rw [hrun]
    rw [List.append_assoc] at hb
    obtain ⟨b', hstore, hb'⟩ := Shows.store hb (e + 1)
    have hload := Shows.load hb
    have he' : e < 10 := hlt e (hsplit ▸ List.mem_append_right init List.mem_cons_self)
    refine ⟨b', init ++ (e + 1) :: List.replicate j 0, 0, Nat.zero_le 1, ?_, ?_, ?_, ?_, ?_, ?_⟩
    · rw [hsplit]
      simp only [List.length_append, List.length_cons, List.length_replicate, Nat.add_zero]
    · simp only [Option.bind_eq_bind, Option.bind_some, hload]
      rw [show chr e + 1 = chr (e + 1) from rfl, hstore]
      simp only [Option.bind_some, Nat.cast_zero, add_zero]
    · exact @Shows.take _ _ (d :: rest) (by rwa [List.append_assoc])
    · intro a ha
      rcases List.mem_append.mp ha with ha | ha
      · exact hlt a (hsplit ▸ List.mem_append_left _ ha)
      · rcases List.mem_cons.mp ha with rfl | ha
        · omega
        · rw [List.eq_of_mem_replicate ha]
          decide
    · have hnines := decimal_nines j
      rw [hsplit, decimal_append, decimal_append, decimal_cons, decimal_cons, decimal_zeros,
        List.length_cons, List.length_cons, List.length_replicate, List.length_replicate,
        Nat.add_zero, Nat.succ_mul]
      omega
    · intro hhead a ha
      replace hhead := hhead.resolve_left (Nat.zero_ne_one)
      rw [hsplit] at hhead
      cases init with
      | nil =>
        cases ha
        exact Nat.succ_ne_zero e
      | cons i init => exact hhead a ha

/-! ## Rounding -/

/-- A string of digits, `f` of them after the point. -/
structure Shown (s : F64String) (ds : List Nat) (f : Nat) : Prop where
  numDigits : s.numDigits = ds.length
  shows : Shows s.digits ds
  lt : ∀ d ∈ ds, d < 10
  point : (ds.length : Int) - s.decimalPoint = f
  fracs : f ≤ 1137
  first : s.decimalPoint ≤ 1 ∨ ds ≠ [] ∧ ∀ d, ds.head? = some d → d ≠ 0
  room : ds.length < 1024

theorem u32_natCast {n : Nat} (h : n < 2 ^ 32) : u32 n = n := by
  unfold u32
  omega

theorem i32_of_small {z : Int} (hlow : -2 ^ 31 ≤ z) (hup : z < 2 ^ 31) : i32 z = z :=
  Int.bmod_eq_of_le (by omega) (by omega)

theorem Shown.fracDigits (h : Shown s ds f) : f64strNumFracDigits s = f := by
  have := h.fracs
  rw [f64strNumFracDigits, h.numDigits, h.point]
  exact u32_natCast (by omega)

theorem Shown.roundDigit (h : Shown s ds f) {p : Nat} (hp : p ≤ 1022) :
    i32 (s.decimalPoint + p) = s.decimalPoint + p := by
  have := h.point
  have := h.fracs
  have := h.room
  exact i32_of_small (by omega) (by omega)

/-- Nothing is done to a number that has no more decimal places. -/
theorem roundDigits_exact (h : Shown s ds f) {p : Nat} (hp : p ≤ 1022) (hf : f ≤ p) :
    roundDigits s p = some s := by
  have hpoint := h.point
  unfold roundDigits
  simp only [h.fracDigits, h.roundDigit hp, h.numDigits]
  rw [if_neg (by omega), if_neg (by omega)]

/-- A number below the places that are asked for becomes zero. -/
theorem roundDigits_before (h : Shown s ds f) {p : Nat} (hp : p ≤ 1022)
    (hbefore : s.decimalPoint + p < 0) : ∃ s', roundDigits s p = some s' ∧
      Shown s' (List.replicate (p + 1) 0) p ∧ s'.flags = s.flags := by
  have hmin : min (u32 ((p : Int) + 1)) (1024 - 1) = p + 1 := by
    have : u32 ((p : Int) + 1) = p + 1 := by exact_mod_cast u32_natCast (n := p + 1) (by omega)
    omega
  obtain ⟨b, hcopy, hb⟩ := @copyDigits_spec s.digits (List.replicate (p + 1) 0) [] ⟨_, rfl⟩ (by rw [List.length_replicate, List.length_nil]; omega)
  rw [List.map_replicate, List.length_nil] at hcopy
  unfold roundDigits
  simp only [h.roundDigit hp, hmin]
  rw [if_pos hbefore, hcopy]
  refine ⟨_, rfl, ⟨?_, hb, ?_, ?_, by omega, .inl (Int.le_refl 1), ?_⟩, rfl⟩
  · rw [List.length_replicate]
  · intro d hd
    rw [List.eq_of_mem_replicate hd]
    decide
  · show ((List.replicate (p + 1) 0).length : Int) - 1 = p
    rw [List.length_replicate]
    omega
  · rw [List.length_replicate]
    omega

/-- What is rounded, `rest` being what comes after the digit that decides. -/
theorem roundDigits_inside (h : Shown s (hi ++ d :: rest) f) {p : Nat} (hp : p ≤ 1022)
    (hf : p + (rest.length + 1) = f) (hfirst : hi ≠ [] ∨ d < 5) :
    ∃ s' ds', roundDigits s p = some s' ∧ Shown s' ds' p ∧ s'.flags = s.flags ∧
      decimal ds' = decimal hi +
        if roundsUpDiv (decimal (hi ++ d :: rest)) (10 ^ (rest.length + 1)) then 1 else 0 := by
  have hpoint := h.point
  have hroom := h.room
  have hlen : (hi ++ d :: rest).length = hi.length + (rest.length + 1) := by
    rw [List.length_append, List.length_cons]
  have hr : s.decimalPoint + p = hi.length := by omega
  have hup := roundsUp_spec h.shows h.numDigits h.lt (hfirst.imp id fun h => by omega)
  have hlt : ∀ e ∈ hi, e < 10 := fun e he => h.lt e (List.mem_append_left _ he)
  have hhead : hi ≠ [] → (hi ++ d :: rest).head? = hi.head? := List.head?_append_of_ne_nil hi
  have hround : i32 (s.decimalPoint + p) = hi.length := (h.roundDigit hp).trans hr
  unfold roundDigits
  simp only [h.fracDigits, hround, Int.toNat_natCast]
  rw [if_neg (by omega), if_pos ⟨by omega, by rw [h.numDigits]; omega⟩, if_pos (by omega), hup]
  simp only [Option.bind_eq_bind, Option.bind_some]
  cases hrounds : roundsUpDiv (decimal (hi ++ d :: rest)) (10 ^ (rest.length + 1)) with
  | true =>
    have hne : hi ≠ [] := by
      intro hnil
      have hlow := @roundsUpDiv_low hi _ _ (fun e he => h.lt e (List.mem_append_right hi he)) (hfirst.resolve_left fun h => h hnil)
      exact Bool.false_ne_true (hlow.symm.trans hrounds)
    obtain ⟨b, hi', carry, hcarry, hlen', hrun, hb, hlt', hval, hfirst'⟩ :=
      roundUp_spec h.shows hlt hne
    have hnum : u32 ((s.numDigits + carry : Nat) - ((f : Int) - p)) = hi'.length := by
      rw [h.numDigits, hlen', show (((hi ++ d :: rest).length + carry : Nat) : Int) -
        ((f : Int) - p) = ((hi.length + carry : Nat) : Int) by omega]
      exact u32_natCast (by omega)
    rw [if_pos rfl, hrun]
    refine ⟨_, hi', rfl, ⟨hnum, hb, hlt', ?_, by omega, ?_, by omega⟩, rfl, hval⟩
    · show (hi'.length : Int) - (s.decimalPoint + carry) = p
      omega
    · have hne' : hi' ≠ [] := List.ne_nil_of_length_pos (by
        have := List.length_pos_of_ne_nil hne
        omega)
      rcases h.first with hsmall | ⟨-, hhead'⟩
      · by_cases hcase : s.decimalPoint + carry ≤ 1
        · exact .inl hcase
        · exact .inr ⟨hne', hfirst' (.inl (by omega))⟩
      · exact .inr ⟨hne', hfirst' (.inr fun e he => hhead' e ((hhead hne).trans he))⟩
  | false =>
    have hnum : u32 ((s.numDigits : Int) - ((f : Int) - p)) = hi.length := by
      rw [h.numDigits, show (((hi ++ d :: rest).length : Nat) : Int) - ((f : Int) - p) =
        (hi.length : Int) by omega]
      exact u32_natCast (by omega)
    rw [if_neg Bool.false_ne_true]
    refine ⟨_, hi, rfl, ⟨hnum, h.shows.take, hlt, ?_, by omega, ?_, by omega⟩, rfl, rfl⟩
    · show (hi.length : Int) - s.decimalPoint = p
      omega
    · by_cases hcase : s.decimalPoint ≤ 1
      · exact .inl hcase
      · have hne : hi ≠ [] := List.ne_nil_of_length_pos (by omega)
        refine .inr ⟨hne, fun e he => ?_⟩
        exact (h.first.resolve_left hcase).2 e ((hhead hne).trans he)

/-- A one that is carried out of the first digit is written over by a zero. -/
theorem roundDigits_lost (h : Shown s (d :: rest) f) {p : Nat} (hp : p ≤ 1022)
    (hf : p + (rest.length + 1) = f) (hd : 5 < d) :
    ∃ s', roundDigits s p = some s' ∧ Shown s' [0] p ∧ s'.flags = s.flags := by
  have hpoint := h.point
  have hroom := h.room
  have hlen : (d :: rest).length = rest.length + 1 := rfl
  have hround : i32 (s.decimalPoint + p) = (0 : Nat) := (h.roundDigit hp).trans (by omega)
  have hload : s.digits.load 0 = some (chr d) := @Shows.load _ [] _ _ h.shows
  have hup : roundsUp s 0 = some true := by
    unfold roundsUp
    rw [hload]
    exact if_pos (chr_lt.mpr hd)
  obtain ⟨b₁, hstore₁, hb₁⟩ := @Shows.store _ [] _ _ h.shows 1
  obtain ⟨b₂, hstore₂, hb₂⟩ := @Shows.store _ [] _ _ hb₁ 0
  rw [List.length_nil] at hstore₁ hstore₂
  have hnum : u32 ((s.numDigits + 1 : Nat) - ((f : Int) - p)) = 1 := by
    rw [h.numDigits, show ((((d :: rest).length + 1 : Nat) : Int) - ((f : Int) - p)) =
      ((1 : Nat) : Int) by omega]
    rfl
  unfold roundDigits
  simp only [h.fracDigits, hround, Int.toNat_natCast]
  rw [if_neg (by omega), if_pos ⟨by omega, by rw [h.numDigits]; omega⟩, if_pos (by omega), hup]
  simp only [Option.bind_eq_bind, Option.bind_some, if_true, roundUp, ninesLoop, hstore₁, hstore₂]
  refine ⟨_, rfl, ⟨hnum, @Shows.take _ _ rest hb₂, by decide, ?_, by omega, .inl ?_,
    by decide⟩, rfl⟩
  · show (1 : Int) - (s.decimalPoint + 1) = p
    omega
  · show s.decimalPoint + 1 ≤ 1
    omega

/-- A five there makes the code read the character before the digits. -/
theorem roundDigits_outside (h : Shown s (5 :: rest) f) {p : Nat} (hp : p ≤ 1022)
    (hf : p + (rest.length + 1) = f) : roundDigits s p = none := by
  have hpoint := h.point
  have hlen : (5 :: rest).length = rest.length + 1 := rfl
  have hround : i32 (s.decimalPoint + p) = (0 : Nat) := (h.roundDigit hp).trans (by omega)
  unfold roundDigits
  simp only [h.fracDigits, hround, Int.toNat_natCast]
  rw [if_neg (by omega), if_pos ⟨by omega, by rw [h.numDigits]; omega⟩, if_pos (by omega),
    roundsUp_outside h.shows]
  rfl

/-! ## The text -/

theorem mapM_range {g : Nat → Option Nat} {l : List Nat} (h : ∀ i, l[i]? = none ∨ g i = l[i]?) :
    (List.range l.length).mapM g = some l := by
  induction l generalizing g with
  | nil => rfl
  | cons a l ih =>
    have hzero : g 0 = some a := (h 0).resolve_left (by simp)
    rw [List.length_cons, List.range_succ_eq_map, List.mapM_cons, hzero, List.mapM_map]
    simp only [Option.bind_eq_bind, Option.bind_some]
    rw [ih (g := g ∘ Nat.succ) fun i => h (i + 1)]
    rfl

theorem Shows.getElem? (h : Shows digits ds) {i c : Nat} (hi : (ds.map chr)[i]? = some c) :
    digits.load i = some c := by
  obtain ⟨tail, h⟩ := h
  obtain ⟨hlt, -⟩ := List.getElem?_eq_some_iff.mp hi
  rw [Digits.load, h, List.getElem?_append_left hlt, hi]

/-- The digits that are printed before and after the point. -/
structure Layout (ds : List Nat) (f p : Nat) (int frac : List Nat) : Prop where
  lt : ∀ d ∈ int ++ frac, d < 10
  first : int = [0] ∨ int ≠ [] ∧ ∀ d, int.head? = some d → d ≠ 0
  whole : f = 0 → frac = List.replicate p 0 ∧ decimal int = decimal ds
  split : f ≠ 0 → frac.length = f ∧ decimal int * 10 ^ f + decimal frac = decimal ds

theorem fracText_of_zero (h : Shown s ds 0) (p : Nat) :
    fracText s p = some ((List.replicate p 0).map chr) := by
  unfold fracText
  rw [h.fracDigits, if_neg (by decide), List.map_replicate]

/-- The digits after the point, when some come before it. -/
theorem fracText_of_pos (h : Shown s ds f) (hf : f ≠ 0) (p : Nat) {k : Nat}
    (hk : s.decimalPoint = k) : fracText s p = some ((ds.drop k).map chr) := by
  have hpoint := h.point
  have hlen : ((ds.drop k).map chr).length = f := by
    rw [List.length_map, List.length_drop]
    omega
  unfold fracText
  rw [h.fracDigits, if_pos (Nat.pos_of_ne_zero hf), ← hlen]
  refine mapM_range fun j => ?_
  cases hj : ((ds.drop k).map chr)[j]? with
  | none => exact .inl rfl
  | some c =>
    rw [List.getElem?_map, List.getElem?_drop, ← List.getElem?_map] at hj
    have hload := h.shows.getElem? hj
    have hge : s.decimalPoint + j ≥ 0 := by omega
    rw [if_pos hge, Digits.loadInt, if_pos hge, show (s.decimalPoint + j).toNat = k + j by omega,
      hload]
    exact .inr rfl

/-- The digits after the point, with the zeros in front of them. -/
theorem fracText_of_neg (h : Shown s ds f) (hf : f ≠ 0) (p : Nat) {z : Nat}
    (hz : s.decimalPoint = -z) : fracText s p = some ((List.replicate z 0 ++ ds).map chr) := by
  have hpoint := h.point
  have hlen : ((List.replicate z 0 ++ ds).map chr).length = f := by
    rw [List.length_map, List.length_append, List.length_replicate]
    omega
  unfold fracText
  rw [h.fracDigits, if_pos (Nat.pos_of_ne_zero hf), ← hlen]
  refine mapM_range fun j => ?_
  by_cases hj : j < z
  · rw [if_neg (by omega), List.getElem?_map, List.getElem?_append_left
      (by rwa [List.length_replicate]), List.getElem?_replicate, if_pos hj]
    exact .inr rfl
  · have hge : s.decimalPoint + j ≥ 0 := by omega
    rw [if_pos hge, Digits.loadInt, if_pos hge, List.getElem?_map, List.getElem?_append_right
      (by rw [List.length_replicate]; omega), List.length_replicate,
      show (s.decimalPoint + j).toNat = j - z by omega, ← List.getElem?_map]
    cases hc : (ds.map chr)[j - z]? with
    | none => exact .inl rfl
    | some c => exact .inr (h.shows.getElem? hc)

theorem intText_of_pos (h : Shown s ds f) {k : Nat} (hk : s.decimalPoint = k) (hpos : 0 < k) :
    intText s = some ((ds.take k).map chr) := by
  have hpoint := h.point
  have hint : f64strNumIntDigits s = ((ds.take k).map chr).length := by
    rw [f64strNumIntDigits, List.length_map, List.length_take]
    omega
  unfold intText
  rw [if_pos (by rw [f64strNumIntDigits]; omega), hint]
  refine mapM_range fun i => ?_
  cases hi : ((ds.take k).map chr)[i]? with
  | none => exact .inl rfl
  | some c =>
    obtain ⟨hlt, -⟩ := List.getElem?_eq_some_iff.mp hi
    rw [List.length_map, List.length_take] at hlt
    rw [List.map_take, List.getElem?_take, if_pos (by omega)] at hi
    rw [if_pos (by rw [h.numDigits]; omega), h.shows.getElem? hi]
    exact .inr rfl

theorem Shown.layout (h : Shown s ds f) (p : Nat) : ∃ int frac, Layout ds f p int frac ∧
    intText s = some (int.map chr) ∧ fracText s p = some (frac.map chr) ∧
    max (f64strNumIntDigits s) 1 = int.length := by
  have hpoint := h.point
  rcases lt_or_ge 0 s.decimalPoint with hpos | hneg
  · obtain ⟨k, hk⟩ := Int.eq_ofNat_of_zero_le (Int.le_of_lt hpos)
    have hsplit : ds.take k ++ ds.drop k = ds := List.take_append_drop k ds
    have hlen : (ds.take k).length = k := by
      rw [List.length_take]
      omega
    have hdrop : (ds.drop k).length = f := by
      rw [List.length_drop]
      omega
    have hne : ds.take k ≠ [] := List.ne_nil_of_length_pos (by omega)
    have hfirst : ds.take k = [0] ∨ ds.take k ≠ [] ∧ ∀ d, (ds.take k).head? = some d → d ≠ 0 := by
      rcases h.first with hsmall | ⟨-, hhead⟩
      · obtain ⟨d, hd⟩ := List.length_eq_one_iff.mp (hlen.trans (by omega : k = 1))
        by_cases hzero : d = 0
        · exact .inl (hzero ▸ hd)
        · refine .inr ⟨hne, fun e he => ?_⟩
          rw [hd] at he
          cases he
          exact hzero
      · refine .inr ⟨hne, fun e he => hhead e ?_⟩
        rw [← hsplit, List.head?_append_of_ne_nil _ hne, he]
    have hint : max (f64strNumIntDigits s) 1 = (ds.take k).length := by
      rw [hlen, f64strNumIntDigits]
      omega
    by_cases hf : f = 0
    · subst hf
      refine ⟨ds.take k, List.replicate p 0, ⟨?_, hfirst, fun _ => ⟨rfl, ?_⟩, fun h => absurd rfl h⟩,
        intText_of_pos h hk (by omega), fracText_of_zero h p, hint⟩
      · intro d hd
        rcases List.mem_append.mp hd with hd | hd
        · exact h.lt d (List.mem_of_mem_take hd)
        · rw [List.eq_of_mem_replicate hd]
          decide
      · rw [List.take_of_length_le (by omega)]
    · refine ⟨ds.take k, ds.drop k, ⟨?_, hfirst, fun h => absurd h hf, fun _ => ⟨hdrop, ?_⟩⟩,
        intText_of_pos h hk (by omega), fracText_of_pos h hf p hk, hint⟩
      · rw [hsplit]
        exact h.lt
      · rw [← hdrop, ← decimal_append, hsplit]
  · obtain ⟨z, hz⟩ := Int.eq_ofNat_of_zero_le (Int.neg_nonneg_of_nonpos hneg)
    have hz : s.decimalPoint = -(z : Int) := by omega
    have hnone : f64strNumIntDigits s = 0 := by
      rw [f64strNumIntDigits]
      omega
    have hint : intText s = some ([0].map chr) := by
      unfold intText
      rw [hnone]
      rfl
    by_cases hf : f = 0
    · subst hf
      have hnil : ds = [] := List.length_eq_zero_iff.mp (by omega)
      refine ⟨[0], List.replicate p 0, ⟨?_, .inl rfl, fun _ => ⟨rfl, by rw [hnil]; rfl⟩,
        fun h => absurd rfl h⟩, hint, fracText_of_zero h p, by rw [hnone]; rfl⟩
      intro d hd
      rcases List.mem_append.mp hd with hd | hd
      · rw [List.mem_singleton.mp hd]
        decide
      · rw [List.eq_of_mem_replicate hd]
        decide
    · refine ⟨[0], List.replicate z 0 ++ ds, ⟨?_, .inl rfl, fun h => absurd h hf,
        fun _ => ⟨?_, ?_⟩⟩, hint, fracText_of_neg h hf p hz, by rw [hnone]; rfl⟩
      · intro d hd
        rcases List.mem_append.mp hd with hd | hd
        · rw [List.mem_singleton.mp hd]
          decide
        · rcases List.mem_append.mp hd with hd | hd
          · rw [List.eq_of_mem_replicate hd]
            decide
          · exact h.lt d hd
      · rw [List.length_append, List.length_replicate]
        omega
      · rw [decimal_append, decimal_zeros, decimal_singleton, Nat.zero_mul, Nat.zero_mul]
        exact (Nat.zero_add _).trans (Nat.zero_add _)

/-- The terminator is written after the digits. -/
theorem f64strRound_spec {s' : F64String} {p : Nat} (hround : roundDigits s p = some s')
    (h : Shown s' ds f) : ∃ s'', f64strRound s p = some s'' ∧ Shown s'' ds f ∧
      s''.flags = s'.flags := by
  obtain ⟨tail, htail⟩ := h.shows
  obtain ⟨a, tail, rfl⟩ := Digits.exists_rest htail (by
    rw [List.length_map]
    exact h.room)
  obtain ⟨b, hstore, hb⟩ := Digits.store_append htail 0
  rw [List.length_map, ← h.numDigits] at hstore
  refine ⟨{ s' with digits := b }, ?_, ⟨h.numDigits, ⟨_, hb⟩, h.lt, h.point, h.fracs, h.first,
    h.room⟩, rfl⟩
  unfold f64strRound
  rw [hround]
  simp only [Option.bind_eq_bind, Option.bind_some, hstore]

/-- The width that is asked for. -/
def FormatFlags.minWidth (flags : FormatFlags) (width : Nat) : Nat :=
  if flags.width then width else 0

/-- A number without its padding. -/
def numberText (printSign negative : Bool) (int frac : List Nat) : List Nat :=
  signText printSign negative ++ int.map chr ++ 46 :: frac.map chr

theorem length_numberText (printSign negative : Bool) (int frac : List Nat) :
    (numberText printSign negative int frac).length =
      (if printSign then 1 else 0) + int.length + 1 + frac.length := by
  unfold numberText signText
  split <;> simp only [List.length_append, List.length_map, List.length_cons, List.length_nil] <;>
    omega

/-- The character that pads a number on its left. -/
def FormatFlags.padChar (flags : FormatFlags) : Nat := if flags.zeroPad then chr 0 else 32

/-- What is put out for digits that have been rounded. -/
theorem floatText_spec {s' : F64String} {p width : Nat} {flags : FormatFlags} {negative : Bool}
    (hneg : negative = decide (s.flags &&& F64_STRING_IS_NEG ≠ 0)) (hp : p ≤ 1022)
    (hround : roundDigits s p = some s') (h : Shown s' ds f) : ∃ int frac, Layout ds f p int frac ∧
      floatText s p width flags = some (justify flags.leftJustified flags.padChar
        (flags.minWidth width - (int.length + 1 + max f 1 +
          if negative || flags.forceSign then 1 else 0))
        (numberText (negative || flags.forceSign) negative int frac)) := by
  obtain ⟨s'', hrun, h', -⟩ := f64strRound_spec hround h
  obtain ⟨int, frac, hlayout, hint, hfrac, hlen⟩ := h'.layout p
  refine ⟨int, frac, hlayout, ?_⟩
  have hpad (t : Nat) : (if (flags.width && decide (width > t)) = true then width - t else 0) =
      flags.minWidth width - t := by
    unfold FormatFlags.minWidth
    cases flags.width
    · rw [Bool.false_and, if_neg Bool.false_ne_true, if_neg Bool.false_ne_true, Nat.zero_sub]
    · rw [Bool.true_and, if_pos rfl]
      split
      · rfl
      · rename_i hle
        rw [decide_eq_true_iff] at hle
        omega
  have hu : u32 (p : Int) = p := u32_natCast (by omega)
  unfold floatText
  simp only [hu, hrun, hint, hfrac, hlen, h'.fracDigits, hpad, ← hneg, Option.bind_eq_bind,
    Option.bind_some]
  rfl

/-! ## What a text says -/

/-- The digits of a text. -/
def digitsOf (text : List Nat) : List Nat :=
  (text.filter fun c => decide (chr 0 ≤ c ∧ c ≤ chr 9)).map num

theorem digitsOf_append (xs ys : List Nat) : digitsOf (xs ++ ys) = digitsOf xs ++ digitsOf ys := by
  unfold digitsOf
  rw [List.filter_append, List.map_append]

theorem digitsOf_digits (h : ∀ d ∈ ds, d < 10) : digitsOf (ds.map chr) = ds := by
  unfold digitsOf
  rw [List.filter_eq_self.mpr, List.map_map]
  · exact List.map_id'' num_chr ds
  · intro c hc
    obtain ⟨d, hd, rfl⟩ := List.mem_map.mp hc
    have := h d hd
    rw [decide_eq_true_iff, chr_le, chr_le]
    omega

theorem digitsOf_others {text : List Nat} (h : ∀ c ∈ text, ¬ (chr 0 ≤ c ∧ c ≤ chr 9)) :
    digitsOf text = [] := by
  unfold digitsOf
  rw [List.filter_eq_nil_iff.mpr, List.map_nil]
  exact fun c hc => by simpa using h c hc

theorem digitsOf_spaces (k : Nat) : digitsOf (List.replicate k 32) = [] :=
  digitsOf_others fun c hc => by
    rw [List.eq_of_mem_replicate hc]
    decide

theorem digitsOf_pad (flags : FormatFlags) (k : Nat) :
    decimal (digitsOf (List.replicate k flags.padChar)) = 0 := by
  unfold FormatFlags.padChar
  split
  · have h := @digitsOf_digits (List.replicate k 0) fun d hd => by
      rw [List.eq_of_mem_replicate hd]
      decide
    rw [List.map_replicate] at h
    rw [h, decimal_zeros]
  · rw [digitsOf_spaces, decimal_nil]

variable {int frac : List Nat} {printSign negative : Bool}

theorem digitsOf_number (h : ∀ d ∈ int ++ frac, d < 10) :
    digitsOf (numberText printSign negative int frac) = int ++ frac := by
  have hsign : digitsOf (signText printSign negative) = [] := by
    cases printSign <;> cases negative <;> decide
  have hpoint : 46 :: frac.map chr = [46] ++ frac.map chr := rfl
  unfold numberText
  rw [digitsOf_append, digitsOf_append, hpoint, digitsOf_append, hsign,
    digitsOf_digits fun d hd => h d (List.mem_append_left _ hd),
    digitsOf_digits fun d hd => h d (List.mem_append_right _ hd)]
  rfl

/-- The number that the digits of a padded text write. -/
theorem value_justify (flags : FormatFlags) (k : Nat) (h : ∀ d ∈ int ++ frac, d < 10) :
    decimal (digitsOf (justify flags.leftJustified flags.padChar k
      (numberText printSign negative int frac))) = decimal (int ++ frac) := by
  unfold justify
  split
  · rw [digitsOf_append, digitsOf_number h, digitsOf_spaces, List.append_nil]
  · rw [digitsOf_append, digitsOf_number h, decimal_append, digitsOf_pad, Nat.zero_mul,
      Nat.zero_add]

/-- The digits after the point of a padded text. -/
theorem places_justify (flags : FormatFlags) (k : Nat) (h : ∀ d ∈ int ++ frac, d < 10) :
    digitsOf ((justify flags.leftJustified flags.padChar k
      (numberText printSign negative int frac)).dropWhile (· ≠ 46)) = frac := by
  have hdrop {pre : List Nat} (hpre : 46 ∉ pre) (post : List Nat) :
      (pre ++ 46 :: post).dropWhile (· ≠ 46) = 46 :: post := by
    rw [List.dropWhile_append_of_pos]
    · rfl
    · exact fun c hc => decide_eq_true fun h => hpre (h ▸ hc)
  have hsign : 46 ∉ signText printSign negative := by cases printSign <;> cases negative <;> decide
  have hint : 46 ∉ int.map chr := fun hc => by
    obtain ⟨d, -, hd⟩ := List.mem_map.mp hc
    unfold chr at hd
    omega
  have hpad : 46 ∉ List.replicate k flags.padChar := fun hc => by
    have hc := List.eq_of_mem_replicate hc
    unfold FormatFlags.padChar at hc
    split at hc <;> cases hc
  have hfrac : digitsOf (46 :: frac.map chr) = frac := by
    rw [← List.singleton_append, digitsOf_append,
      digitsOf_digits fun d hd => h d (List.mem_append_right _ hd)]
    rfl
  unfold justify numberText
  split
  · rw [List.append_assoc, List.cons_append, hdrop fun hc => (List.mem_append.mp hc).elim hsign hint,
      ← List.cons_append, digitsOf_append, hfrac, digitsOf_spaces, List.append_nil]
  · rw [← List.append_assoc, hdrop, hfrac]
    intro hc
    rcases List.mem_append.mp hc with hc | hc
    · exact hpad hc
    · exact (List.mem_append.mp hc).elim hsign hint

/-! ## What is asked for -/

/-- The double in units of the last place that is asked for. -/
def rounded (x : BitVec 64) (p : Nat) : Nat := roundHalfEven (f64Abs x * 10 ^ p)

/-- The digits before the point of `n` units. -/
def intPart (n p : Nat) : List Nat :=
  if n / 10 ^ p = 0 then [0] else (Nat.digits 10 (n / 10 ^ p)).reverse

/-- The text is the rounded double with `p` digits after the point, padded to the width. -/
def Prints (text : List Nat) (x : BitVec 64) (p width : Nat) (flags : FormatFlags) : Prop :=
  ∃ pad frac, frac.length = p ∧ (∀ d ∈ frac, d < 10) ∧
    decimal frac = rounded x p % 10 ^ p ∧
    text = justify flags.leftJustified flags.padChar pad
      (numberText (x.msb || flags.forceSign) x.msb (intPart (rounded x p) p) frac) ∧
    text.length = max (flags.minWidth width)
      (numberText (x.msb || flags.forceSign) x.msb (intPart (rounded x p) p) frac).length

/-- The length of sign, integer part, point and `p` digits. -/
def numberLength (x : BitVec 64) (p : Nat) (flags : FormatFlags) : Nat :=
  (if x.msb || flags.forceSign then 1 else 0) + (intPart (rounded x p) p).length + 1 + p

def IsWhole (y : ℚ) : Prop := ∃ n : Nat, y = n

/-- When a double is printed as it is asked for: it has as many decimal places or none, it is not
between a half and one unit of the last place, and the width is one that the length that the code
expects allows. -/
structure Printable (x : BitVec 64) (p width : Nat) (flags : FormatFlags) : Prop where
  places : IsWhole (f64Abs x) ∨ ∀ k < p, ¬ IsWhole (f64Abs x * 10 ^ k)
  first : ¬ (1 / 2 ≤ f64Abs x * 10 ^ p ∧ f64Abs x * 10 ^ p < 1)
  noPlaces : p = 0 → flags.minWidth width ≤ numberLength x p flags
  noDigits : 2 ≤ p → IsWhole (f64Abs x) → flags.minWidth width + p ≤ numberLength x p flags + 1

/-- The precision that is asked for, or the one of the code. -/
def FormatFlags.places (flags : FormatFlags) (precision : Nat) : Nat :=
  if flags.precision then precision else PRINT_DEFAULT_FLOAT_PRECISION

section Spec

variable {x : BitVec 64} {q p width : Nat} {flags : FormatFlags}

theorem intPart_lt {n : Nat} {frac : List Nat} (h : ∀ d ∈ frac, d < 10) :
    ∀ d ∈ intPart n p ++ frac, d < 10 := by
  intro d hd
  rcases List.mem_append.mp hd with hd | hd
  · unfold intPart at hd
    split at hd
    · rw [List.mem_singleton.mp hd]
      decide
    · exact Nat.digits_lt_base (by decide) (List.mem_reverse.mp hd)
  · exact h d hd

theorem decimal_intPart (n : Nat) : decimal (intPart n p) = n / 10 ^ p := by
  unfold intPart
  split
  · rename_i hzero
    rw [decimal_singleton, hzero]
  · exact decimal_digits _

theorem Layout.int_eq {ds int frac : List Nat} {f n : Nat} (h : Layout ds f p int frac)
    (hlen : frac.length = p) (hval : decimal int * 10 ^ p + decimal frac = n) :
    int = intPart n p ∧ decimal frac = n % 10 ^ p := by
  have hlt : decimal frac < 10 ^ p :=
    hlen ▸ decimal_lt fun d hd => h.lt d (List.mem_append_right int hd)
  have hdiv : n / 10 ^ p = decimal int := by
    rw [← hval, Nat.mul_comm, Nat.mul_add_div (by positivity), Nat.div_eq_of_lt hlt, Nat.add_zero]
  have hmod : decimal frac = n % 10 ^ p := by
    rw [← hval, Nat.mul_comm, Nat.mul_add_mod, Nat.mod_eq_of_lt hlt]
  refine ⟨?_, hmod⟩
  unfold intPart
  rw [hdiv]
  rcases h.first with hzero | ⟨hne, hhead⟩
  · rw [hzero, decimal_singleton, if_pos rfl]
  · have hw : Writes int (decimal int) :=
      ⟨fun d hd => h.lt d (List.mem_append_left _ hd), hhead, hne, rfl⟩
    rw [if_neg (Nat.pos_iff_ne_zero.mp (Nat.lt_of_lt_of_le (by positivity) hw.le))]
    exact hw.eq_digits

/-- Where the digits are right, the width decides. -/
theorem prints_iff {ds int frac : List Nat} {f : Nat} (h : Layout ds f p int frac)
    (hf : f = 0 ∨ f = p) (hlen : frac.length = p)
    (hval : decimal int * 10 ^ p + decimal frac = rounded x p) :
    Prints (justify flags.leftJustified flags.padChar
      (flags.minWidth width - (int.length + 1 + max f 1 +
        if x.msb || flags.forceSign then 1 else 0))
      (numberText (x.msb || flags.forceSign) x.msb int frac)) x p width flags ↔
    (p = 0 → flags.minWidth width ≤ numberLength x p flags) ∧
    (2 ≤ p → f = 0 → flags.minWidth width + p ≤ numberLength x p flags + 1) := by
  obtain ⟨hint, hmod⟩ := h.int_eq hlen hval
  have hjust (k : Nat) (text : List Nat) : (justify flags.leftJustified flags.padChar k text).length =
      text.length + k := by
    unfold justify
    split <;> rw [List.length_append, List.length_replicate]
    exact Nat.add_comm _ _
  have hbody : (numberText (x.msb || flags.forceSign) x.msb int frac).length =
      numberLength x p flags := by
    rw [length_numberText, hlen, numberLength, ← hint]
  have hnum : numberLength x p flags =
      (if x.msb || flags.forceSign then 1 else 0) + int.length + 1 + p := by
    rw [numberLength, ← hint]
  constructor
  · rintro ⟨pad, frac', hlen', -, -, -, hwidth⟩
    rw [hjust, hbody, length_numberText, hlen', ← hint, ← hnum] at hwidth
    generalize (if x.msb || flags.forceSign then 1 else 0) = sign at *
    constructor
    · intro hp
      omega
    · intro hp hzero
      omega
  · rintro ⟨hnone, hzero⟩
    refine ⟨_, frac, hlen, fun d hd => h.lt d (List.mem_append_right _ hd), hmod, by rw [hint], ?_⟩
    rw [hjust, ← hint, hbody]
    generalize (if x.msb || flags.forceSign then 1 else 0) = sign at *
    rcases Nat.lt_trichotomy p 1 with hp | hp | hp
    · have := hnone (by omega)
      omega
    · omega
    · by_cases hfz : f = 0
      · have := hzero hp hfz
        omega
      · omega

theorem Written.shown (h : Written x s ds q) : Shown s ds q where
  numDigits := h.numDigits
  shows := h.shows
  lt := h.lt
  point := h.point
  fracs := h.fracs
  first := by
    have hpoint := h.point
    have hfirst := h.first
    split at hfirst
    · rw [hfirst, List.length_singleton] at hpoint
      exact .inl (by omega)
    · obtain ⟨d, hd, hne⟩ := hfirst
      have hne' : ds ≠ [] := fun hnil => by
        rw [hnil] at hd
        cases hd
      exact .inr ⟨hne', fun e he => Option.some.inj (hd.symm.trans he) ▸ hne⟩
  room := h.room

theorem Written.scale_le (h : Written x s ds q) {k : Nat} (hk : q ≤ k) :
    f64Abs x * 10 ^ k = (decimal ds * 10 ^ (k - q) : Nat) := by
  rw [← h.value, Nat.cast_mul, Nat.cast_pow, Nat.cast_ofNat, mul_assoc, ← zpow_natCast (10 : ℚ) k,
    ← zpow_natCast (10 : ℚ) (k - q), ← zpow_add₀ (by norm_num), show -(q : Int) + k = (k - q : Nat) by
    omega]

theorem Written.scale_ge (h : Written x s ds q) {k : Nat} (hk : k ≤ q) :
    f64Abs x * 10 ^ k = (decimal ds : ℚ) / (10 ^ (q - k) : Nat) := by
  rw [← h.value, Nat.cast_pow, Nat.cast_ofNat, mul_assoc, ← zpow_natCast (10 : ℚ) k,
    ← zpow_add₀ (by norm_num), div_eq_mul_inv, ← zpow_natCast (10 : ℚ) (q - k), ← zpow_neg,
    show -(q : Int) + k = -((q - k : Nat) : Int) by omega]

/-- The double has `q` decimal places. -/
theorem Written.whole_iff (h : Written x s ds q) (k : Nat) :
    IsWhole (f64Abs x * 10 ^ k) ↔ q ≤ k := by
  refine ⟨fun ⟨n, hn⟩ => ?_, fun hk => ⟨_, h.scale_le hk⟩⟩
  by_contra hlt
  obtain ⟨j, hj⟩ : ∃ j, q - k = j + 1 := ⟨q - k - 1, by omega⟩
  rw [h.scale_ge (by omega), div_eq_iff (by positivity), hj] at hn
  have hval : decimal ds = n * 10 ^ (j + 1) := by exact_mod_cast hn
  have hlast := h.last (by omega)
  rw [hval, pow_succ, ← Nat.mul_assoc, Nat.mul_mod_left] at hlast
  exact absurd hlast (by decide)

theorem Written.whole_abs (h : Written x s ds q) : IsWhole (f64Abs x) ↔ q = 0 := by
  rw [← Nat.le_zero, ← h.whole_iff 0, pow_zero, mul_one]

theorem Written.places_iff (h : Written x s ds q) :
    (IsWhole (f64Abs x) ∨ ∀ k < p, ¬ IsWhole (f64Abs x * 10 ^ k)) ↔ q = 0 ∨ p ≤ q := by
  simp only [h.whole_abs, h.whole_iff]
  refine or_congr_right ⟨fun hk => ?_, fun hk k hlt => by omega⟩
  by_contra hlt
  exact hk q (by omega) (Nat.le_refl q)

theorem Written.isNeg (h : Written x s ds q) :
    x.msb = decide (s.flags &&& F64_STRING_IS_NEG ≠ 0) := by
  rw [h.flags]
  cases x.msb <;> rfl

/-- Where the digits that are shown are right, the width decides. -/
theorem shown_iff {s' : F64String} {ds' : List Nat} {f : Nat} (hw : Written x s ds q)
    (hp : p ≤ 1022) (hround : roundDigits s p = some s') (h : Shown s' ds' f) (hf : f = 0 ∨ f = p)
    (hval : decimal ds' * 10 ^ (p - f) = rounded x p) :
    (∃ text, floatText s p width flags = some text ∧ Prints text x p width flags) ↔
    (p = 0 → flags.minWidth width ≤ numberLength x p flags) ∧
    (2 ≤ p → f = 0 → flags.minWidth width + p ≤ numberLength x p flags + 1) := by
  obtain ⟨int, frac, hlayout, htext⟩ := floatText_spec hw.isNeg hp hround h
  have hdigits : frac.length = p ∧ decimal int * 10 ^ p + decimal frac = rounded x p := by
    by_cases hzero : f = 0
    · obtain ⟨hfrac, hint⟩ := hlayout.whole hzero
      rw [hfrac, List.length_replicate, decimal_zeros, hint, ← hval, hzero]
      exact ⟨rfl, rfl⟩
    · obtain ⟨hfrac, hint⟩ := hlayout.split hzero
      have hfp := hf.resolve_left hzero
      rw [← hval, ← hint, hfp, Nat.sub_self, pow_zero, Nat.mul_one]
      exact ⟨hfrac.trans hfp, rfl⟩
  rw [htext]
  simp only [Option.some.injEq, exists_eq_left']
  exact prints_iff hlayout hf hdigits.1 hdigits.2

/-- A double that has no decimal places, or as many as are asked for. -/
theorem exact_iff (hw : Written x s ds q) (hp : p ≤ 1022) (hq : q = 0 ∨ q = p) :
    (∃ text, floatText s p width flags = some text ∧ Prints text x p width flags) ↔
      Printable x p width flags := by
  have hle : q ≤ p := by omega
  have hunits := hw.scale_le hle
  have hrounded : rounded x p = decimal ds * 10 ^ (p - q) := by
    rw [rounded, hunits, roundHalfEven_natCast]
  rw [shown_iff hw hp (roundDigits_exact hw.shown hp hle) hw.shown hq hrounded.symm]
  refine ⟨fun h => ⟨hw.places_iff.mpr (by omega), ?_, h.1, fun h2 hwhole =>
    h.2 h2 (hw.whole_abs.mp hwhole)⟩, fun h => ⟨h.noPlaces, fun h2 hzero =>
    h.noDigits h2 (hw.whole_abs.mpr hzero)⟩⟩
  rintro ⟨hlow, hup⟩
  rw [hunits] at hlow hup
  have hup' : decimal ds * 10 ^ (p - q) < 1 := by exact_mod_cast hup
  rw [Nat.lt_one_iff.mp hup'] at hlow
  norm_num at hlow

/-- A double with fewer decimal places is printed with fewer. -/
theorem fewer_iff (hw : Written x s ds q) (hp : p ≤ 1022) (hq : q ≠ 0) (hlt : q < p) :
    (∃ text, floatText s p width flags = some text ∧ Prints text x p width flags) ↔
      Printable x p width flags := by
  refine iff_of_false ?_ fun h => ?_
  · rintro ⟨text, htext, pad, frac', hlen, hdigits, -, hprinted, -⟩
    obtain ⟨int, frac, hlayout, hrun⟩ := @floatText_spec _ _ _ _ _ width flags _ hw.isNeg hp (roundDigits_exact hw.shown hp (Nat.le_of_lt hlt)) hw.shown
    have hplaces := congrArg (fun t => digitsOf (t.dropWhile (· ≠ 46)))
      (hprinted.symm.trans (Option.some.inj (htext.symm.trans hrun)))
    simp only [places_justify flags _ (intPart_lt hdigits), places_justify flags _ hlayout.lt]
      at hplaces
    have := congrArg List.length hplaces
    rw [hlen, (hlayout.split hq).1] at this
    omega
  · have := hw.places_iff.mp h.places
    omega

theorem half_iff {a b : Nat} (hb : 0 < b) :
    (1 / 2 ≤ (a : ℚ) / b ∧ (a : ℚ) / b < 1) ↔ b ≤ 2 * a ∧ a < b := by
  have hb' : (0 : ℚ) < b := by exact_mod_cast hb
  rw [div_le_div_iff₀ two_pos hb', div_lt_one hb', one_mul, mul_comm (a : ℚ)]
  exact and_congr (by exact_mod_cast Iff.rfl) (by exact_mod_cast Iff.rfl)

/-- Whether a double with more decimal places is between a half and one unit. -/
theorem Written.first_iff (h : Written x s ds q) (hlt : p ≤ q) :
    (1 / 2 ≤ f64Abs x * 10 ^ p ∧ f64Abs x * 10 ^ p < 1) ↔
      10 ^ (q - p) ≤ 2 * decimal ds ∧ decimal ds < 10 ^ (q - p) := by
  rw [h.scale_ge hlt, half_iff (by positivity)]

theorem Written.rounded_eq (h : Written x s ds q) (hlt : p ≤ q) : rounded x p =
    decimal ds / 10 ^ (q - p) + if roundsUpDiv (decimal ds) (10 ^ (q - p)) then 1 else 0 := by
  rw [rounded, h.scale_ge hlt, roundHalfEven_div _ (by positivity)]

/-- A double that is rounded to the digits that are shown. -/
theorem rounded_iff {s' : F64String} {ds' : List Nat} (hw : Written x s ds q) (hp : p ≤ 1022)
    (hlt : p < q) (hround : roundDigits s p = some s') (h : Shown s' ds' p)
    (hval : decimal ds' = rounded x p)
    (hfirst : ¬ (10 ^ (q - p) ≤ 2 * decimal ds ∧ decimal ds < 10 ^ (q - p))) :
    (∃ text, floatText s p width flags = some text ∧ Prints text x p width flags) ↔
      Printable x p width flags := by
  rw [shown_iff hw hp hround h (.inr rfl) (by rw [Nat.sub_self, pow_zero, Nat.mul_one, hval])]
  refine ⟨fun h => ⟨hw.places_iff.mpr (.inr (Nat.le_of_lt hlt)),
    (hw.first_iff (Nat.le_of_lt hlt)).not.mpr hfirst, h.1, fun _ hwhole => ?_⟩,
    fun h => ⟨h.noPlaces, fun _ _ => by omega⟩⟩
  have := hw.whole_abs.mp hwhole
  omega

/-- A double below the places that are asked for. -/
theorem before_iff (hw : Written x s ds q) (hp : p ≤ 1022) (hlt : p < q)
    (hbefore : ds.length < q - p) :
    (∃ text, floatText s p width flags = some text ∧ Prints text x p width flags) ↔
      Printable x p width flags := by
  have hpoint := hw.point
  obtain ⟨s', hround, hshown, -⟩ := roundDigits_before hw.shown hp (by omega)
  have hsmall : 10 * decimal ds < 10 ^ (q - p) := by
    calc 10 * decimal ds < 10 * 10 ^ ds.length := by
          have := decimal_lt hw.lt
          omega
      _ = 10 ^ (ds.length + 1) := by rw [pow_succ, Nat.mul_comm]
      _ ≤ 10 ^ (q - p) := Nat.pow_le_pow_right (by decide) hbefore
  refine rounded_iff hw hp hlt hround hshown ?_ (by omega)
  have hdown : roundsUpDiv (decimal ds) (10 ^ (q - p)) = false := by
    unfold roundsUpDiv
    rw [Nat.mod_eq_of_lt (by omega), decide_eq_false (by omega), decide_eq_false (by omega)]
    rfl
  rw [decimal_zeros, hw.rounded_eq (Nat.le_of_lt hlt), hdown, Nat.div_eq_of_lt (by omega)]
  rfl

/-- A double that is rounded at one of its digits, which is not the first one or less than five. -/
theorem inside_iff {hi rest : List Nat} {d : Nat} (hw : Written x s (hi ++ d :: rest) q)
    (hp : p ≤ 1022) (hq : p + (rest.length + 1) = q) (hfirst : hi ≠ [] ∨ d < 5) :
    (∃ text, floatText s p width flags = some text ∧ Prints text x p width flags) ↔
      Printable x p width flags := by
  have hm : q - p = rest.length + 1 := by omega
  have hlow : ∀ e ∈ d :: rest, e < 10 := fun e he => hw.lt e (List.mem_append_right hi he)
  obtain ⟨s', ds', hround, hshown, -, hval⟩ := roundDigits_inside hw.shown hp hq hfirst
  refine rounded_iff hw hp (by omega) hround hshown ?_ ?_
  · rw [hval, hw.rounded_eq (by omega), hm, (decimal_split hlow).1]
  · rw [hm]
    rintro ⟨hge, hlt⟩
    have hdiv := (@decimal_split hi _ _ hlow).1
    rw [Nat.div_eq_of_lt hlt] at hdiv
    by_cases hnil : hi = []
    · have hd : d < 5 := hfirst.resolve_left fun h => h hnil
      have hrest := decimal_lt fun e he => hlow e (List.mem_cons_of_mem d he)
      have hle : d * 10 ^ rest.length ≤ 4 * 10 ^ rest.length := Nat.mul_le_mul_right _ (by omega)
      rw [hnil, List.nil_append, decimal_cons, pow_succ] at hge
      omega
    · obtain ⟨a, as, rfl⟩ := List.exists_cons_of_ne_nil hnil
      have hpoint := hw.point
      have hhead := hw.first
      split at hhead
      · have hlen := congrArg List.length hhead
        rw [List.length_append, List.length_cons, List.length_cons, List.length_singleton] at hlen
        omega
      · obtain ⟨b, hb, hne⟩ := hhead
        cases hb
        have hge := decimal_ge hne as
        rw [← hdiv] at hge
        exact absurd hge (Nat.not_le_of_lt (by positivity))

/-- A first digit from five on that is rounded at: a one that is carried is lost, or a character
before the digits is read. -/
theorem first_iff {rest : List Nat} {d : Nat} (hw : Written x s (d :: rest) q) (hp : p ≤ 1022)
    (hq : p + (rest.length + 1) = q) (hd : 5 ≤ d) :
    (∃ text, floatText s p width flags = some text ∧ Prints text x p width flags) ↔
      Printable x p width flags := by
  have hm : q - p = rest.length + 1 := by omega
  have hrest := decimal_lt fun e he => hw.lt e (List.mem_cons_of_mem d he)
  have hlt : decimal (d :: rest) < 10 ^ (rest.length + 1) := decimal_lt hw.lt
  have hle : 5 * 10 ^ rest.length ≤ d * 10 ^ rest.length := Nat.mul_le_mul_right _ hd
  refine iff_of_false ?_ fun h => h.first ?_
  · rintro ⟨text, htext, pad, frac', hlen, hdigits, hmod, hprinted, -⟩
    rcases Nat.eq_or_lt_of_le hd with rfl | hd
    · have hnone := roundDigits_outside hw.shown hp hq
      have hu : u32 (p : Int) = p := u32_natCast (by omega)
      unfold floatText f64strRound at htext
      simp only [hu, hnone, Option.bind_eq_bind, Option.bind_none] at htext
      cases htext
    · obtain ⟨s', hround, hshown, -⟩ := roundDigits_lost hw.shown hp hq hd
      obtain ⟨int, frac, hlayout, hrun⟩ := @floatText_spec _ _ _ _ _ width flags _ hw.isNeg hp hround hshown
      -- The text says zero, and the double is rounded to one unit.
      have hone : rounded x p = 1 := by
        have hup := @roundsUpDiv_high [] _ _ hw.lt hd
        rw [List.nil_append] at hup
        rw [hw.rounded_eq (by omega), hm, hup, Nat.div_eq_of_lt hlt]
        rfl
      have hzero : decimal (int ++ frac) = 0 := by
        by_cases hpz : p = 0
        · obtain ⟨hfrac, hint⟩ := hlayout.whole hpz
          rw [decimal_append, hint, hfrac, hpz]
          rfl
        · obtain ⟨hfrac, hint⟩ := hlayout.split hpz
          rw [decimal_append, hfrac, hint, decimal_singleton]
      have hvalue := congrArg (fun t => decimal (digitsOf t))
        (hprinted.symm.trans (Option.some.inj (htext.symm.trans hrun)))
      simp only [value_justify flags _ (intPart_lt hdigits), value_justify flags _ hlayout.lt,
        hzero] at hvalue
      rw [decimal_append, decimal_intPart, hlen, hmod, Nat.mul_comm, Nat.div_add_mod, hone]
        at hvalue
      cases hvalue
  · rw [hw.first_iff (by omega), hm]
    refine ⟨?_, hlt⟩
    rw [decimal_cons, pow_succ]
    omega

theorem floatText_iff (hw : Written x s ds q) (hp : p ≤ 1022) :
    (∃ text, floatText s p width flags = some text ∧ Prints text x p width flags) ↔
      Printable x p width flags := by
  rcases Nat.lt_or_ge p q with hlt | hge
  · rcases Nat.lt_or_ge ds.length (q - p) with hbefore | hinside
    · exact before_iff hw hp hlt hbefore
    · -- The digits before the one that decides are `r`.
      obtain ⟨r, hr⟩ : ∃ r, ds.length = r + (q - p) := ⟨ds.length - (q - p), by omega⟩
      have hdrop : (ds.drop r).length = q - p := by
        rw [List.length_drop]
        omega
      obtain ⟨d, rest, hd⟩ := List.exists_cons_of_ne_nil
        (List.ne_nil_of_length_pos (by omega : 0 < (ds.drop r).length))
      have hsplit : ds = ds.take r ++ d :: rest := by rw [← hd, List.take_append_drop]
      have hq : p + (rest.length + 1) = q := by
        rw [hd, List.length_cons] at hdrop
        omega
      rw [hsplit] at hw
      by_cases hfirst : ds.take r ≠ [] ∨ d < 5
      · exact inside_iff hw hp hq hfirst
      · rw [not_or, not_not] at hfirst
        rw [hfirst.1] at hw
        exact first_iff hw hp hq (Nat.le_of_not_lt hfirst.2)
  · by_cases hexact : q = 0 ∨ q = p
    · exact exact_iff hw hp hexact
    · exact fewer_iff hw hp (by omega) (by omega)

theorem ftprintFloat_eq (hfin : IsFinite x) (precision width : Nat) (flags : FormatFlags) :
    ∃ s ds q, Written x s ds q ∧ ftprintFloat x precision width flags =
      floatText s (flags.places precision) width flags := by
  obtain ⟨s, ds, q, hrun, hw⟩ := f64ToStr_spec F64String.blank hfin
  have hnan : s.flags &&& F64_STRING_IS_NAN = 0 := by
    rw [hw.flags]
    cases x.msb <;> rfl
  have hinf : s.flags &&& F64_STRING_IS_INF = 0 := by
    rw [hw.flags]
    cases x.msb <;> rfl
  refine ⟨s, ds, q, hw, ?_⟩
  unfold ftprintFloat
  rw [hrun]
  simp only [Option.bind_eq_bind, Option.bind_some, hnan, hinf, ne_eq, not_true, false_and, if_false]
  rfl

/-- A double is printed as it is asked for exactly if it is printable so. -/
theorem float_printed_iff (x : BitVec 64) (precision width : Nat) (flags : FormatFlags)
    (hfin : IsFinite x) (hp : flags.places precision ≤ 1022) :
    (∃ text, ftprintFloat x precision width flags = some text ∧
      Prints text x (flags.places precision) width flags) ↔
      Printable x (flags.places precision) width flags := by
  obtain ⟨s, ds, q, hw, hrun⟩ := ftprintFloat_eq hfin precision width flags
  rw [hrun]
  exact floatText_iff hw hp

end Spec

theorem f64Abs_three_halves : f64Abs 0x3FF8000000000000 = 3 / 2 := by
  have hexp : f64Exp 0x3FF8000000000000 = 1023 := by decide
  have hfrac : f64Frac 0x3FF8000000000000 = 2 ^ 51 := by decide
  unfold f64Abs
  rw [hexp, hfrac, if_neg (by decide)]
  norm_num

theorem float_printed_three_halves : ∃ text,
    ftprintFloat 0x3FF8000000000000 1 0 { precision := true } = some text ∧
      Prints text 0x3FF8000000000000 1 0 { precision := true } := by
  have hone : FormatFlags.places { precision := true } 1 = 1 := rfl
  refine (float_printed_iff 0x3FF8000000000000 1 0 { precision := true } (by decide)
    (by decide)).mpr ⟨.inr fun k hk => ?_, ?_, fun h => ?_, fun h => ?_⟩
  · rw [hone, Nat.lt_one_iff] at hk
    rw [hk, f64Abs_three_halves]
    rintro ⟨n, hn⟩
    rw [pow_zero, mul_one, div_eq_iff two_ne_zero] at hn
    have hn : 3 = n * 2 := by exact_mod_cast hn
    omega
  · rw [f64Abs_three_halves, hone]
    norm_num
  · rw [hone] at h
    cases h
  · rw [hone] at h
    omega

theorem f64Abs_half : f64Abs 0x3FE0000000000000 = 1 / 2 := by
  have hexp : f64Exp 0x3FE0000000000000 = 1022 := by decide
  have hfrac : f64Frac 0x3FE0000000000000 = 0 := by decide
  unfold f64Abs
  rw [hexp, hfrac, if_neg (by decide)]
  norm_num

/-- One half is printed with one decimal place where six are asked for. -/
theorem half_is_printed_short : ¬ ∃ text, ftprintFloat 0x3FE0000000000000 6 0 {} = some text ∧
    Prints text 0x3FE0000000000000 6 0 {} := by
  obtain ⟨s, ds, q, hw, hrun⟩ := ftprintFloat_eq (x := 0x3FE0000000000000) (by decide) 6 0 {}
  rw [hrun]
  refine (floatText_iff hw (by decide)).not.mpr fun h => ?_
  have hone : q ≤ 1 := (hw.whole_iff 1).mp ⟨5, by rw [f64Abs_half]; norm_num⟩
  have hzero : q ≠ 0 := fun h0 => by
    obtain ⟨n, hn⟩ := hw.whole_abs.mpr h0
    rw [f64Abs_half, div_eq_iff two_ne_zero] at hn
    have hn : 1 = n * 2 := by exact_mod_cast hn
    omega
  have hplaces : q = 0 ∨ 6 ≤ q := hw.places_iff.mp h.places
  omega

end Nibble.Print
