import Mathlib.Data.Bool.AllAny
import Nibble.Front.Escape
import Nibble.Print.FormatSpec

/-!
# What `ftprintv` puts out

One round of the loop per item: a specifier is read as its text was built, and its argument
comes out as it is to be exactly when it is kept. A specifier whose width is an argument leaves
its `*` to be printed as a character of the format.
-/

namespace Nibble.Print

open Lib (decimal)
open Front (isDecDigit)

/-! ## Digits -/

theorem digitCode_injective (uppercase : Bool) : Function.Injective (digitCode uppercase) := by
  intro a b h
  unfold digitCode at h
  cases uppercase <;> simp only [Bool.false_eq_true, if_true, if_false] at h <;> split at h <;>
    split at h <;> omega

theorem zeros_eq_map (uppercase : Bool) (n : Nat) :
    zeros n = (List.replicate n 0).map (digitCode uppercase) := by
  rw [List.map_replicate]
  rfl

section

variable {base value : Nat}

theorem bufferDigits_lt (hbase : 0 < base) (room : Nat) :
    ∀ d ∈ bufferDigits base room value, d < base := by
  induction room generalizing value with
  | zero => exact fun d h => absurd h List.not_mem_nil
  | succ room ih =>
    rw [bufferDigits, List.forall_mem_cons]
    refine ⟨Nat.mod_lt value hbase, ?_⟩
    split
    · exact ih
    · exact fun d h => absurd h List.not_mem_nil

/-- The buffer holds the last digits of the number. -/
theorem ofDigits_bufferDigits (room : Nat) :
    Nat.ofDigits base (bufferDigits base room value) = value % base ^ room := by
  induction room generalizing value with
  | zero => rw [pow_zero, Nat.mod_one]; rfl
  | succ room ih =>
    rw [bufferDigits, Nat.ofDigits_cons, pow_succ', Nat.mod_mul]
    congr 2
    split
    · exact ih
    case isFalse h => rw [Nat.le_zero.mp (Nat.not_lt.mp h), Nat.zero_mod]; rfl

/-- A number that fits has all its digits in the buffer. -/
theorem bufferDigits_eq (hbase : 1 < base) {room : Nat} (h : value < base ^ (room + 1)) :
    bufferDigits base (room + 1) value = numeral base value none := by
  induction room generalizing value with
  | zero =>
    rw [Nat.zero_add, pow_one] at h
    have hdiv : ¬ value / base > 0 := by rw [Nat.div_eq_of_lt h]; exact Nat.lt_irrefl 0
    rw [bufferDigits, if_neg hdiv, numeral, Nat.mod_eq_of_lt h]
    split
    case isTrue hzero => rw [hzero, if_neg (by simp)]
    case isFalse hzero => rw [Nat.digits_of_lt base value hzero h]
  | succ room ih =>
    rw [bufferDigits, numeral]
    split
    case isTrue hdiv =>
      have hvalue : value ≠ 0 := by rintro rfl; rw [Nat.zero_div] at hdiv; exact Nat.lt_irrefl 0 hdiv
      have hlt : value / base < base ^ (room + 1) := by
        rw [Nat.div_lt_iff_lt_mul (by omega), ← pow_succ]
        exact h
      rw [ih hlt, numeral, if_neg (Nat.pos_iff_ne_zero.mp hdiv), if_neg hvalue,
        Nat.digits_def' hbase (Nat.pos_of_ne_zero hvalue)]
    case isFalse hdiv =>
      have hlt : value < base := by
        refine Nat.lt_of_not_le fun hle => hdiv (Nat.div_pos hle (by omega))
      rw [Nat.mod_eq_of_lt hlt]
      split
      case isTrue hzero => rw [hzero, if_neg (by simp)]
      case isFalse hzero => rw [Nat.digits_of_lt base value hzero hlt]

theorem bufferDigits_length_le (room : Nat) : (bufferDigits base room value).length ≤ room := by
  induction room generalizing value with
  | zero => exact Nat.le_refl 0
  | succ room ih =>
    rw [bufferDigits, List.length_cons]
    split
    · exact Nat.succ_le_succ ih
    · exact Nat.le_add_left 1 room

theorem ofDigits_numeral (precision : Option Nat) :
    Nat.ofDigits base (numeral base value precision) = value := by
  rw [numeral]
  split
  case isTrue h =>
    rw [h]
    split
    · rfl
    · exact Nat.ofDigits_singleton
  case isFalse => exact Nat.ofDigits_digits base value

theorem numeral_lt (hbase : 1 < base) (precision : Option Nat) :
    ∀ d ∈ numeral base value precision, d < base := by
  intro d hd
  rw [numeral] at hd
  split at hd
  · split at hd
    · exact absurd hd List.not_mem_nil
    · rw [List.mem_singleton.mp hd]
      omega
  · exact Nat.digits_lt_base hbase hd

/-- Texts of digits are told apart by their length and their number. -/
theorem zeros_append_inj (hbase : 1 < base) (uppercase : Bool) {a b : Nat} {xs ys : List Nat}
    (hx : ∀ d ∈ xs, d < base) (hy : ∀ d ∈ ys, d < base) :
    zeros a ++ (xs.map (digitCode uppercase)).reverse =
        zeros b ++ (ys.map (digitCode uppercase)).reverse ↔
      a + xs.length = b + ys.length ∧ Nat.ofDigits base xs = Nat.ofDigits base ys := by
  have hrev : ∀ (n : Nat) (zs : List Nat), zeros n ++ (zs.map (digitCode uppercase)).reverse =
      ((zs ++ List.replicate n 0).map (digitCode uppercase)).reverse := by
    intro n zs
    rw [List.map_append, List.reverse_append, ← zeros_eq_map, zeros, List.reverse_replicate]
  have hlt : ∀ {n : Nat} {zs : List Nat}, (∀ d ∈ zs, d < base) →
      ∀ d ∈ zs ++ List.replicate n 0, d < base := by
    intro n zs hz d hd
    rcases List.mem_append.mp hd with hd | hd
    · exact hz d hd
    · rw [List.eq_of_mem_replicate hd]
      omega
  rw [hrev, hrev, List.reverse_inj,
    (List.map_injective_iff.mpr (digitCode_injective uppercase)).eq_iff]
  constructor
  · intro h
    have hlen := congrArg List.length h
    have hval := congrArg (Nat.ofDigits base) h
    rw [List.length_append, List.length_append, List.length_replicate, List.length_replicate] at hlen
    rw [Nat.ofDigits_append_replicate_zero, Nat.ofDigits_append_replicate_zero] at hval
    exact ⟨by omega, hval⟩
  · rintro ⟨hlen, hval⟩
    refine Nat.ofDigits_inj_of_len_eq hbase ?_ (hlt hx) (hlt hy) ?_
    · rw [List.length_append, List.length_append, List.length_replicate, List.length_replicate]
      omega
    · rw [Nat.ofDigits_append_replicate_zero, Nat.ofDigits_append_replicate_zero, hval]

end

/-! ## Padding -/

@[simp] theorem length_zeros (n : Nat) : (zeros n).length = n := List.length_replicate

theorem zeros_append_zeros (m n : Nat) : zeros (m + n) = zeros m ++ zeros n :=
  (List.replicate_append_replicate).symm

theorem spaces_inj {m n : Nat} : spaces m = spaces n ↔ m = n :=
  ⟨fun h => by simpa [spaces] using congrArg List.length h, congrArg spaces⟩

theorem length_headText (base : Nat) (negative : Bool) (flags : FormatFlags) :
    (headText base negative flags).length ≤ 2 := by
  unfold headText baseText signText
  split
  · split
    · exact Nat.le_refl 2
    · split
      · exact Nat.le_refl 2
      · decide
  · split <;> simp

theorem guarded_sub (b : Bool) (m n : Nat) :
    (if b = true ∧ m > n then m - n else 0) = (if b = true then m else 0) - n := by
  cases b with
  | false => simp
  | true =>
    rw [if_pos rfl]
    split
    · rfl
    case isFalse h =>
      rw [Nat.sub_eq_zero_of_le]
      exact Nat.not_lt.mp fun hlt => h ⟨rfl, hlt⟩

/-- `ftprint_int_` lays out the digits of its buffer. -/
theorem ftprintInt_eq_laid {value base p width : Nat} {negative : Bool} {flags : FormatFlags}
    (hp : p < 2 ^ 64 - 2) (h : ¬ (flags.precision = true ∧ p = 0 ∧ value = 0)) :
    ftprintInt_ value base negative p width flags =
      laid flags.leftJustified flags.zeroPad (headText base negative flags)
        (zeros ((if flags.precision then p else 0) -
            (bufferDigits base PRINT_MAX_NUM_DIGITS value).length) ++
          ((bufferDigits base PRINT_MAX_NUM_DIGITS value).map (digitCode flags.uppercase)).reverse)
        (if flags.width then width else 0) := by
  have hlen := @bufferDigits_length_le base value PRINT_MAX_NUM_DIGITS
  have hhead := length_headText base negative flags
  rw [ftprintInt_, if_neg h]
  simp only [List.length_reverse, List.length_map]
  generalize hn : (bufferDigits base PRINT_MAX_NUM_DIGITS value).length = n at hlen ⊢
  generalize headText base negative flags = head at hhead ⊢
  have hcap : PRINT_MAX_NUM_DIGITS = 32 := rfl
  rw [guarded_sub flags.precision p n]
  generalize hz : (if flags.precision = true then p else 0) - n = z
  have hzp : z ≤ p - n := by
    rw [← hz]
    split <;> omega
  have htot : (n + z + head.length) % 2 ^ 64 = head.length + (z + n) := by
    rw [Nat.mod_eq_of_lt (by omega)]
    omega
  rw [htot, guarded_sub flags.width width, laid]
  simp only [List.length_append, length_zeros, List.length_reverse, List.length_map, hn]
  split
  · rw [List.append_assoc]
  · split
    · rw [Nat.add_comm z, zeros_append_zeros]
      simp only [List.append_assoc]
    · rw [List.append_assoc]

/-- Layouts with one head are the same if their bodies and paddings are. -/
theorem laid_inj {left zero : Bool} {head body body' : List Nat} {width width' : Nat} :
    laid left zero head body width = laid left zero head body' width' ↔
      if zero = true ∧ ¬ left = true then
        zeros (width - (head.length + body.length)) ++ body =
          zeros (width' - (head.length + body'.length)) ++ body'
      else body = body' ∧
        width - (head.length + body.length) = width' - (head.length + body'.length) := by
  unfold laid
  cases left with
  | true =>
    rw [if_pos rfl, if_pos rfl, if_neg (fun h => h.2 rfl), Field.mk.injEq, List.append_cancel_left_eq,
      spaces_inj]
    exact ⟨And.right, fun h => ⟨rfl, h⟩⟩
  | false =>
    rw [if_neg Bool.false_ne_true, if_neg Bool.false_ne_true]
    cases zero with
    | true =>
      rw [if_pos rfl, if_pos rfl, if_pos ⟨rfl, Bool.false_ne_true⟩, Field.mk.injEq,
        List.append_assoc, List.append_assoc, List.append_cancel_left_eq]
      exact ⟨fun h => h.2.1, fun h => ⟨rfl, h, rfl⟩⟩
    | false =>
      rw [if_neg Bool.false_ne_true, if_neg Bool.false_ne_true, if_neg (fun h => Bool.false_ne_true h.1),
        Field.mk.injEq, List.append_cancel_left_eq, spaces_inj]
      exact ⟨fun h => ⟨h.2.1, h.1⟩, fun h => ⟨h.2, h.1, rfl⟩⟩

theorem laid_eq_nil {left zero : Bool} {head body : List Nat} {width : Nat} :
    laid left zero head body width = { core := [] } ↔
      head.length = 0 ∧ body.length = 0 ∧ width = 0 := by
  have hnil : ∀ xs : List Nat, xs = [] ↔ xs.length = 0 := fun xs => List.length_eq_zero_iff.symm
  unfold laid
  cases left with
  | true =>
    rw [if_pos rfl, Field.mk.injEq, hnil (head ++ body), hnil (spaces _), List.length_append, spaces,
      List.length_replicate]
    simp only [true_and]
    omega
  | false =>
    rw [if_neg Bool.false_ne_true]
    cases zero with
    | true =>
      rw [if_pos rfl, Field.mk.injEq, hnil (_ ++ body), List.length_append, List.length_append,
        length_zeros]
      simp only [true_and, and_true]
      omega
    | false =>
      rw [if_neg Bool.false_ne_true, Field.mk.injEq, hnil (head ++ body), hnil (spaces _),
        List.length_append, spaces, List.length_replicate]
      simp only [and_true]
      omega

/-! ## Numbers -/

theorem length_body (conv : Conv) (value : Nat) (precision : Option Nat) :
    (body conv value precision).length = digitCount conv.base value precision := by
  rw [body, List.length_append, length_zeros, List.length_reverse, List.length_map, digitCount]
  omega

theorem Conv.one_lt_base (conv : Conv) : 1 < conv.base := by
  cases conv <;> decide

theorem numeral_eq_none {base value : Nat} {precision : Option Nat}
    (h : ¬ (value = 0 ∧ precision = some 0)) :
    numeral base value precision = numeral base value none := by
  unfold numeral
  split
  case isTrue hzero => rw [if_neg fun hp => h ⟨hzero, hp⟩, if_neg (by simp)]
  case isFalse => rfl

/-- A number comes out as it is to be exactly when it is kept. -/
theorem ftprintInt_iff {conv : Conv} {value : Nat} {negative : Bool} {flags : FormatFlags}
    {asked read : Option Nat} {head : List Nat} {width w wr : Nat}
    (hprec : flags.precision = read.isSome) (hread : read.getD 0 < 2 ^ 64 - 2)
    (hw : (if flags.width then w else 0) = wr) (hup : flags.uppercase = conv.uppercase)
    (hhead : headText conv.base negative flags = head) {left zero : Bool}
    (hleft : flags.leftJustified = left) (hzero : flags.zeroPad = zero) :
    ftprintInt_ value conv.base negative (read.getD 0) w flags =
        laid left zero head (body conv value asked) width ↔
      NumberKept left zero conv.base value head.length asked read width wr := by
  have hearly : (flags.precision = true ∧ read.getD 0 = 0 ∧ value = 0) ↔
      (value = 0 ∧ read = some 0) := by
    rw [hprec]
    cases read with
    | none => simp
    | some p => simp [and_comm]
  have hprecision : (if flags.precision then read.getD 0 else 0) = read.getD 0 := by
    rw [hprec]
    cases read <;> rfl
  rw [NumberKept, ← hleft, ← hzero]
  split
  case isTrue h =>
    rw [ftprintInt_, if_pos (hearly.mpr h), eq_comm, laid_eq_nil, length_body]
  case isFalse h =>
    have hbase := conv.one_lt_base
    have hbuf := fun hlt => @bufferDigits_eq conv.base value hbase 31 hlt
    rw [← numeral_eq_none h] at hbuf
    have hinj : ∀ a b : Nat, _ := fun a b => @zeros_append_inj conv.base hbase flags.uppercase a b
      (bufferDigits conv.base PRINT_MAX_NUM_DIGITS value) (numeral conv.base value asked)
      (bufferDigits_lt (by omega) PRINT_MAX_NUM_DIGITS) (numeral_lt hbase asked)
    simp only [ofDigits_bufferDigits, ofDigits_numeral] at hinj
    have hmod : value % conv.base ^ PRINT_MAX_NUM_DIGITS = value ↔ value < conv.base ^ 32 :=
      ⟨fun h => h ▸ Nat.mod_lt _ (Nat.pow_pos (by omega)), Nat.mod_eq_of_lt⟩
    simp only [hmod] at hinj
    rw [ftprintInt_eq_laid hread (fun he => h (hearly.mp he)), hw, hhead, laid_inj, hprecision]
    simp only [body, ← hup, List.length_append, length_zeros, List.length_reverse, List.length_map,
      digitCount]
    rw [show PRINT_MAX_NUM_DIGITS = 31 + 1 from rfl] at hinj ⊢
    split
    case isTrue =>
      rw [← List.append_assoc, ← zeros_append_zeros, ← List.append_assoc, ← zeros_append_zeros, hinj]
      constructor
      · rintro ⟨hlen, hlt⟩
        rw [hbuf hlt] at hlen
        exact ⟨hlt, by omega⟩
      · rintro ⟨hlt, hlen⟩
        rw [hbuf hlt]
        exact ⟨by omega, hlt⟩
    case isFalse =>
      rw [hinj]
      constructor
      · rintro ⟨⟨hlen, hlt⟩, hpad⟩
        rw [hbuf hlt] at hlen hpad
        exact ⟨hlt, by omega, by omega⟩
      · rintro ⟨hlt, hlen, hpad⟩
        rw [hbuf hlt]
        exact ⟨⟨by omega, hlt⟩, by omega⟩

/-- The number that `cstr_escape` prints is one without a width. -/
theorem printUint_eq_core {base : Nat} (hbase : 0 < base) (hle : base ≤ 16) (precision value : Nat) :
    (Front.printUint base precision value).map Char.toNat =
      (ftprintInt_ value base false precision 0 { precision := true }).core := by
  have hdigit : ∀ d < 16, (Front.digitChar d).toNat = digitCode false d := by decide
  have hbuffer : ∀ room value, (Front.intDigits base room value).map Char.toNat =
      (bufferDigits base room value).map (digitCode false) := by
    intro room
    induction room with
    | zero => exact fun _ => rfl
    | succ room ih =>
      intro value
      have hlt : value % base < 16 := Nat.lt_of_lt_of_le (Nat.mod_lt value hbase) hle
      rw [Front.intDigits, bufferDigits, List.map_cons, List.map_cons, hdigit _ hlt]
      split
      · rw [ih]
      · rfl
  have hlen : (Front.intDigits base Front.printMaxNumDigits value).length =
      (bufferDigits base PRINT_MAX_NUM_DIGITS value).length := by
    have := congrArg List.length (hbuffer PRINT_MAX_NUM_DIGITS value)
    rwa [List.length_map, List.length_map] at this
  rw [Front.printUint, ftprintInt_]
  by_cases h : precision = 0 ∧ value = 0
  · rw [if_pos h, if_pos ⟨rfl, h⟩]
    rfl
  · have hzero : (if precision > (bufferDigits base PRINT_MAX_NUM_DIGITS value).length then
        precision - (bufferDigits base PRINT_MAX_NUM_DIGITS value).length else 0) =
          precision - (bufferDigits base PRINT_MAX_NUM_DIGITS value).length := by
      split <;> omega
    have hhead : headText base false { precision := true } = [] := rfl
    rw [if_neg h, if_neg fun he => h he.2, hhead]
    simp only [List.length_reverse, List.length_map, true_and, Bool.false_eq_true, if_false,
      List.nil_append]
    rw [List.map_append, List.map_replicate, List.map_reverse, hlen, hzero,
      show Front.printMaxNumDigits = PRINT_MAX_NUM_DIGITS from rfl, hbuffer]
    rfl

/-! ## How a specifier is read -/

/-- The characters that a specifier has behind its precision. -/
def letters : List Char := ['h', 'l', 'd', 'i', 'u', 'x', 'X', 'o', 'b', 'c', 's']

/-- A text does not go on with a digit. -/
def NoDigit (text : List Char) : Prop := ∀ c ∈ text.head?, isDecDigit c = false

theorem parseFlags_stop {text : List Char} (h : ∀ c ∈ text.head?, c ∉ ['-', '+', ' ', '#', '0'])
    (f : FormatFlags) : parseFlags text f = (f, text) := by
  cases text with
  | nil => rfl
  | cons c text =>
    have hc := h c rfl
    simp only [List.mem_cons, List.not_mem_nil, or_false, not_or] at hc
    rw [parseFlags.eq_6]
    all_goals
      intro tl he
      cases he
      simp at hc

theorem parseFlags_map (flags : List Flag) {text : List Char}
    (h : ∀ c ∈ text.head?, c ∉ ['-', '+', ' ', '#', '0']) (f : FormatFlags) :
    parseFlags (flags.map Flag.char ++ text) f = ({ f with
      leftJustified := f.leftJustified || decide (.minus ∈ flags)
      forceSign := f.forceSign || decide (.plus ∈ flags)
      hash := f.hash || decide (.hash ∈ flags)
      zeroPad := f.zeroPad || decide (.zero ∈ flags) }, text) := by
  induction flags generalizing f with
  | nil => simp [parseFlags_stop h]
  | cons flag flags ih =>
    cases flag <;> simp [Flag.char, parseFlags, ih]

theorem isDecDigit_decChar (d : Fin 10) : isDecDigit (decChar d) = true := by
  revert d
  decide

theorem decChar_sub (d : Fin 10) :
    BitVec.ofNat 64 (decChar d).toNat - BitVec.ofNat 64 '0'.toNat = BitVec.ofNat 64 d := by
  revert d
  decide

theorem digitsLoop_map (digits : List (Fin 10)) {text : List Char} (h : NoDigit text) (r : Nat) :
    digitsLoop (BitVec.ofNat 64 r) (digits.map decChar ++ text) =
      (BitVec.ofNat 64 (r * 10 ^ digits.length + number digits), text) := by
  induction digits generalizing r with
  | nil =>
    have hvalue : r * 10 ^ ([] : List (Fin 10)).length + number [] = r := by
      simp [number]
    rw [hvalue, List.map_nil, List.nil_append]
    cases text with
    | nil => rfl
    | cons c text => rw [digitsLoop, h c rfl, if_neg Bool.false_ne_true]
  | cons d digits ih =>
    have hstep : 10 * BitVec.ofNat 64 r + BitVec.ofNat 64 d = BitVec.ofNat 64 (r * 10 + d) := by
      apply BitVec.eq_of_toNat_eq
      simp only [BitVec.toNat_add, BitVec.toNat_mul, BitVec.toNat_ofNat, BitVec.ofNat_eq_ofNat]
      omega
    rw [List.map_cons, List.cons_append, digitsLoop, if_pos (isDecDigit_decChar d), decChar_sub,
      hstep, ih]
    congr 2
    rw [number, number, List.map_cons, Lib.decimal_cons, List.length_map, List.length_cons, pow_succ]
    ring

theorem asciiToI64_map (d : Fin 10) (digits : List (Fin 10)) {text : List Char} (h : NoDigit text) :
    asciiToI64 (decChar d :: (digits.map decChar ++ text)) =
      (BitVec.ofNat 64 (number (d :: digits)), text) := by
  have hminus : ∀ d : Fin 10, decChar d ≠ '-' := by decide
  have hloop := digitsLoop_map (d :: digits) h 0
  rw [Nat.zero_mul, Nat.zero_add] at hloop
  rw [asciiToI64.eq_2 _ fun str he => hminus d (List.cons.inj he).1]
  exact hloop

theorem toWidth_ofNat (n : Nat) : toWidth (BitVec.ofNat 64 n).toInt = widthRead n := by
  rw [toWidth, widthRead, BitVec.toInt_eq_toNat_cond, BitVec.toNat_ofNat, u32]
  split <;> split <;> (try split) <;> omega

theorem slt_zero {w : Nat} (x : BitVec w) : x.slt 0 = decide (2 ^ (w - 1) ≤ x.toNat) := by
  rw [BitVec.ofNat_eq_ofNat, BitVec.slt_zero_eq_msb, BitVec.msb_eq_decide]

theorem toPrecision_ofNat (n : Nat) : toPrecision (BitVec.ofNat 64 n) = precisionRead n := by
  rw [toPrecision, precisionRead, slt_zero, BitVec.signExtend_eq, BitVec.toNat_ofNat]
  simp only [decide_eq_true_eq]
  split
  case isTrue h =>
    rw [if_neg (by omega), BitVec.ofNat_eq_ofNat, BitVec.zero_sub, BitVec.toNat_neg,
      BitVec.toNat_ofNat]
    omega
  case isFalse h => rw [if_pos (by omega), BitVec.toNat_ofNat]

theorem toPrecision_star (p : BitVec 32) :
    toPrecision p = if p = BitVec.intMin 32 then 2 ^ 64 - 2 ^ 31 else p.toInt.natAbs := by
  have hlt := p.isLt
  have hmin : p = BitVec.intMin 32 ↔ p.toNat = 2 ^ 31 := by
    rw [← BitVec.toNat_inj]
    rfl
  rw [toPrecision, slt_zero, BitVec.toNat_signExtend, BitVec.toInt_eq_toNat_cond]
  simp only [hmin, BitVec.msb_eq_decide, decide_eq_true_eq, BitVec.ofNat_eq_ofNat,
    BitVec.toNat_setWidth, BitVec.zero_sub]
  split
  · simp only [BitVec.toNat_neg]
    split <;> split <;> (try split) <;> omega
  · split <;> (try split) <;> omega

/-- A text goes on with one of some characters. -/
def Starts (cs text : List Char) : Prop := ∃ c rest, text = c :: rest ∧ c ∈ cs

theorem Starts.head {cs text : List Char} (h : Starts cs text) {P : Char → Prop}
    (hP : ∀ c ∈ cs, P c) : ∀ c ∈ text.head?, P c := by
  obtain ⟨c, rest, rfl, hc⟩ := h
  rintro d hd
  cases hd
  exact hP c hc

/-- The flags as they are read. -/
def readFlags (flags : List Flag) : FormatFlags where
  leftJustified := .minus ∈ flags
  forceSign := .plus ∈ flags
  hash := .hash ∈ flags
  zeroPad := .zero ∈ flags

def Width.given (w : Width) : Bool := w ≠ .omitted

def Precision.given (p : Precision) : Bool := p ≠ .omitted

theorem parseWidth_text {w : Width} (hw : ∀ x, w ≠ .star x) {text : List Char}
    (h : Starts ('.' :: letters) text) (flags : List Flag) (args : List Arg) :
    parseWidth { format := w.text ++ text, args := w.args ++ args, flags := readFlags flags } =
      some { format := text, args, flags := { readFlags flags with width := w.given },
             width := w.read } := by
  cases w with
  | omitted =>
    obtain ⟨c, rest, rfl, hc⟩ := h
    have hno : ∀ c ∈ '.' :: letters, isDecDigit c = false ∧ c ≠ '*' :=
      List.all_iff_forall_prop.mp (by decide)
    obtain ⟨hdigit, hstar⟩ := hno c hc
    simp only [Width.text, Width.args, List.nil_append, parseWidth, hdigit, hstar, if_false,
      Bool.false_eq_true]
    rfl
  | literal first rest hne =>
    have hno : ∀ c ∈ '.' :: letters, isDecDigit c = false :=
      List.all_iff_forall_prop.mp (by decide)
    simp only [Width.text, Width.args, List.nil_append, List.map_cons, List.cons_append, parseWidth,
      isDecDigit_decChar, if_true, asciiToI64_map first rest (h.head hno), toWidth_ofNat]
    rfl
  | star x => exact absurd rfl (hw x)

/-- The `*` is not taken from the format. -/
theorem parseWidth_star (x : BitVec 32) (text : List Char) (flags : FormatFlags) (args : List Arg) :
    ∃ width, parseWidth { format := '*' :: text, args := .int x :: args, flags } =
      some { format := '*' :: text, args, flags := { flags with width := true }, width } :=
  ⟨_, rfl⟩

theorem parsePrecision_text (p : Precision) {text : List Char} (h : Starts letters text)
    (flags : FormatFlags) (hflags : flags.precision = false) (args : List Arg) (width : Nat) :
    parsePrecision { format := p.text ++ text, args := p.args ++ args, flags, width } =
      some { format := text, args, flags := { flags with precision := p.given }, width,
             precision := p.read.getD 0 } := by
  have hno : ∀ c ∈ letters, isDecDigit c = false ∧ c ≠ '*' ∧ c ≠ '.' :=
    List.all_iff_forall_prop.mp (by decide)
  cases p with
  | omitted =>
    obtain ⟨c, rest, rfl, hc⟩ := h
    obtain ⟨-, -, hdot⟩ := hno c hc
    have hflags' : { flags with precision := Precision.given .omitted } = flags := by
      cases flags
      cases hflags
      rfl
    rw [hflags']
    simp only [Precision.text, Precision.args, List.nil_append]
    unfold parsePrecision
    split
    case h_1 he => exact absurd (List.cons.inj he).1 hdot
    case h_2 => rfl
  | literal digits =>
    cases digits with
    | nil =>
      obtain ⟨c, rest, rfl, hc⟩ := h
      obtain ⟨hdigit, hstar, -⟩ := hno c hc
      simp only [Precision.text, Precision.args, List.nil_append, List.map_nil, List.cons_append,
        parsePrecision, hdigit, hstar, if_false, Bool.false_eq_true]
      rfl
    | cons first rest =>
      simp only [Precision.text, Precision.args, List.nil_append, List.map_cons, List.cons_append,
        parsePrecision, isDecDigit_decChar, if_true,
        asciiToI64_map first rest (h.head fun c hc => (hno c hc).1), toPrecision_ofNat]
      rfl
  | star x =>
    have hdigit : isDecDigit '*' = false := by decide
    simp only [Precision.text, Precision.args, List.cons_append, List.nil_append, parsePrecision,
      hdigit, if_true, if_false, Bool.false_eq_true, vaInt, Option.bind_eq_bind, Option.bind_some,
      toPrecision_star]
    rfl

/-- The flags with the length. -/
def Length.flags (length : Length) (flags : FormatFlags) : FormatFlags :=
  match length with
  | .omitted => flags
  | .hh => { flags with char := true }
  | .h => { flags with short := true }
  | .l => { flags with long := true }
  | .ll => { flags with longLong := true }

theorem parseLength_text (length : Length) {c : Char} (hc : c ≠ 'l' ∧ c ≠ 'h') (text : List Char)
    (v : Conversion) (hv : v.format = length.text ++ c :: text) :
    parseLength v = { v with format := c :: text, flags := length.flags v.flags } := by
  obtain ⟨hl, hh⟩ := hc
  cases length <;> simp only [Length.text, List.nil_append, List.cons_append] at hv <;>
    simp only [parseLength, hv, Length.flags]
  case omitted =>
    split
    all_goals first
      | rename_i he
        exact absurd (List.cons.inj he).1 (by assumption)
      | rw [← hv]
  case h =>
    split
    all_goals simp_all
  case l =>
    split
    all_goals simp_all

/-- The flags of a specifier when its argument is taken. -/
def Specifier.formatFlags (s : Specifier) : FormatFlags :=
  s.length.flags { readFlags s.flags with
    width := s.width.given, precision := s.precision.given }

theorem Operand.conv_mem {length : Length} (operand : Operand length) :
    operand.conv ∈ letters ∧ operand.conv ≠ 'l' ∧ operand.conv ≠ 'h' := by
  have hconv : ∀ conv : Conv, conv.char ∈ letters ∧ conv.char ≠ 'l' ∧ conv.char ≠ 'h' := fun conv => by
    cases conv <;> decide
  have hc : 'c' ∈ letters ∧ 'c' ≠ 'l' ∧ 'c' ≠ 'h' := by decide
  have hs : 's' ∈ letters ∧ 's' ≠ 'l' ∧ 's' ≠ 'h' := by decide
  cases operand with
  | number conv => exact hconv conv
  | char => exact hc
  | string => exact hs

/-- The text behind the width. -/
def Specifier.tail (s : Specifier) (more : List Char) : List Char :=
  s.precision.text ++ (s.length.text ++ s.operand.conv :: more)

theorem Specifier.starts_length (s : Specifier) (more : List Char) :
    Starts letters (s.length.text ++ s.operand.conv :: more) := by
  have hlength : ∀ (length : Length) (c : Char), c ∈ letters →
      Starts letters (length.text ++ c :: more) := by
    intro length c hc
    cases length with
    | omitted => exact ⟨_, _, rfl, hc⟩
    | hh | h | l | ll => exact ⟨_, _, rfl, by decide⟩
  exact hlength s.length _ s.operand.conv_mem.1

theorem Specifier.starts_tail (s : Specifier) (more : List Char) :
    Starts ('.' :: letters) (s.tail more) := by
  rw [Specifier.tail]
  cases s.precision with
  | omitted =>
    obtain ⟨c, rest, htext, hc⟩ := s.starts_length more
    exact ⟨c, rest, htext, List.mem_cons_of_mem _ hc⟩
  | literal => exact ⟨_, _, rfl, List.mem_cons_self⟩
  | star => exact ⟨_, _, rfl, List.mem_cons_self⟩

theorem Specifier.text_eq (s : Specifier) (more : List Char) :
    s.text ++ more = '%' :: (s.flags.map Flag.char ++ (s.width.text ++ s.tail more)) := by
  simp [Specifier.text, Specifier.tail]

/-- No flag comes behind the flags. -/
theorem Specifier.noFlag (s : Specifier) (more : List Char) :
    ∀ c ∈ (s.width.text ++ s.tail more).head?, c ∉ ['-', '+', ' ', '#', '0'] := by
  cases s.width with
  | omitted => exact (s.starts_tail more).head (List.all_iff_forall_prop.mp (by decide))
  | literal first rest hne =>
    have hfirst : ∀ d : Fin 10, d ≠ 0 → decChar d ∉ ['-', '+', ' ', '#', '0'] := by decide
    rintro c hc
    cases hc
    exact hfirst first hne
  | star =>
    rintro c hc
    cases hc
    decide

theorem parseFlags_text (s : Specifier) (more : List Char) :
    parseFlags (s.flags.map Flag.char ++ (s.width.text ++ s.tail more)) {} =
      (readFlags s.flags, s.width.text ++ s.tail more) := by
  rw [parseFlags_map s.flags (s.noFlag more)]
  simp only [Bool.false_or]
  rfl

/-- A specifier is read up to its conversion. -/
theorem specifier_text (s : Specifier) (hs : ∀ w, s.width ≠ .star w) (more : List Char)
    (args : List Arg) :
    specifier (s.flags.map Flag.char ++ (s.width.text ++ s.tail more)) (s.args ++ args) =
      evaluate { format := s.operand.conv :: more, args := s.operand.arg :: args,
                 flags := s.formatFlags, width := s.width.read,
                 precision := s.precision.read.getD 0 } := by
  rw [specifier, parseFlags_text]
  simp only [Specifier.args, List.append_assoc]
  rw [parseWidth_text hs (s.starts_tail more), Option.bind_eq_bind, Option.bind_some,
    Specifier.tail, parsePrecision_text s.precision (s.starts_length more) _ rfl]
  simp only [Option.bind_some]
  rw [parseLength_text s.length s.operand.conv_mem.2 more _ rfl]
  rfl

/-- The `*` of a width is printed. -/
theorem specifier_star (s : Specifier) {w : BitVec 32} (hs : s.width = .star w) (more : List Char)
    (args : List Arg) :
    ∃ rest args', specifier (s.flags.map Flag.char ++ (s.width.text ++ s.tail more))
      (s.args ++ args) = some (.copied '*', rest, args') := by
  rw [specifier, parseFlags_text]
  simp only [Specifier.args, List.append_assoc, hs, Width.text, Width.args, List.cons_append,
    List.nil_append]
  obtain ⟨width, hwidth⟩ := parseWidth_star w (s.tail more) (readFlags s.flags)
    (s.precision.args ++ s.operand.arg :: args)
  rw [hwidth]
  exact ⟨s.tail more, _, rfl⟩

/-! ## How an argument is printed -/

section

variable {length : Length} {flags : FormatFlags} (args : List Arg)

theorem Length.kept_le (length : Length) : length.kept ≤ 64 := by
  cases length <;> decide

theorem setWidth_eq_signExtend (v : BitVec 64) : v = (v.setWidth 64).signExtend 64 := by
  rw [BitVec.setWidth_eq, BitVec.signExtend_eq]

theorem setWidth_eq_setWidth (v : BitVec 64) : v = (v.setWidth 64).setWidth 64 := by
  rw [BitVec.setWidth_eq, BitVec.setWidth_eq]

theorem vaSigned_arg (value : BitVec length.bits) (h : flags.char = false ∧ flags.short = false ∧
    flags.long = false ∧ flags.longLong = false) :
    vaSigned (length.flags flags) (length.arg value :: args) =
      some ((value.setWidth length.kept).signExtend 64, args) := by
  obtain ⟨hc, hs, hl, hll⟩ := h
  cases length with
  | omitted =>
    simp only [vaSigned, Length.flags, Length.arg, vaInt, hc, hs, hl, hll]
    exact congrArg (fun v : BitVec 32 => some (v.signExtend 64, args)) (BitVec.setWidth_eq value).symm
  | hh | h =>
    simp [vaSigned, Length.flags, Length.arg, Length.kept, vaInt, hc, hs, hl, hll]
    rfl
  | l | ll =>
    simp only [vaSigned, Length.flags, Length.arg, vaLong, hl, hll]
    exact congrArg (fun v : BitVec 64 => some (v, args)) (setWidth_eq_signExtend value)

theorem vaUnsigned_arg (value : BitVec length.bits) (h : flags.char = false ∧ flags.short = false ∧
    flags.long = false ∧ flags.longLong = false) :
    vaUnsigned (length.flags flags) (length.arg value :: args) =
      some ((value.setWidth length.kept).setWidth 64, args) := by
  obtain ⟨hc, hs, hl, hll⟩ := h
  cases length with
  | omitted =>
    simp only [vaUnsigned, Length.flags, Length.arg, vaInt, hc, hs, hl, hll]
    exact congrArg (fun v : BitVec 32 => some (v.setWidth 64, args)) (BitVec.setWidth_eq value).symm
  | hh | h =>
    simp [vaUnsigned, Length.flags, Length.arg, Length.kept, vaInt, hc, hs, hl, hll]
    rfl
  | l | ll =>
    simp only [vaUnsigned, Length.flags, Length.arg, vaLong, hl, hll]
    exact congrArg (fun v : BitVec 64 => some (v, args)) (setWidth_eq_setWidth value)

theorem ftprintInt_eq (value : BitVec 64) (base precision width : Nat) :
    ftprintInt value base precision width flags =
      ftprintInt_ value.toInt.natAbs base (value.toInt < 0) precision width flags := by
  have hlt := value.isLt
  have hneg : value.slt 0 = decide (value.toInt < 0) := by
    rw [BitVec.slt_eq_decide]
    rfl
  rw [ftprintInt]
  simp only [hneg]
  congr 1
  have hcond := BitVec.toInt_eq_toNat_cond value
  by_cases h : value.toInt < 0
  · rw [decide_eq_true h, if_pos rfl, BitVec.ofNat_eq_ofNat, BitVec.zero_sub, BitVec.toNat_neg]
    split at hcond <;> omega
  · rw [decide_eq_false h, if_neg Bool.false_ne_true]
    split at hcond <;> omega

/-- A number is converted with the base and the sign of its value. -/
theorem evaluate_number (conv : Conv) (value : BitVec length.bits) (more : List Char)
    (width precision : Nat) (hup : flags.uppercase = false)
    (h : flags.char = false ∧ flags.short = false ∧ flags.long = false ∧ flags.longLong = false) :
    evaluate { format := conv.char :: more, args := length.arg value :: args,
               flags := length.flags flags, width, precision } =
      some (.converted (ftprintInt_ (conv.value value).natAbs conv.base (conv.value value < 0)
        precision width { length.flags flags with uppercase := conv.uppercase }), more, args) := by
  have hflags : { length.flags flags with uppercase := false } = length.flags flags := by
    cases flags
    cases hup
    cases length <;> rfl
  have hsigned : ((value.setWidth length.kept).signExtend 64).toInt =
      (value.setWidth length.kept).toInt :=
    BitVec.toInt_signExtend_of_le length.kept_le
  have hunsigned : ((value.setWidth length.kept).setWidth 64).toNat =
      (value.setWidth length.kept).toNat := by
    rw [BitVec.toNat_setWidth]
    exact Nat.mod_eq_of_lt (Nat.lt_of_lt_of_le (value.setWidth length.kept).isLt
      (Nat.pow_le_pow_right (by decide) length.kept_le))
  have hnat : ∀ n : Nat, ¬ (n : Int) < 0 := fun n => Int.not_lt.mpr (Int.natCast_nonneg n)
  have hupper : length.flags { flags with uppercase := true } =
      { length.flags flags with uppercase := true } := by
    cases length <;> rfl
  have hX := @vaUnsigned_arg length { flags with uppercase := true } args value h
  rw [hupper] at hX
  have hsig := @vaSigned_arg length flags args value h
  have huns := @vaUnsigned_arg length flags args value h
  cases conv
  case d | i =>
    simp [evaluate, Conv.char, hsig, ftprintInt_eq, hsigned, Conv.value, Conv.signed, Conv.base,
      Conv.uppercase, hflags, baseOf]
  case X =>
    simp [evaluate, Conv.char, hX, printUint, hunsigned, Conv.value, Conv.signed, Conv.base,
      Conv.uppercase, baseOf, hnat, -BitVec.toNat_setWidth]
  all_goals
    simp [evaluate, Conv.char, huns, printUint, hunsigned, Conv.value, Conv.signed, Conv.base,
      Conv.uppercase, hflags, baseOf, hnat, -BitVec.toNat_setWidth]

theorem headText_eq (conv : Conv) (value : Int) (fl : List Flag) (length : Length)
    (width precision : Bool) :
    headText conv.base (value < 0) { length.flags { readFlags fl with width, precision } with
      uppercase := conv.uppercase } = head conv value fl := by
  have hneg : codes "-" = [45] := by decide
  have hplus : codes "+" = [43] := by decide
  have hbase : (conv.base = 2 ∨ conv.base = 8 ∨ conv.base = 16) ↔ conv.base ≠ 10 := by
    cases conv <;> decide
  have hhash : (length.flags { readFlags fl with width, precision }).hash =
      decide (Flag.hash ∈ fl) := by cases length <;> rfl
  have hsign : (length.flags { readFlags fl with width, precision }).forceSign =
      decide (Flag.plus ∈ fl) := by cases length <;> rfl
  simp only [headText, head, signText, hhash, hsign, hneg, hplus, Bool.and_eq_true, Bool.or_eq_true,
    decide_eq_true_eq, or_assoc, hbase]
  split
  · rfl
  · by_cases hv : value < 0
    · rw [if_pos (.inl hv), if_pos hv, if_pos hv]
    · rw [if_neg hv, if_neg hv]
      by_cases hp : Flag.plus ∈ fl
      · rw [if_pos (.inr hp), if_pos hp]
      · rw [if_neg (by tauto), if_neg hp]

/-- Characters with spaces before or behind them. -/
theorem padded_eq (fl : FormatFlags) (strLen width : Nat) (core : List Nat) :
    padded fl strLen width core =
      if fl.leftJustified then
        { core, right := spaces ((if fl.width then width else 0) - strLen) }
      else { left := spaces ((if fl.width then width else 0) - strLen), core } := by
  have hpad : (if fl.width = true then width - strLen else 0) =
      (if fl.width = true then width else 0) - strLen := by
    split
    · rfl
    · exact (Nat.zero_sub strLen).symm
  rw [padded, hpad]

theorem padded_inj {fl : FormatFlags} {strLen width w : Nat} {core core' : List Nat} :
    padded fl strLen w core = laid fl.leftJustified false [] core' width ↔
      core = core' ∧ (if fl.width then w else 0) - strLen = width - core'.length := by
  rw [padded_eq, laid]
  simp only [List.length_nil, Nat.zero_add, List.nil_append, Bool.false_eq_true, if_false]
  split
  · rw [Field.mk.injEq, spaces_inj]
    exact ⟨And.right, fun h => ⟨rfl, h⟩⟩
  · rw [Field.mk.injEq, spaces_inj]
    exact ⟨fun h => ⟨h.2.1, h.1⟩, fun h => ⟨h.2, h.1, rfl⟩⟩

end

theorem Width.read_given (w : Width) : (if w.given then w.read else 0) = w.read := by
  cases w <;> rfl

theorem Precision.given_eq (p : Precision) : p.given = p.read.isSome := by
  cases p <;> rfl

theorem Precision.read_lt (p : Precision) : p.read.getD 0 < 2 ^ 64 - 2 := by
  cases p with
  | omitted => decide
  | literal digits =>
    rw [Precision.read, Option.getD_some, precisionRead]
    split <;> omega
  | star p =>
    rw [Precision.read, Option.getD_some]
    have hle := BitVec.le_toInt p
    have hlt := @BitVec.toInt_lt 32 p
    split <;> omega

theorem Specifier.formatFlags_left (s : Specifier) :
    s.formatFlags.leftJustified = decide (.minus ∈ s.flags) := by
  rw [Specifier.formatFlags]
  cases s.length <;> rfl

theorem Specifier.formatFlags_zero (s : Specifier) :
    s.formatFlags.zeroPad = decide (.zero ∈ s.flags) := by
  rw [Specifier.formatFlags]
  cases s.length <;> rfl

theorem Specifier.formatFlags_width (s : Specifier) : s.formatFlags.width = s.width.given := by
  rw [Specifier.formatFlags]
  cases s.length <;> rfl

theorem Specifier.formatFlags_precision (s : Specifier) :
    s.formatFlags.precision = s.precision.given := by
  rw [Specifier.formatFlags]
  cases s.length <;> rfl

/-- A cut string is told by its length. -/
theorem cut_inj {value : List UInt8} {p q : Option Nat} :
    (cut value p).map UInt8.toNat = (cut value q).map UInt8.toNat ↔
      (cut value p).length = (cut value q).length := by
  have htake : ∀ p, ∃ n, cut value p = (cstr value).take n := fun p => by
    cases p with
    | none => exact ⟨(cstr value).length, List.take_length.symm⟩
    | some n => exact ⟨n, rfl⟩
  obtain ⟨m, hm⟩ := htake p
  obtain ⟨n, hn⟩ := htake q
  constructor
  · intro h
    have := congrArg List.length h
    rwa [List.length_map, List.length_map] at this
  · intro h
    rw [hm, hn, List.length_take, List.length_take] at h
    rw [hm, hn, List.take_eq_take_iff.mpr h]

/-- The argument of a specifier comes out as it is to be exactly when it is kept. -/
theorem evaluate_iff (s : Specifier) (hs : ∀ w, s.width ≠ .star w) (more : List Char)
    (args : List Arg) :
    ∃ put, evaluate { format := s.operand.conv :: more, args := s.operand.arg :: args,
                      flags := s.formatFlags, width := s.width.read,
                      precision := s.precision.read.getD 0 } = some (put, more, args) ∧
      (put = .converted s.field ↔ s.Kept) := by
  have hwidth := s.formatFlags_width
  have hread := s.width.read_given
  rw [Specifier.Kept, Specifier.field, and_iff_right hs]
  cases hoperand : s.operand with
  | number conv value =>
    refine ⟨_, evaluate_number args conv value more s.width.read (s.precision.read.getD 0) rfl
      ⟨rfl, rfl, rfl, rfl⟩, ?_⟩
    rw [Put.converted.injEq]
    have hiff := @ftprintInt_iff conv (conv.value value).natAbs (conv.value value < 0)
      { s.formatFlags with uppercase := conv.uppercase } s.precision.asked s.precision.read
      (head conv (conv.value value) s.flags) s.width.asked s.width.read s.width.read
      (s.formatFlags_precision.trans s.precision.given_eq) s.precision.read_lt
      (by dsimp only; rw [hwidth, hread]) rfl
      (headText_eq conv (conv.value value) s.flags s.length s.width.given s.precision.given)
      (decide (.minus ∈ s.flags)) (decide (.zero ∈ s.flags)) s.formatFlags_left s.formatFlags_zero
    exact hiff
  | char value =>
    refine ⟨.converted (padded s.formatFlags 1 s.width.read [(value.setWidth 8).toNat]), rfl, ?_⟩
    have hiff := @padded_inj s.formatFlags 1 s.width.asked s.width.read
      [(value.setWidth 8).toNat] [(value.setWidth 8).toNat]
    rw [s.formatFlags_left, hwidth, hread] at hiff
    rw [Put.converted.injEq, hiff]
    exact ⟨And.right, fun h => ⟨rfl, h⟩⟩
  | string value =>
    refine ⟨.converted (ftprintStr (some value) (s.precision.read.getD 0) s.width.read
      s.formatFlags), rfl, ?_⟩
    have hcut : (if s.formatFlags.precision = true then
        (cstr value).take (s.precision.read.getD 0) else cstr value) = cut value s.precision.read := by
      rw [s.formatFlags_precision, s.precision.given_eq]
      cases s.precision.read <;> rfl
    have hiff := @padded_inj s.formatFlags ((cut value s.precision.read).length % 2 ^ 32)
      s.width.asked s.width.read ((cut value s.precision.read).map UInt8.toNat)
      ((cut value s.precision.asked).map UInt8.toNat)
    rw [s.formatFlags_left, hwidth, hread, cut_inj, List.length_map] at hiff
    rw [Put.converted.injEq, ftprintStr]
    simp only [hcut]
    rw [hiff, StringKept]
    constructor
    · rintro ⟨hlen, hpad⟩
      exact ⟨hlen, hlen ▸ hpad⟩
    · rintro ⟨hlen, hpad⟩
      exact ⟨hlen, by rwa [hlen]⟩

/-! ## Formats -/

/-- A specifier is put out as it is to be, and the format and the arguments go on behind it, exactly
when it is kept. -/
theorem specifier_iff (s : Specifier) (more : List Char) (args : List Arg) :
    ∃ put more' args', specifier (s.flags.map Flag.char ++ (s.width.text ++ s.tail more))
        (s.args ++ args) = some (put, more', args') ∧
      (put = .converted s.field ↔ s.Kept) ∧ (s.Kept → more' = more ∧ args' = args) := by
  by_cases hs : ∃ w, s.width = .star w
  · obtain ⟨w, hw⟩ := hs
    obtain ⟨rest, args', h⟩ := specifier_star s hw more args
    have hkept : ¬ s.Kept := fun hkept => hkept.1 w hw
    exact ⟨_, rest, args', h, iff_of_false Put.noConfusion hkept, fun hk => absurd hk hkept⟩
  · have hs : ∀ w, s.width ≠ .star w := fun w hw => hs ⟨w, hw⟩
    obtain ⟨put, hput, hiff⟩ := evaluate_iff s hs more args
    exact ⟨put, more, args, (specifier_text s hs more args).trans hput, hiff, fun _ => ⟨rfl, rfl⟩⟩

theorem bind_cons_iff {puts? : Option (List Put)} {put : Put} {puts : List Put} :
    (puts? >>= fun rest => some (put :: rest)) = some (put :: puts) ↔ puts? = some puts := by
  cases puts? with
  | none => exact iff_of_false (fun h => nomatch h) (fun h => nomatch h)
  | some rest => simp

theorem forall_specifier_cons {s : Specifier} {items : List Item} :
    (∀ t, Item.specifier t ∈ Item.specifier s :: items → t.Kept) ↔
      s.Kept ∧ ∀ t, Item.specifier t ∈ items → t.Kept := by
  constructor
  · exact fun h => ⟨h s List.mem_cons_self, fun t ht => h t (List.mem_cons_of_mem _ ht)⟩
  · rintro ⟨hs, h⟩ t ht
    rcases List.mem_cons.mp ht with he | ht
    · cases he
      exact hs
    · exact h t ht

theorem ftprintvLoop_iff (items : List Item) {left : Nat}
    (hleft : (items.flatMap Item.text).length ≤ left) :
    ftprintvLoop left (items.flatMap Item.text) (items.flatMap Item.args) =
        some (items.map Item.put ++ [.terminator]) ↔
      ∀ s, .specifier s ∈ items → s.Kept := by
  induction items generalizing left with
  | nil =>
    have hnil : ∀ left, ftprintvLoop left [] [] = some [.terminator] := fun left => by
      cases left <;> rfl
    exact iff_of_true (hnil left) fun s h => absurd h List.not_mem_nil
  | cons item items ih =>
    rw [List.flatMap_cons] at hleft
    rw [List.flatMap_cons, List.flatMap_cons, List.map_cons, List.cons_append]
    cases item with
    | ordinary c hc =>
      cases left with
      | zero => simp [Item.text] at hleft
      | succ left =>
        have hih := @ih left (by simpa [Item.text] using hleft)
        rw [Item.text, Item.args, List.nil_append, List.singleton_append, ftprintvLoop.eq_4 _ _ _ _ hc.1,
          Item.put]
        rw [show (∀ s, Item.specifier s ∈ Item.ordinary c hc :: items → s.Kept) ↔
          ∀ s, Item.specifier s ∈ items → s.Kept by simp, ← hih]
        exact bind_cons_iff
    | specifier s =>
      cases left with
      | zero => simp [Item.text, Specifier.text] at hleft
      | succ left =>
        have hlen : (items.flatMap Item.text).length ≤ left := by
          rw [Item.text, List.length_append] at hleft
          simp only [Specifier.text, List.length_append, List.length_cons] at hleft
          omega
        obtain ⟨put, more', args', hspec, hput, hgo⟩ :=
          specifier_iff s (items.flatMap Item.text) (items.flatMap Item.args)
        rw [Item.text, Item.args, Item.put, s.text_eq, ftprintvLoop, hspec, forall_specifier_cons,
          Option.bind_eq_bind, Option.bind_some]
        by_cases hkept : s.Kept
        · obtain ⟨rfl, rfl⟩ := hgo hkept
          rw [hput.mpr hkept, and_iff_right hkept, ← ih hlen]
          exact bind_cons_iff
        · refine iff_of_false (fun h => ?_) fun h => hkept h.1
          obtain ⟨rest, -, hrest⟩ := Option.bind_eq_some_iff.mp h
          exact hkept (hput.mp (List.cons.inj (Option.some.inj hrest)).1)

/-- A format is put out as it is to be exactly when its specifiers are kept. -/
theorem ftprintv_printed_iff (items : List Item) :
    ftprintv (items.flatMap Item.text) (items.flatMap Item.args) =
        some (items.map Item.put ++ [.terminator]) ↔
      ∀ s, .specifier s ∈ items → s.Kept :=
  ftprintvLoop_iff items (Nat.le_refl _)

/-- `%*d` with the arguments 5 and 7 -/
def starWidth : Item :=
  .specifier { flags := [], width := .star 5, precision := .omitted, length := .omitted,
               operand := .number .d (7 : BitVec 32) }

theorem star_width_is_printed :
    ftprintv starWidth.text starWidth.args = some [.copied '*', .copied 'd', .terminator] ∧
      ¬ ∀ items : List Item, ftprintv (items.flatMap Item.text) (items.flatMap Item.args) =
        some (items.map Item.put ++ [.terminator]) := by
  refine ⟨by decide, fun h => ?_⟩
  have hstar := (ftprintvLoop_iff [starWidth] (Nat.le_refl _)).mp (h [starWidth])
  exact (hstar _ List.mem_cons_self).1 5 rfl

end Nibble.Print
