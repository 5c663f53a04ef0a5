import Nibble.Print.Float

/-!
# Printed numbers

`f64str_round`, and what `ftprint_float` and `ftprint_int_` put out: a text is the list of the
characters that were put, each by its code.
-/

namespace Nibble.Print

/-- A value as a `u32`. -/
def u32 (z : Int) : Nat := (z % 2 ^ 32).toNat

/-- A value as an `int`. -/
def i32 (z : Int) : Int := z.bmod (2 ^ 32)

/-- `enum format_flags` -/
structure FormatFlags where
  leftJustified : Bool := false
  forceSign : Bool := false
  spaceSign : Bool := false
  hash : Bool := false
  zeroPad : Bool := false
  width : Bool := false
  precision : Bool := false
  char : Bool := false
  short : Bool := false
  long : Bool := false
  longLong : Bool := false
  uppercase : Bool := false
  deriving DecidableEq, Repr

def PRINT_DEFAULT_FLOAT_PRECISION : Nat := 6

/-! ## Rounding -/

/-- `f64str_num_frac_digits` -/
def f64strNumFracDigits (s : F64String) : Nat := u32 (s.numDigits - s.decimalPoint)

/-- `f64str_num_int_digits` -/
def f64strNumIntDigits (s : F64String) : Nat := s.decimalPoint.toNat

/-- `digits[i]` for an `int` -/
def Digits.loadInt (digits : Digits) (i : Int) : Option Nat :=
  if 0 ≤ i then digits.load i.toNat else none

/-- The loop of `f64str_has_nonzero_digit`: `left` digits from `i` on. -/
def hasNonzeroLoop (digits : Digits) : Nat → Nat → Option Bool
  | 0, _ => some false
  | left + 1, i => do
    let c ← digits.load i
    if c > chr 0 ∧ c ≤ chr 9 then some true else hasNonzeroLoop digits left (i + 1)

/-- `f64str_has_nonzero_digit` -/
def f64strHasNonzeroDigit (s : F64String) (roundDigit : Nat) : Option Bool :=
  hasNonzeroLoop s.digits (s.numDigits - (roundDigit + 1)) (roundDigit + 1)

/-- Whether the digits before `roundDigit` are rounded up. -/
def roundsUp (s : F64String) (roundDigit : Nat) : Option Bool := do
  let c ← s.digits.load roundDigit
  if c > chr 5 then some true
  else if c = chr 5 then
    let prev ← s.digits.loadInt (roundDigit - 1)
    if prev % 2 = 1 then some true else f64strHasNonzeroDigit s roundDigit
  else some false

/-- The nines below `i` become zeros; the result is where the first other digit is. -/
def ninesLoop : Nat → Digits → Option (Digits × Option Nat)
  | 0, digits => some (digits, none)
  | i + 1, digits => do
    let c ← digits.load i
    if c = chr 9 then
      let digits ← digits.store i (chr 0)
      ninesLoop i digits
    else some (digits, some i)

/-- The digits before `roundDigit` are rounded up. -/
def roundUp (s : F64String) (roundDigit : Nat) : Option F64String := do
  let (digits, i?) ← ninesLoop roundDigit s.digits
  match i? with
  | some i =>
    let c ← digits.load i
    let digits ← digits.store i (c + 1)
    some { s with digits }
  | none =>
    let digits ← digits.store 0 (chr 1)
    let digits ← digits.store roundDigit (chr 0)
    some { s with digits, decimalPoint := s.decimalPoint + 1, numDigits := s.numDigits + 1 }

/-- Zeros are added while there is room. -/
def padLoop : Nat → Digits → Nat → Option (Digits × Nat)
  | 0, digits, numDigits => some (digits, numDigits)
  | left + 1, digits, numDigits =>
    if numDigits < 1024 then do
      let digits ← digits.store numDigits (chr 0)
      padLoop left digits (numDigits + 1)
    else some (digits, numDigits)

/-- What `f64str_round` does before it writes the terminator. -/
def roundDigits (s : F64String) (precision : Nat) : Option F64String :=
  let totFracDigits := f64strNumFracDigits s
  let roundDigit := i32 (s.decimalPoint + precision)
  if roundDigit < 0 then do
    let numDigits := min (u32 (precision + 1)) (1024 - 1)
    let (digits, _) ← copyDigits (List.replicate numDigits (chr 0)) s.digits 0
    some { s with digits, numDigits, decimalPoint := 1 }
  else if totFracDigits > 0 ∧ roundDigit.toNat < s.numDigits then
    if totFracDigits > precision then do
      let up ← roundsUp s roundDigit.toNat
      let s ← if up then roundUp s roundDigit.toNat else some s
      some { s with numDigits := u32 (s.numDigits - (totFracDigits - precision)) }
    else if totFracDigits < precision then do
      let (digits, numDigits) ← padLoop (precision - totFracDigits) s.digits s.numDigits
      some { s with digits, numDigits }
    else some s
  else some s

/-- `f64str_round` -/
def f64strRound (s : F64String) (precision : Nat) : Option F64String := do
  let s ← roundDigits s precision
  let digits ← s.digits.store s.numDigits 0
  some { s with digits }

/-! ## Floats -/

/-- The digits before the point. -/
def intText (s : F64String) : Option (List Nat) :=
  if f64strNumIntDigits s > 0 then
    (List.range (f64strNumIntDigits s)).mapM fun i =>
      if i < s.numDigits then s.digits.load i else some (chr 0)
  else some [chr 0]

/-- The digits after the point. -/
def fracText (s : F64String) (precision : Nat) : Option (List Nat) :=
  if f64strNumFracDigits s > 0 then
    (List.range (f64strNumFracDigits s)).mapM fun (j : Nat) =>
      if s.decimalPoint + j ≥ 0 then s.digits.loadInt (s.decimalPoint + j) else some (chr 0)
  else some (List.replicate precision (chr 0))

/-- A text with its padding: `pad` characters before it or after it. -/
def justify (leftJustified : Bool) (c : Nat) (pad : Nat) (text : List Nat) : List Nat :=
  if leftJustified then text ++ List.replicate pad 32 else List.replicate pad c ++ text

/-- `-` or `+` -/
def signText (printSign negative : Bool) : List Nat :=
  if printSign then [if negative then 45 else 43] else []

/-- What `ftprint_float` puts out for a string that is a number. -/
def floatText (s : F64String) (precision width : Nat) (flags : FormatFlags) : Option (List Nat) := do
  let negative := s.flags &&& F64_STRING_IS_NEG ≠ 0
  let printSign := negative || flags.forceSign
  let s ← f64strRound s (u32 precision)
  let totLen := max (f64strNumIntDigits s) 1 + 1 + max (f64strNumFracDigits s) 1 +
    if printSign then 1 else 0
  let widthPad := if flags.width && width > totLen then width - totLen else 0
  let int ← intText s
  let frac ← fracText s precision
  some (justify flags.leftJustified (if flags.zeroPad then chr 0 else 32) widthPad
    (signText printSign negative ++ int ++ 46 :: frac))

/-- The characters of a string. -/
def codes (s : String) : List Nat := s.toList.map Char.toNat

/-- `ftprint_float` -/
def ftprintFloat (value : BitVec 64) (precision width : Nat) (flags : FormatFlags) :
    Option (List Nat) := do
  let s ← f64ToStr F64String.blank value
  let negative := s.flags &&& F64_STRING_IS_NEG ≠ 0
  if s.flags &&& F64_STRING_IS_NAN ≠ 0 then some (codes "nan")
  else if s.flags &&& F64_STRING_IS_INF ≠ 0 ∧ ¬ negative then
    some (codes (if flags.forceSign then "+inf" else "inf"))
  else if s.flags &&& F64_STRING_IS_INF ≠ 0 then some (codes "-inf")
  else floatText s (if flags.precision then precision else PRINT_DEFAULT_FLOAT_PRECISION) width flags

end Nibble.Print
