import Mathlib.Data.BitVec
import Nibble.Lib.Run

/-!
# f64_to_str

A double is its 64 bits. The digits are written into an array of 1024 characters, doubled or
halved in place; a read or a write outside the array is a fault, as is an assertion that fails.
-/

namespace Nibble.Print

def F64_SIGN_MASK : BitVec 64 := 0x8000000000000000
def F64_EXP_MASK : BitVec 64 := 0x7FF0000000000000
def F64_EXP_POS : Nat := 52
def F64_FRAC_MASK : BitVec 64 := 0x000FFFFFFFFFFFFF

def F64_STRING_IS_NEG : BitVec 32 := 1
def F64_STRING_IS_INF : BitVec 32 := 2
def F64_STRING_IS_NAN : BitVec 32 := 4

def PRINT_MAX_NUM_DIGITS : Nat := 32

/-- `char digits[1024]`, each character by its code. -/
structure Digits where
  chars : List Nat
  cap : chars.length = 1024

namespace Digits

def load (b : Digits) (i : Nat) : Option Nat := b.chars[i]?

def store (b : Digits) (i c : Nat) : Option Digits :=
  if i < 1024 then some ⟨b.chars.set i c, by rw [List.length_set, b.cap]⟩ else none

end Digits

structure F64String where
  digits : Digits
  numDigits : Nat
  decimalPoint : Int
  flags : BitVec 32

/-- A string before anything is written. -/
def F64String.blank : F64String := ⟨⟨List.replicate 1024 0, List.length_replicate⟩, 0, 0, 0⟩

/-- `CustomFP`: `f * 2 ^ e` -/
structure CustomFP where
  f : BitVec 64
  e : Int

/-- The character of a digit. -/
def chr (d : Nat) : Nat := 48 + d

/-- The number of a digit's character. -/
def num (c : Nat) : Nat := c - 48

/-- A shift of the significand. -/
def CustomFP.shift (k : Nat) (x : CustomFP) : Option CustomFP := some ⟨x.f <<< k, x.e - k⟩

/-- `custom_fp_norm` -/
def customFpNorm (x : CustomFP) : Option CustomFP := do
  let lastBitMask : BitVec 64 := 0x8000000000000000
  let lastByteMask : BitVec 64 := 0xFF00000000000000
  let x ← Lib.runSteps (CustomFP.shift 8) (fun x => x.f &&& lastByteMask ≠ 0) 8 x
  Lib.runSteps (CustomFP.shift 1) (fun x => x.f &&& lastBitMask ≠ 0) 8 x

/-- `custom_fp_from_f64` -/
def customFpFromF64 (bits : BitVec 64) : CustomFP :=
  let expBias : Int := 1075
  let implicitOne : BitVec 64 := 0x0010000000000000
  if bits &&& F64_EXP_MASK = 0 then ⟨bits &&& F64_FRAC_MASK, 1 - expBias⟩
  else
    let unbiasedExp : Int := ((bits &&& F64_EXP_MASK) >>> F64_EXP_POS).toNat
    ⟨implicitOne + (bits &&& F64_FRAC_MASK), unbiasedExp - expBias⟩

/-- The digits of `value` from the last one on, after those in `tmpBuf`. -/
def itoaLoop : Nat → List Nat → Nat → Option (List Nat)
  | 0, _, _ => none
  | fuel + 1, tmpBuf, value =>
    if tmpBuf.length < PRINT_MAX_NUM_DIGITS then
      let tmpBuf := tmpBuf ++ [chr (value % 10)]
      if value / 10 > 0 then itoaLoop fuel tmpBuf (value / 10) else some tmpBuf
    else none

/-- Characters are written from `numDigits` on. -/
def copyDigits : List Nat → Digits → Nat → Option (Digits × Nat)
  | [], digits, numDigits => some (digits, numDigits)
  | c :: cs, digits, numDigits => do
    let digits ← digits.store numDigits c
    copyDigits cs digits (numDigits + 1)

/-- The significand as a string. -/
def significandToStr (digits : Digits) (f : BitVec 64) : Option (Digits × Nat) := do
  let tmpBuf ← itoaLoop (PRINT_MAX_NUM_DIGITS + 1) [] f.toNat
  copyDigits tmpBuf.reverse digits 0

/-- The digits below `i` are doubled, from the right. -/
def doubleLoop (addDigit : Nat) : Nat → Nat → Digits → Option Digits
  | 0, _, digits => some digits
  | i + 1, carry, digits => do
    let c ← digits.load i
    let x := carry + 2 * num c
    let digits ← digits.store (i + addDigit) (chr (x % 10))
    doubleLoop addDigit i (x / 10) digits

/-- One round of the multiplication. -/
def doubleOnce (digits : Digits) (numDigits : Nat) : Option (Digits × Nat) := do
  let first ← digits.load 0
  let addDigit := first ≥ chr 5
  let digits ← doubleLoop (if addDigit then 1 else 0) numDigits 0 digits
  if addDigit then
    let digits ← digits.store 0 (chr 1)
    some (digits, numDigits + 1)
  else some (digits, numDigits)

def doubleTimes : Nat → Digits → Nat → Option (Digits × Nat)
  | 0, digits, numDigits => some (digits, numDigits)
  | e + 1, digits, numDigits => do
    let (digits, numDigits) ← doubleOnce digits numDigits
    doubleTimes e digits numDigits

/-- The `left` digits from `i` on are halved, from the left. -/
def halveLoop (readDelta : Nat) : Nat → Nat → Nat → Digits → Option Digits
  | 0, _, _, digits => some digits
  | left + 1, i, prevRem, digits => do
    let c ← digits.load (i + readDelta)
    let x := prevRem * 10 + num c
    let digits ← digits.store i (chr (x / 2))
    halveLoop readDelta left (i + 1) (x % 2) digits

/-- One round of the division. -/
def halveOnce (digits : Digits) (numDigits : Nat) (decimalPoint : Int) :
    Option (Digits × Nat × Int) := do
  let last ← digits.load (numDigits - 1)
  let (digits, numDigits) ←
    if last % 2 ≠ 0 then (digits.store numDigits (chr 0)).map fun digits => (digits, numDigits + 1)
    else some (digits, numDigits)
  let first ← digits.load 0
  if first < chr 2 then
    let digits ← halveLoop 1 (numDigits - 1) 0 (num first) digits
    some (digits, numDigits - 1, decimalPoint - 1)
  else
    let digits ← halveLoop 0 numDigits 0 0 digits
    some (digits, numDigits, decimalPoint)

def halveTimes : Nat → Digits → Nat → Int → Option (Digits × Nat × Int)
  | 0, digits, numDigits, decimalPoint => some (digits, numDigits, decimalPoint)
  | e + 1, digits, numDigits, decimalPoint => do
    let (digits, numDigits, decimalPoint) ← halveOnce digits numDigits decimalPoint
    halveTimes e digits numDigits decimalPoint

/-- The digits of `f * 2 ^ e`, their number and the place of the point. -/
def customFpToStr (digits : Digits) (fp : CustomFP) : Option (Digits × Nat × Int) := do
  let (digits, numDigits) ← significandToStr digits fp.f
  let (digits, numDigits) ← doubleTimes fp.e.toNat digits numDigits
  halveTimes (-fp.e).toNat digits numDigits numDigits

/-- `f64_to_str` -/
def f64ToStr (dst : F64String) (f : BitVec 64) : Option F64String :=
  let isNeg := f >>> 63 ≠ 0
  let bits := if isNeg then f ^^^ F64_SIGN_MASK else f
  let flags := if isNeg then F64_STRING_IS_NEG else 0
  if bits = 0 then do
    let digits ← dst.digits.store 0 (chr 0)
    some ⟨digits, 1, 1, flags⟩
  else
    let biasedExp := (bits &&& F64_EXP_MASK) >>> F64_EXP_POS
    let fraction := bits &&& F64_FRAC_MASK
    if biasedExp = 0x7FF then
      some ⟨dst.digits, 0, 0, flags ||| if fraction ≠ 0 then F64_STRING_IS_NAN else F64_STRING_IS_INF⟩
    else do
      let fp ← customFpNorm (customFpFromF64 bits)
      let (digits, numDigits, decimalPoint) ← customFpToStr dst.digits fp
      let digits ← digits.store numDigits 0
      some ⟨digits, numDigits, decimalPoint, flags⟩

end Nibble.Print
