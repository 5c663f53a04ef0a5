import Nibble.Lib.Decimal
import Nibble.Print.Format

/-!
# What a format says

A format string as ordinary characters and specifiers, each with the arguments it takes, the
text that a specifier stands for, and when `ftprintv` puts out that text.
-/

namespace Nibble.Print

open Lib (decimal)

/-! ## Specifiers -/

inductive Flag
  | minus | plus | hash | zero
  deriving DecidableEq, Repr

/-- A width: a number that does not start with the flag `0`, or an argument. -/
inductive Width
  | omitted
  | literal (first : Fin 10) (rest : List (Fin 10)) (nonzero : first ≠ 0)
  | star (w : BitVec 32)
  deriving DecidableEq, Repr

inductive Precision
  | omitted
  | literal (digits : List (Fin 10))
  | star (p : BitVec 32)
  deriving DecidableEq, Repr

inductive Length
  | omitted | hh | h | l | ll
  deriving DecidableEq, Repr

/-- The size of an argument. -/
def Length.bits : Length → Nat
  | .l | .ll => 64
  | _ => 32

/-- The bits of it that are printed. -/
def Length.kept : Length → Nat
  | .omitted => 32
  | .hh => 8
  | .h => 16
  | .l | .ll => 64

inductive Conv
  | d | i | u | x | X | o | b
  deriving DecidableEq, Repr

def Conv.base : Conv → Nat
  | .d | .i | .u => 10
  | .x | .X => 16
  | .o => 8
  | .b => 2

def Conv.signed : Conv → Bool
  | .d | .i => true
  | _ => false

def Conv.uppercase (c : Conv) : Bool := c = .X

/-- The argument that is printed. -/
inductive Operand (length : Length)
  | number (conv : Conv) (value : BitVec length.bits)
  | char (value : BitVec 32)
  | string (value : List UInt8)
  deriving DecidableEq, Repr

structure Specifier where
  flags : List Flag
  width : Width
  precision : Precision
  length : Length
  operand : Operand length
  deriving DecidableEq, Repr

/-- A format is made of these. -/
inductive Item
  | ordinary (c : Char) (h : c ≠ '%' ∧ c ≠ '\x00')
  | specifier (s : Specifier)
  deriving DecidableEq, Repr

/-! ## The format string and its arguments -/

def Flag.char : Flag → Char
  | .minus => '-'
  | .plus => '+'
  | .hash => '#'
  | .zero => '0'

def decChar (digit : Fin 10) : Char := Char.ofNat ('0'.toNat + digit)

def Width.text : Width → List Char
  | .omitted => []
  | .literal first rest _ => (first :: rest).map decChar
  | .star _ => ['*']

def Precision.text : Precision → List Char
  | .omitted => []
  | .literal digits => '.' :: digits.map decChar
  | .star _ => ['.', '*']

def Length.text : Length → List Char
  | .omitted => []
  | .hh => ['h', 'h']
  | .h => ['h']
  | .l => ['l']
  | .ll => ['l', 'l']

def Conv.char : Conv → Char
  | .d => 'd'
  | .i => 'i'
  | .u => 'u'
  | .x => 'x'
  | .X => 'X'
  | .o => 'o'
  | .b => 'b'

def Operand.conv {length : Length} : Operand length → Char
  | .number conv _ => conv.char
  | .char _ => 'c'
  | .string _ => 's'

def Specifier.text (s : Specifier) : List Char :=
  '%' :: s.flags.map Flag.char ++ s.width.text ++ s.precision.text ++ s.length.text ++
    [s.operand.conv]

def Item.text : Item → List Char
  | .ordinary c _ => [c]
  | .specifier s => s.text

def Width.args : Width → List Arg
  | .star w => [.int w]
  | _ => []

def Precision.args : Precision → List Arg
  | .star p => [.int p]
  | _ => []

/-- An argument of its length. -/
def Length.arg : (length : Length) → BitVec length.bits → Arg
  | .omitted, value | .hh, value | .h, value => .int value
  | .l, value | .ll, value => .long value

def Operand.arg {length : Length} : Operand length → Arg
  | .number _ value => length.arg value
  | .char value => .int value
  | .string value => .str (some value)

def Specifier.args (s : Specifier) : List Arg := s.width.args ++ s.precision.args ++ [s.operand.arg]

def Item.args : Item → List Arg
  | .ordinary _ _ => []
  | .specifier s => s.args

/-! ## The text of a specifier -/

/-- The number that a literal writes. -/
def number (digits : List (Fin 10)) : Nat := decimal (digits.map Fin.val)

/-- The width that is asked for. -/
def Width.asked : Width → Nat
  | .omitted => 0
  | .literal first rest _ => number (first :: rest)
  | .star w => w.toInt.toNat

/-- The precision that is asked for; the sign of an argument does not count. -/
def Precision.asked : Precision → Option Nat
  | .omitted => none
  | .literal digits => some (number digits)
  | .star p => some p.toInt.natAbs

/-- The value that an argument has for a conversion. -/
def Conv.value (conv : Conv) {length : Length} (value : BitVec length.bits) : Int :=
  let value := value.setWidth length.kept
  if conv.signed then value.toInt else value.toNat

/-- The digits of a number, the last one first: none for a zero with a precision of zero. -/
def numeral (base value : Nat) (precision : Option Nat) : List Nat :=
  if value = 0 then (if precision = some 0 then [] else [0]) else Nat.digits base value

/-- Base or sign. -/
def head (conv : Conv) (value : Int) (flags : List Flag) : List Nat :=
  if .hash ∈ flags ∧ conv.base ≠ 10 then baseText conv.base conv.uppercase
  else if value < 0 then codes "-"
  else if .plus ∈ flags then codes "+"
  else []

/-- A text with at least `width` characters: the rest are spaces behind it or in front of it, or
zeros behind its head. -/
def laid (left zero : Bool) (head body : List Nat) (width : Nat) : Field :=
  let pad := width - (head.length + body.length)
  if left then { core := head ++ body, right := spaces pad }
  else if zero then { core := head ++ zeros pad ++ body }
  else { left := spaces pad, core := head ++ body }

/-- The digits with zeros in front of them up to the precision. -/
def body (conv : Conv) (value : Nat) (precision : Option Nat) : List Nat :=
  let digits := numeral conv.base value precision
  zeros (precision.getD 0 - digits.length) ++ (digits.map (digitCode conv.uppercase)).reverse

/-- A string cut at the precision. -/
def cut (value : List UInt8) (precision : Option Nat) : List UInt8 :=
  match precision with
  | some p => (cstr value).take p
  | none => cstr value

def Specifier.field (s : Specifier) : Field :=
  let left := decide (.minus ∈ s.flags)
  let zero := decide (.zero ∈ s.flags)
  match s.operand with
  | .number conv value =>
    let value := conv.value value
    laid left zero (head conv value s.flags) (body conv value.natAbs s.precision.asked) s.width.asked
  | .char value => laid left false [] [(value.setWidth 8).toNat] s.width.asked
  | .string value => laid left false [] ((cut value s.precision.asked).map UInt8.toNat) s.width.asked

/-- What is to be put out for an item. -/
def Item.put : Item → Put
  | .ordinary c _ => .copied c
  | .specifier s => .converted s.field

/-! ## When it is put out -/

/-- The width that is read from a literal, a signed number of 64 bits that is cut to 32. -/
def widthRead (n : Nat) : Nat := if n % 2 ^ 64 < 2 ^ 63 then n % 2 ^ 32 else 0

/-- The precision that is read from a literal, the size of a signed number of 64 bits. -/
def precisionRead (n : Nat) : Nat := if n % 2 ^ 64 < 2 ^ 63 then n % 2 ^ 64 else 2 ^ 64 - n % 2 ^ 64

def Width.read : Width → Nat
  | .literal first rest _ => widthRead (number (first :: rest))
  | _ => 0

def Precision.read : Precision → Option Nat
  | .omitted => none
  | .literal digits => some (precisionRead (number digits))
  | .star p => some (if p = BitVec.intMin 32 then 2 ^ 64 - 2 ^ 31 else p.toInt.natAbs)

/-- How many digits a number has with the zeros up to its precision. -/
def digitCount (base value : Nat) (precision : Option Nat) : Nat :=
  max (precision.getD 0) (numeral base value precision).length

/-- A number, with the width and the precision as they are read: a zero without digits gets no
width, base or sign; no other number has more than 32 digits; and the zeros and spaces come to
the same as with the width and the precision that are asked for. -/
def NumberKept (left zero : Bool) (base value headLength : Nat) (asked read : Option Nat)
    (width widthRead : Nat) : Prop :=
  let count := digitCount base value asked
  let countRead := digitCount base value read
  if value = 0 ∧ read = some 0 then headLength = 0 ∧ count = 0 ∧ width = 0
  else value < base ^ 32 ∧
    if zero ∧ ¬ left then
      max widthRead (headLength + countRead) = max width (headLength + count)
    else countRead = count ∧ max widthRead (headLength + count) = max width (headLength + count)

instance (left zero : Bool) (base value headLength : Nat) (asked read : Option Nat)
    (width widthRead : Nat) :
    Decidable (NumberKept left zero base value headLength asked read width widthRead) := by
  unfold NumberKept
  infer_instance

/-- A string, whose length is counted with 32 bits for its padding. -/
def StringKept (value : List UInt8) (asked read : Option Nat) (width widthRead : Nat) : Prop :=
  (cut value read).length = (cut value asked).length ∧
    widthRead - (cut value asked).length % 2 ^ 32 = width - (cut value asked).length

/-- The width is not an argument, and the width and the precision are read well enough. -/
def Specifier.Kept (s : Specifier) : Prop :=
  (∀ w, s.width ≠ .star w) ∧
    match s.operand with
    | .number conv value =>
      let value := conv.value value
      NumberKept (.minus ∈ s.flags) (.zero ∈ s.flags) conv.base value.natAbs
        (head conv value s.flags).length s.precision.asked s.precision.read
        s.width.asked s.width.read
    | .char _ => s.width.read - 1 = s.width.asked - 1
    | .string value => StringKept value s.precision.asked s.precision.read s.width.asked s.width.read

end Nibble.Print
