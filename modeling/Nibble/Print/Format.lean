import Nibble.Front.Token
import Nibble.Print.Text

/-!
# Formatted printing

`ftprintv` of `print.c`. A format is the list of the characters before its NUL, the arguments
are what was passed for the `...`, and a run is what is put out, step by step of the loop: a
character of the format, or an argument as a text between its padding. `none` stands for an
argument of another type, one that is missing, or a read past the NUL.
-/

namespace Nibble.Print

open Front (isDecDigit)

/-- An argument, by its type after the default promotions. -/
inductive Arg
  | int (value : BitVec 32)
  | long (value : BitVec 64)
  | double (value : BitVec 64)
  | str (value : Option (List UInt8))
  | intPtr
  deriving DecidableEq, Repr

/-- A converted argument between its padding. -/
structure Field where
  left : List Nat := []
  core : List Nat
  right : List Nat := []
  deriving DecidableEq, Repr

/-- What one step of the loop puts out. -/
inductive Put
  /-- a character of the format -/
  | copied (c : Char)
  | converted (field : Field)
  /-- `%n` puts out nothing -/
  | stored
  | terminator
  deriving DecidableEq, Repr

/-! ## Integers -/

def spaces (n : Nat) : List Nat := List.replicate n 32

def zeros (n : Nat) : List Nat := List.replicate n 48

/-- The character of a digit. -/
def digitCode (uppercase : Bool) (digit : Nat) : Nat :=
  if digit ≥ 10 then (if uppercase then 65 else 97) - 10 + digit else 48 + digit

/-- The digits that fit into a buffer of `room` characters, the last one first. -/
def bufferDigits (base : Nat) : Nat → Nat → List Nat
  | 0, _ => []
  | room + 1, value =>
    value % base :: if value / base > 0 then bufferDigits base room (value / base) else []

/-- `0b`, `0x`, `0X` or `0` -/
def baseText (base : Nat) (uppercase : Bool) : List Nat :=
  if base = 2 then [48, 98] else if base = 16 then [48, if uppercase then 88 else 120] else [48]

/-- What is put before the digits. -/
def headText (base : Nat) (negative : Bool) (flags : FormatFlags) : List Nat :=
  if flags.hash && (base = 2 || base = 8 || base = 16) then baseText base flags.uppercase
  else signText (negative || flags.forceSign) negative

/-- `ftprint_int_` -/
def ftprintInt_ (value base : Nat) (negative : Bool) (precision width : Nat)
    (flags : FormatFlags) : Field :=
  if flags.precision ∧ precision = 0 ∧ value = 0 then { core := [] }
  else
    let digits := ((bufferDigits base PRINT_MAX_NUM_DIGITS value).map
      (digitCode flags.uppercase)).reverse
    let head := headText base negative flags
    let zeroPad := if flags.precision ∧ precision > digits.length then precision - digits.length
      else 0
    let totLen := (digits.length + zeroPad + head.length) % 2 ^ 64
    let pad := if flags.width ∧ width > totLen then width - totLen else 0
    if flags.leftJustified then
      { core := head ++ zeros zeroPad ++ digits, right := spaces pad }
    else if flags.zeroPad then { core := head ++ zeros (zeroPad + pad) ++ digits }
    else { left := spaces pad, core := head ++ zeros zeroPad ++ digits }

/-- `ftprint_int` -/
def ftprintInt (value : BitVec 64) (base precision width : Nat) (flags : FormatFlags) : Field :=
  let negative := value.slt 0
  let uvalue := if negative then 0 - value else value
  ftprintInt_ uvalue.toNat base negative precision width flags

/-- `print_uint` -/
def printUint (value : BitVec 64) (base precision width : Nat) (flags : FormatFlags) : Field :=
  ftprintInt_ value.toNat base false precision width flags

/-! ## Specifiers -/

/-- What is known of a specifier while it is read, and what is left of the format and of the
arguments. -/
structure Conversion where
  format : List Char
  args : List Arg
  flags : FormatFlags := {}
  width : Nat := 0
  precision : Nat := 0
  deriving DecidableEq, Repr

/-- `va_arg(args, int)` -/
def vaInt : List Arg → Option (BitVec 32 × List Arg)
  | .int value :: args => some (value, args)
  | _ => none

/-- `va_arg(args, long)` -/
def vaLong : List Arg → Option (BitVec 64 × List Arg)
  | .long value :: args => some (value, args)
  | _ => none

/-- The flags of a specifier, and the format after them. -/
def parseFlags : List Char → FormatFlags → FormatFlags × List Char
  | '-' :: format, flags => parseFlags format { flags with leftJustified := true }
  | '+' :: format, flags => parseFlags format { flags with forceSign := true }
  | ' ' :: format, flags => parseFlags format { flags with spaceSign := true }
  | '#' :: format, flags => parseFlags format { flags with hash := true }
  | '0' :: format, flags => parseFlags format { flags with zeroPad := true }
  | format, flags => (flags, format)

/-- The loop of `ascii_to_i64`, and the text after the digits. -/
def digitsLoop (result : BitVec 64) : List Char → BitVec 64 × List Char
  | c :: str =>
    if isDecDigit c then
      digitsLoop (10 * result + (BitVec.ofNat 64 c.toNat - BitVec.ofNat 64 '0'.toNat)) str
    else (result, c :: str)
  | [] => (result, [])

/-- `ascii_to_i64`, with the text after the number in place of the number's length. -/
def asciiToI64 : List Char → BitVec 64 × List Char
  | '-' :: str => (0 - (digitsLoop 0 str).1, (digitsLoop 0 str).2)
  | str => digitsLoop 0 str

/-- The width that a number stands for. -/
def toWidth (w : Int) : Nat := if w < 0 then 0 else u32 w

/-- The width. A `*` takes an argument and stays in the format. -/
def parseWidth (v : Conversion) : Option Conversion :=
  match v.format with
  | [] => some v
  | c :: _ =>
    if isDecDigit c then
      some { v with
        format := (asciiToI64 v.format).2, flags := { v.flags with width := true },
        width := toWidth (asciiToI64 v.format).1.toInt }
    else if c = '*' then do
      let (w, args) ← vaInt v.args
      some { v with args, flags := { v.flags with width := true }, width := toWidth w.toInt }
    else some v

/-- The precision that a number stands for. -/
def toPrecision {n : Nat} (p : BitVec n) : Nat :=
  ((if p.slt 0 then 0 - p else p).signExtend 64).toNat

/-- The precision. -/
def parsePrecision (v : Conversion) : Option Conversion :=
  match v.format with
  | '.' :: format =>
    let v := { v with format, flags := { v.flags with precision := true } }
    match format with
    | [] => some v
    | c :: rest =>
      if isDecDigit c then
        some { v with
          format := (asciiToI64 format).2, precision := toPrecision (asciiToI64 format).1 }
      else if c = '*' then do
        let (p, args) ← vaInt v.args
        some { v with format := rest, args, precision := toPrecision p }
      else some v
  | _ => some v

/-- The length. -/
def parseLength (v : Conversion) : Conversion :=
  match v.format with
  | 'l' :: 'l' :: format => { v with format, flags := { v.flags with longLong := true } }
  | 'l' :: format => { v with format, flags := { v.flags with long := true } }
  | 'h' :: 'h' :: format => { v with format, flags := { v.flags with char := true } }
  | 'h' :: format => { v with format, flags := { v.flags with short := true } }
  | _ => v

/-- A signed argument of the length that the flags give. -/
def vaSigned (flags : FormatFlags) (args : List Arg) : Option (BitVec 64 × List Arg) :=
  if flags.longLong || flags.long then vaLong args
  else do
    let (value, args) ← vaInt args
    if flags.short then some ((value.setWidth 16).signExtend 64, args)
    else if flags.char then some ((value.setWidth 8).signExtend 64, args)
    else some (value.signExtend 64, args)

/-- An unsigned one. -/
def vaUnsigned (flags : FormatFlags) (args : List Arg) : Option (BitVec 64 × List Arg) :=
  if flags.longLong || flags.long then vaLong args
  else do
    let (value, args) ← vaInt args
    if flags.short then some ((value.setWidth 16).setWidth 64, args)
    else if flags.char then some ((value.setWidth 8).setWidth 64, args)
    else some (value.setWidth 64, args)

/-- The base of a number's conversion. -/
def baseOf (c : Char) : Nat :=
  if c = 'x' ∨ c = 'X' then 16 else if c = 'o' then 8 else if c = 'b' then 2 else 10

/-- A text with the spaces that `str_len` counts up to the width. -/
def padded (flags : FormatFlags) (strLen width : Nat) (core : List Nat) : Field :=
  let pad := if flags.width then width - strLen else 0
  if flags.leftJustified then { core, right := spaces pad } else { left := spaces pad, core }

/-- `cstr_len` for a string in memory: its characters before the first NUL. -/
def cstr (value : List UInt8) : List UInt8 := value.takeWhile (· ≠ 0)

def nullStr : List Nat := codes "(null)"

/-- The case `'s'` -/
def ftprintStr (value : Option (List UInt8)) (precision width : Nat) (flags : FormatFlags) : Field :=
  match value with
  | none =>
    { core := if nullStr.length > precision ∧ flags.precision then [] else nullStr }
  | some value =>
    let core := if flags.precision then (cstr value).take precision else cstr value
    padded flags (core.length % 2 ^ 32) width (core.map UInt8.toNat)

/-- The argument is taken and converted; another character is put out as it is. -/
def evaluate (v : Conversion) : Option (Put × List Char × List Arg) :=
  match v.format with
  | [] => none
  | c :: format =>
    if c ∈ ['d', 'i', 'u', 'x', 'X', 'o', 'b'] then do
      let flags := if c = 'X' then { v.flags with uppercase := true } else v.flags
      if c = 'd' ∨ c = 'i' then
        let (value, args) ← vaSigned flags v.args
        some (.converted (ftprintInt value (baseOf c) v.precision v.width flags), format, args)
      else
        let (value, args) ← vaUnsigned flags v.args
        some (.converted (printUint value (baseOf c) v.precision v.width flags), format, args)
    else if c = 'f' ∨ c = 'F' then
      match v.args with
      | .double value :: args => do
        let flags := if c = 'F' then { v.flags with uppercase := true } else v.flags
        let text ← ftprintFloat value v.precision v.width flags
        some (.converted { core := text }, format, args)
      | _ => none
    else if c = 'c' then do
      let (value, args) ← vaInt v.args
      some (.converted (padded v.flags 1 v.width [(value.setWidth 8).toNat]), format, args)
    else if c = 's' then
      match v.args with
      | .str value :: args =>
        some (.converted (ftprintStr value v.precision v.width v.flags), format, args)
      | _ => none
    else if c = 'n' then
      match v.args with
      | .intPtr :: args => some (.stored, format, args)
      | _ => none
    else some (.copied c, format, v.args)

/-- What follows a `%` in the format. -/
def specifier (format : List Char) (args : List Arg) : Option (Put × List Char × List Arg) := do
  let (flags, format) := parseFlags format {}
  let v ← parseWidth { format, args, flags }
  let v ← parsePrecision v
  evaluate (parseLength v)

/-- The loop of `ftprintv`. -/
def ftprintvLoop : Nat → List Char → List Arg → Option (List Put)
  | _, [], _ => some [.terminator]
  | 0, _ :: _, _ => none
  | left + 1, '%' :: format, args => do
    let (put, format, args) ← specifier format args
    let rest ← ftprintvLoop left format args
    some (put :: rest)
  | left + 1, c :: format, args => do
    let rest ← ftprintvLoop left format args
    some (.copied c :: rest)

/-- `ftprintv`: each round takes a character of the format at least. -/
def ftprintv (format : List Char) (args : List Arg) : Option (List Put) :=
  ftprintvLoop format.length format args

end Nibble.Print
