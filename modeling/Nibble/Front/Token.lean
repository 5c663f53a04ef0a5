import Mathlib.Data.List.Basic

/-!
# Characters and tokens

The character tables of `cstring.c` and the token types of `lexer/module.h`. A C character is
a byte; it is written as the `Char` with that code, so that a character constant of the source
stays one here.
-/

namespace Nibble.Front

/-! ### The tables of `cstring.c` -/

/-- `is_whitespace`. -/
def isWhitespace (c : Char) : Bool :=
  c = '\t' || c = '\n' || c = '\x0b' || c = '\r' || c = ' '

/-- `is_dec_digit`. -/
def isDecDigit (c : Char) : Bool := '0' ≤ c && c ≤ '9'

/-- `is_alphanum`: letters, digits and the underscore. -/
def isAlphanum (c : Char) : Bool :=
  isDecDigit c || ('A' ≤ c && c ≤ 'Z') || c = '_' || ('a' ≤ c && c ≤ 'z')

/-- `char_to_biased_digit`: the digit's value plus one, zero where `c` is no digit. -/
def biasedDigit (c : Char) : Nat :=
  if isDecDigit c then c.toNat - '0'.toNat + 1
  else if 'a' ≤ c && c ≤ 'f' then c.toNat - 'a'.toNat + 11
  else if 'A' ≤ c && c ≤ 'F' then c.toNat - 'A'.toNat + 11
  else 0

/-- `escaped_to_char`: what a one-character escape stands for, NUL where there is none. -/
def unescapeChar (c : Char) : Char :=
  match c with
  | '0' => '\x00'
  | 'a' => '\x07'
  | 'b' => '\x08'
  | 'f' => '\x0c'
  | 'n' => '\n'
  | 'r' => '\r'
  | 't' => '\t'
  | 'v' => '\x0b'
  | '\\' => '\\'
  | '\'' => '\''
  | '"' => '"'
  | '?' => '?'
  | _ => '\x00'

/-- A C string: bytes among which there is no NUL. -/
structure CString where
  chars : List Char
  bytes : ∀ c ∈ chars, 0 < c.toNat ∧ c.toNat < 256

theorem bytes_of_all {cs : List Char}
    (h : (cs.all fun c => decide (0 < c.toNat ∧ c.toNat < 256)) = true) :
    ∀ c ∈ cs, 0 < c.toNat ∧ c.toNat < 256 := by
  intro c hc
  exact of_decide_eq_true (List.all_eq_true.mp h c hc)

/-- The characters of a string with the NUL that ends it. -/
def CString.text (s : CString) : List Char := s.chars ++ ['\x00']

/-! ### Tokens -/

inductive TokenKind where
  | invalid | eof | lparen | rparen | lbrace | rbrace | lbracket | rbracket
  | semicolon | colon | dblColon | comma | dot | ellipsis | uninit | arrow | cast | bitCast | at
  | str | ident | kw | int | float
  | asterisk | div | mod | divmod | rshift | lshift | and | logicAnd | logicOr | not | neg
  | question
  | eq | noteq | gt | gteq | lt | lteq
  | plus | minus | or | caret
  | assign | addAssign | subAssign | mulAssign | divAssign | modAssign | andAssign | orAssign
  | xorAssign | rshiftAssign | lshiftAssign
  deriving DecidableEq, Repr

inductive TokenIntRep where
  | bin | oct | dec | hex | char
  deriving DecidableEq, Repr

inductive TokenIntSuffix where
  | none | u | s
  deriving DecidableEq, Repr

structure TokenInt where
  value : Nat
  rep : TokenIntRep
  suffix : TokenIntSuffix
  deriving DecidableEq, Repr

inductive FloatKind where
  | f64 | f32
  deriving DecidableEq, Repr

/-- A floating-point literal: its kind and the bits of its value. -/
structure TokenFloat where
  kind : FloatKind
  bits : Nat
  deriving DecidableEq, Repr

inductive IdentifierKind where
  | name | keyword | intrinsic
  deriving DecidableEq, Repr

/-- The union of a token: what its kind carries beside the range. -/
inductive TokenValue where
  | none
  | asInt (tint : TokenInt)
  | asFloat (tfloat : TokenFloat)
  | asIdent (ident : List Char)
  | asKw (ident : List Char)
  | asStr (strLit : List Char)
  deriving DecidableEq, Repr

structure ProgRange where
  start : Nat
  stop : Nat
  deriving DecidableEq, Repr

structure Token where
  kind : TokenKind
  range : ProgRange
  value : TokenValue
  deriving DecidableEq, Repr

/-- What a `%` of an error's format stands for. -/
inductive FormatArg where
  | char (c : Char)
  | uint (n : Nat)
  | text (s : List Char)
  deriving DecidableEq, Repr

/-- An error of the lexer: its range and the format and arguments of its text. -/
structure LexError where
  range : ProgRange
  format : String
  args : List FormatArg
  deriving DecidableEq, Repr

end Nibble.Front
