import Nibble.Front.Token
import Mathlib.Algebra.Group.Nat.Defs
import Mathlib.Data.Option.Basic

/-!
# The lexer

`lexer/module.c`. The cursor `at` is the text from the pointer to the terminating NUL, which is
its last character; `at++` is its tail. A read beyond the NUL is a read of the empty list, and a
function that makes one, or whose assertion fails, returns `none`.
-/

namespace Nibble.Front

/-- The fields of a `Lexer` that no call changes. The maps and the numbers of the C library are
functions: what kind of identifier a name is, and the bits of a floating-point text, `none` for
`HUGE_VAL`. -/
structure Lexer where
  str : CString
  start : Nat
  identKind : List Char → IdentifierKind
  strtof : List Char → Option Nat
  strtod : List Char → Option Nat

/-- Where a lexer writes: the error stream and the array of line positions, both of which may
be a null pointer. -/
structure Sinks where
  errors : Option (List LexError)
  linePos : Option (List Nat)
  deriving DecidableEq, Repr

/-- Arithmetic of `ProgPos`, a 32-bit number. -/
def progPos (n : Nat) : Nat := n % 2 ^ 32

def Lexer.calcPos (lx : Lexer) (ptr : List Char) : Nat :=
  progPos (lx.str.text.length - ptr.length + lx.start)

/-- The range from `start` to after the character at the cursor. -/
def Lexer.rangeFrom (lx : Lexer) (start cur : List Char) : ProgRange :=
  ⟨lx.calcPos start, progPos (lx.calcPos cur + 1)⟩

def Sinks.onError (out : Sinks) (range : ProgRange) (format : String) (args : List FormatArg) :
    Sinks :=
  { out with errors := out.errors.map (· ++ [⟨range, format, args⟩]) }

def Lexer.onLine (lx : Lexer) (cur : List Char) (out : Sinks) : Sinks :=
  { out with linePos := out.linePos.map (· ++ [progPos (lx.calcPos cur + 1)]) }

/-! ### Skipping -/

/-- `while (p(lexer->at[0])) lexer->at++`. -/
def skipWhile (p : Char → Bool) : List Char → Option (List Char)
  | [] => none
  | c :: cs => if p c then skipWhile p cs else some (c :: cs)

def skipWordEnd (cur : List Char) : Option (List Char) :=
  skipWhile (fun c => c ≠ '\x00' && isAlphanum c) cur

def skipDecDigits (cur : List Char) : Option (List Char) := skipWhile isDecDigit cur

def skipChar (c : Char) (cur : List Char) : Option (List Char) := do
  let d ← cur.head?
  if d = c then some cur.tail else some cur

def skipLineComment (cur : List Char) : Option (List Char) :=
  skipWhile (fun c => c ≠ '\x00' && c ≠ '\n' && c ≠ '\r') cur

def skipSpaces (lx : Lexer) : List Char → Sinks → Option (List Char × Sinks)
  | [], _ => none
  | c :: cs, out =>
    if isWhitespace c then
      skipSpaces lx cs (if c = '\n' then lx.onLine (c :: cs) out else out)
    else some (c :: cs, out)

/-- The loop of `skip_c_comment`, with the depth and the start of the innermost comment. -/
def skipCCommentLoop (lx : Lexer) :
    List Char → Nat → Nat → Sinks → Option (Nat × Nat × List Char × Sinks)
  | [], _, _, _ => none
  | [c], level, start, out =>
    if c = '\x00' || level = 0 then some (level, start, [c], out) else none
  | c :: d :: cs, level, start, out =>
    if c = '\x00' || level = 0 then some (level, start, c :: d :: cs, out)
    else if c = '/' && d = '*' then
      skipCCommentLoop lx cs (level + 1) (lx.calcPos (c :: d :: cs)) out
    else if c = '*' && d = '/' then skipCCommentLoop lx cs (level - 1) start out
    else
      skipCCommentLoop lx (d :: cs) level start
        (if c = '\n' then lx.onLine (c :: d :: cs) out else out)

def skipCComment (lx : Lexer) (cur : List Char) (out : Sinks) : Option (List Char × Sinks) := do
  guard (cur.head? = some '/' ∧ cur[1]? = some '*')
  let (level, start, cur', out) ← skipCCommentLoop lx (cur.drop 2) 1 (lx.calcPos cur) out
  if level > 0 then
    some (cur', out.onError ⟨start, progPos (start + 2)⟩
      "Missing closing '*/' for c-style comment." [])
  else some (cur', out)

/-! ### Integers -/

inductive ScanDigitsErr where
  | none | exceedBase | overflow
  deriving DecidableEq, Repr

/-- `scan_digits`; `value` is what the digits so far make. -/
def scanDigits (base max : Nat) : List Char → Nat → Option (ScanDigitsErr × Nat × List Char)
  | [], _ => none
  | c :: cs, value =>
    if biasedDigit c = 0 then some (.none, value, c :: cs)
    else if biasedDigit c - 1 ≥ base then some (.exceedBase, 0, c :: cs)
    else if value > (max - (biasedDigit c - 1)) / base then some (.overflow, 0, c :: cs)
    else
      match cs with
      | [] => none
      | d :: ds =>
        -- A `_` may separate digits.
        if d = '_' then scanDigits base max ds (value * base + (biasedDigit c - 1))
        else scanDigits base max (d :: ds) (value * base + (biasedDigit c - 1))

def scanBase (cur : List Char) : Option (TokenIntRep × Nat × List Char) := do
  let c ← cur.head?
  if c = '0' then
    let d ← cur.tail.head?
    if d = 'x' || d = 'X' then some (.hex, 16, cur.tail.tail)
    else if d = 'b' || d = 'B' then some (.bin, 2, cur.tail.tail)
    else if isDecDigit d then some (.oct, 8, cur.tail)
    else some (.dec, 10, cur.tail)
  else some (.dec, 10, cur)

def scanSuffix (cur : List Char) : Option (TokenIntSuffix × List Char) := do
  let c ← cur.head?
  if c = 'u' then some (.u, cur.tail)
  else if c = 's' then some (.s, cur.tail)
  else some (.none, cur)

def scanInt (lx : Lexer) (start : List Char) (out : Sinks) :
    Option (TokenInt × List Char × Sinks) := do
  let c ← start.head?
  guard (isDecDigit c)
  let (rep, base, cur) ← scanBase start
  let c ← cur.head?
  if biasedDigit c = 0 ∧ base ≠ 10 then
    let cur' ← skipWordEnd cur
    some (⟨0, rep, .none⟩, cur', out.onError (lx.rangeFrom start cur)
      "Invalid integer literal character '%c' after base specifier" [.char c])
  else
    let (err, value, cur) ← scanDigits base (2 ^ 64 - 1) cur 0
    let c ← cur.head?
    match err with
    | .exceedBase =>
      let cur' ← skipWordEnd cur
      some (⟨0, rep, .none⟩, cur', out.onError (lx.rangeFrom start cur)
        "Integer literal digit (%c) is outside of base (%u) range" [.char c, .uint base])
    | .overflow =>
      let cur' ← skipWordEnd cur
      some (⟨0, rep, .none⟩, cur', out.onError (lx.rangeFrom start cur)
        "Integer literal %.*s is too large for its type"
        [.text (start.take (start.length - cur.length))])
    | .none =>
      let (suffix, cur) ← scanSuffix cur
      let c ← cur.head?
      if isAlphanum c then
        let cur' ← skipWordEnd cur
        some (⟨value, rep, suffix⟩, cur', out.onError (lx.rangeFrom start cur)
          "Invalid integer literal character '%c' after suffix" [.char c])
      else some (⟨value, rep, suffix⟩, cur, out)

/-! ### Floating-point numbers -/

/-- The text starts with a digit. -/
def startsWithDigit (cur : List Char) : Bool := cur.head?.any isDecDigit

/-- The end of an exponent, if a digit follows its letter and sign. -/
def exponentEnd (cur : List Char) : List Char :=
  let power := if cur.tail.head? = some '-' ∨ cur.tail.head? = some '+' then cur.tail.tail
    else cur.tail
  if (cur.head? = some 'e' ∨ cur.head? = some 'E') ∧ startsWithDigit power then
    power.dropWhile isDecDigit
  else cur

/-- Where `strtod` and `strtof` stop in a decimal number: digits with at most one point, at
least one digit among them, and an exponent. -/
def strtodEnd (start : List Char) : List Char :=
  if startsWithDigit start ∨ (start.head? = some '.' ∧ startsWithDigit start.tail) then
    let cur := start.dropWhile isDecDigit
    exponentEnd (if cur.head? = some '.' then cur.tail.dropWhile isDecDigit else cur)
  else start

/-- The exponent of a number: the character that stands where a digit has to, if there is one,
and the cursor. -/
def scanExponent (cur : List Char) : Option (Option Char × List Char) := do
  let c ← cur.head?
  if c = 'e' || c = 'E' then
    let s ← cur.tail.head?
    let cur := if s = '-' || s = '+' then cur.tail.tail else cur.tail
    let d ← cur.head?
    if isDecDigit d then
      let cur' ← skipDecDigits cur
      some (none, cur')
    else some (some d, cur)
  else some (none, cur)

/-- The value of the literal that begins at `start`, once its characters are read. -/
def floatValue (lx : Lexer) (start cur : List Char) (out : Sinks) :
    Option (TokenFloat × List Char × Sinks) := do
  let c ← cur.head?
  if c = 'f' || c = 'F' then
    guard ((strtodEnd start).tail = cur.tail)
    match lx.strtof start with
    | none => some (⟨.f64, 0⟩, cur.tail, out.onError (lx.rangeFrom start cur.tail)
        "32-bit floating-point literal is too large" [])
    | some bits => some (⟨.f32, bits⟩, cur.tail, out)
  else
    guard (strtodEnd start = cur)
    match lx.strtod start with
    | none => some (⟨.f64, 0⟩, cur, out.onError (lx.rangeFrom start cur)
        "64-bit floating-point literal is too large" [])
    | some bits => some (⟨.f64, bits⟩, cur, out)

def scanFloat (lx : Lexer) (start : List Char) (out : Sinks) :
    Option (TokenFloat × List Char × Sinks) := do
  let c ← start.head?
  guard (isDecDigit c || c = '.')
  let cur ← skipDecDigits start
  let cur ← skipChar '.' cur
  let cur ← skipDecDigits cur
  let (bad, cur) ← scanExponent cur
  match bad with
  | some d =>
    let cur' ← skipWordEnd cur
    some (⟨.f64, 0⟩, cur', out.onError (lx.rangeFrom start cur)
      "Unexpected character '%c' after floating point literal's exponent" [.char d])
  | none => floatValue lx start cur out

/-! ### String and character literals -/

/-- `scan_hex_escape`: `none` is its result minus one. -/
def scanHexEscape (lx : Lexer) (start : List Char) (out : Sinks) :
    Option (Option Nat × List Char × Sinks) := do
  let c ← start.head?
  if biasedDigit c = 0 ∨ biasedDigit c - 1 ≥ 16 then
    some (none, start, out.onError ⟨lx.calcPos start, progPos (lx.calcPos start + 1)⟩
      "Invalid hex character digit '%c'" [.char c])
  else
    let d ← start.tail.head?
    if biasedDigit d = 0 then some (some (biasedDigit c - 1), start.tail, out)
    else if biasedDigit d - 1 ≥ 16 then
      some (none, start.tail, out.onError (lx.rangeFrom start start.tail)
        "Invalid hex character digit '0x%X' is larger than 0x%X" [.char d, .uint 15])
    else some (some ((biasedDigit c - 1) * 16 + (biasedDigit d - 1)), start.tail.tail, out)

/-- The escape of a string literal that begins at `start`, after its backslash. -/
def scanStringEscape (lx : Lexer) (start cur : List Char) (out : Sinks) :
    Option (Char × List Char × Sinks) := do
  let c ← cur.head?
  if c = 'x' || c = 'X' then
    let (hexVal, cur, out) ← scanHexEscape lx cur.tail out
    match hexVal with
    | none =>
      let cur' ← skipWordEnd cur
      some ('?', cur', out)
    | some v => some (Char.ofNat v, cur, out)
  else if unescapeChar c = '\x00' ∧ c ≠ '0' then
    some (unescapeChar c, cur.tail, out.onError (lx.rangeFrom start cur)
      "Invalid escaped character '\\%c'" [.char c])
  else some (unescapeChar c, cur.tail, out)

/-- The loop of `scan_string`. Every round moves the cursor, so `fuel` rounds are enough for
`fuel` characters: without fuel the cursor is beyond the end. -/
def scanStringLoop (lx : Lexer) (start : List Char) :
    Nat → List Char → List Char → Sinks → Option (List Char × List Char × Sinks)
  | 0, _, _, _ => none
  | fuel + 1, cur, tmp, out => do
    let c ← cur.head?
    if c = '\x00' || c = '"' || c = '\n' then some (tmp, cur, out)
    else if c = '\\' then
      let (e, cur', out') ← scanStringEscape lx start cur.tail out
      scanStringLoop lx start fuel cur' (tmp ++ [e]) out'
    else scanStringLoop lx start fuel cur.tail (tmp ++ [c]) out

def scanString (lx : Lexer) (start : List Char) (out : Sinks) :
    Option (List Char × List Char × Sinks) := do
  guard (start.head? = some '"')
  let (tmp, cur, out) ← scanStringLoop lx start start.tail.length start.tail [] out
  let c ← cur.head?
  if c = '"' then some (tmp, cur.tail, out)
  else if c = '\n' then
    let cur' ← skipChar '"' cur.tail
    some (tmp, cur', lx.onLine cur (out.onError (lx.rangeFrom start cur)
      "String literal cannot span multiple lines" []))
  else
    some (tmp, cur, out.onError (lx.rangeFrom start cur)
      "Encountered end-of-file while parsing string literal" [])

/-- A character widened to the 64 bits of a token's value: `char` is signed. -/
def charValue (c : Char) : Nat := if c.toNat < 128 then c.toNat else 2 ^ 64 - 256 + c.toNat

/-- The escape of a character literal, after its backslash. -/
def scanCharEscape (lx : Lexer) (start cur : List Char) (out : Sinks) :
    Option (Nat × List Char × Sinks) := do
  let c ← cur.head?
  if c = 'x' || c = 'X' then
    let (hexVal, cur', out') ← scanHexEscape lx cur.tail out
    some (hexVal.getD 0, cur', out')
  else if unescapeChar c = '\x00' ∧ c ≠ '0' then
    some ((unescapeChar c).toNat, cur.tail, out.onError (lx.rangeFrom start cur)
      "Invalid escaped character '\\%c'" [.char c])
  else some ((unescapeChar c).toNat, cur.tail, out)

/-- The end of a character literal: its closing quote, or the rest of the word. -/
def scanCharEnd (lx : Lexer) (start cur : List Char) (out : Sinks) :
    Option (List Char × Sinks) := do
  let c ← cur.head?
  if c ≠ '\'' then
    let cur' ← skipWordEnd cur
    let cur' ← skipChar '\'' cur'
    some (cur', out.onError (lx.rangeFrom start cur)
      "Missing closing character quote (found '%c' instead)" [.char c])
  else some (cur.tail, out)

def scanChar (lx : Lexer) (start : List Char) (out : Sinks) :
    Option (TokenInt × List Char × Sinks) := do
  guard (start.head? = some '\'')
  let cur := start.tail
  let c ← cur.head?
  if c = '\'' then
    some (⟨0, .char, .none⟩, cur.tail, out.onError (lx.rangeFrom start cur)
      "Character literal cannot be empty" [])
  else if c = '\n' then
    let cur' ← skipChar '\'' cur.tail
    some (⟨0, .char, .none⟩, cur', lx.onLine cur (out.onError (lx.rangeFrom start cur)
      "Character literal cannot contain a newline character" []))
  else if c = '\\' then
    let (value, cur, out) ← scanCharEscape lx start cur.tail out
    let (cur, out) ← scanCharEnd lx start cur out
    some (⟨value, .char, .none⟩, cur, out)
  else
    let (cur, out) ← scanCharEnd lx start cur.tail out
    some (⟨charValue c, .char, .none⟩, cur, out)

/-! ### Tokens -/

/-- A character of `kind`, or a longer operator if one of `longer` follows it. -/
def opWith (kind : TokenKind) (longer : List (Char × TokenKind)) (cur : List Char) :
    Option (TokenKind × List Char) := do
  let c ← cur.head?
  match longer.lookup c with
  | some kind' => some (kind', cur.tail)
  | none => some (kind, cur)

/-- `-`, `-=` or `---`. -/
def scanMinus (cur : List Char) : Option (TokenKind × List Char) := do
  let c ← cur.head?
  if c = '=' then some (.subAssign, cur.tail)
  else if c = '-' then
    let d ← cur[1]?
    if d = '-' then some (.uninit, cur.drop 2) else some (.minus, cur)
  else some (.minus, cur)

/-- If `first` is the next character, what `op` reads after it, else what `otherwise` reads. -/
def opThen (first : Char) (op : List Char → Option (TokenKind × List Char))
    (otherwise : List Char → Option (TokenKind × List Char)) (cur : List Char) :
    Option (TokenKind × List Char) := do
  let c ← cur.head?
  if c = first then op cur.tail else otherwise cur

/-- The tokens of `scan_token` that are an operator or a bracket, by their first character: what
is read after it. -/
def scanOperator (c : Char) : Option (List Char → Option (TokenKind × List Char)) :=
  match c with
  | '(' => some (opWith .lparen [])
  | ')' => some (opWith .rparen [])
  | '[' => some (opWith .lbracket [])
  | ']' => some (opWith .rbracket [])
  | '{' => some (opWith .lbrace [])
  | '}' => some (opWith .rbrace [])
  | ';' => some (opWith .semicolon [])
  | ':' => some (opThen '>' (opWith .cast [('>', .bitCast)]) (opWith .colon [(':', .dblColon)]))
  | ',' => some (opWith .comma [])
  | '@' => some (opWith .at [])
  | '+' => some (opWith .plus [('=', .addAssign)])
  | '-' => some scanMinus
  | '*' => some (opWith .asterisk [('=', .mulAssign)])
  | '%' => some (opWith .mod [('=', .modAssign)])
  | '!' => some (opWith .not [('=', .noteq)])
  | '>' => some (opThen '>' (opWith .rshift [('=', .rshiftAssign)]) (opWith .gt [('=', .gteq)]))
  | '<' => some (opThen '<' (opWith .lshift [('=', .lshiftAssign)]) (opWith .lt [('=', .lteq)]))
  | '&' => some (opWith .and [('&', .logicAnd), ('=', .andAssign)])
  | '|' => some (opWith .or [('|', .logicOr), ('=', .orAssign)])
  | '^' => some (opWith .caret [('=', .xorAssign)])
  | '~' => some (opWith .neg [])
  | '?' => some (opWith .question [])
  | '=' => some (opWith .assign [('=', .eq), ('>', .arrow)])
  | _ => none

/-- Letters, the underscore and `#`. -/
def isIdentStart (c : Char) : Bool :=
  ('a' ≤ c && c ≤ 'z') || ('A' ≤ c && c ≤ 'Z') || c = '_' || c = '#'

def scanNumber (lx : Lexer) (cur : List Char) (out : Sinks) :
    Option (TokenKind × TokenValue × List Char × Sinks) := do
  let p ← skipDecDigits cur
  let c ← p.head?
  if c = '.' || c = 'e' || c = 'E' then
    let (tfloat, cur', out') ← scanFloat lx cur out
    some (.float, .asFloat tfloat, cur', out')
  else
    let (tint, cur', out') ← scanInt lx cur out
    some (.int, .asInt tint, cur', out')

def scanDot (lx : Lexer) (cur : List Char) (out : Sinks) :
    Option (TokenKind × TokenValue × List Char × Sinks) := do
  let d ← cur[1]?
  if isDecDigit d then
    let (tfloat, cur', out') ← scanFloat lx cur out
    some (.float, .asFloat tfloat, cur', out')
  else if d = '.' then some (.ellipsis, .none, cur.drop 2, out)
  else some (.dot, .none, cur.tail, out)

def scanIdent (lx : Lexer) (start : List Char) (out : Sinks) :
    Option (TokenKind × TokenValue × List Char × Sinks) := do
  let cur ← skipWhile isAlphanum start.tail
  let ident := start.take (start.length - cur.length)
  if lx.identKind ident = .keyword then some (.kw, .asKw ident, cur, out)
  else if ident.head? = some '#' ∧ lx.identKind ident ≠ .intrinsic then
    some (.ident, .asIdent ident, cur, out.onError ⟨lx.calcPos start, lx.calcPos cur⟩
      "Only intrinsics can begin with a `#` character" [])
  else some (.ident, .asIdent ident, cur, out)

/-- The cases of `scan_token` that end in a token, for a cursor at `c`; `none` stands for the
default, an unexpected character. -/
def scanCase (lx : Lexer) (c : Char) (cur : List Char) (out : Sinks) :
    Option (Option (TokenKind × TokenValue × List Char × Sinks)) :=
  if c = '/' then some do
    let (kind, cur') ← opWith .div [('=', .divAssign), ('%', .divmod)] cur.tail
    some (kind, .none, cur', out)
  else if c = '.' then some (scanDot lx cur out)
  else if isDecDigit c then some (scanNumber lx cur out)
  else if c = '\'' then some do
    let (tint, cur', out') ← scanChar lx cur out
    some (.int, .asInt tint, cur', out')
  else if c = '"' then some do
    let (strLit, cur', out') ← scanString lx cur out
    some (.str, .asStr strLit, cur', out')
  else if isIdentStart c then some (scanIdent lx cur out)
  else if c = '\x00' then some (some (.eof, .none, cur, out))
  else (scanOperator c).map fun op => do
    let (kind, cur') ← op cur.tail
    some (kind, .none, cur', out)

/-- `scan_token` from its label `top`, which every jump reaches with fewer characters left. -/
def scanTokenTop (lx : Lexer) : Nat → List Char → Sinks → Option (Token × List Char × Sinks)
  | 0, _, _ => none
  | fuel + 1, cur, out => do
    let c ← cur.head?
    if c = ' ' || c = '\t' || c = '\n' || c = '\r' || c = '\x0b' then
      let (cur', out') ← skipSpaces lx cur out
      scanTokenTop lx fuel cur' out'
    else if c = '/' ∧ cur[1]? = some '/' then
      let cur' ← skipLineComment cur
      scanTokenTop lx fuel cur' out
    else if c = '/' ∧ cur[1]? = some '*' then
      let (cur', out') ← skipCComment lx cur out
      scanTokenTop lx fuel cur' out'
    else
      match scanCase lx c cur out with
      | some token => do
        let (kind, value, cur', out') ← token
        some (⟨kind, ⟨lx.calcPos cur, lx.calcPos cur'⟩, value⟩, cur', out')
      | none =>
        scanTokenTop lx fuel cur.tail (out.onError
          ⟨lx.calcPos cur, progPos (lx.calcPos cur + 1)⟩ "Unexpected token character: %c" [.char c])

def scanToken (lx : Lexer) (cur : List Char) (out : Sinks) : Option (Token × List Char × Sinks) :=
  scanTokenTop lx cur.length cur out

/-- At most `n` calls of `scan_token`, the last of which is the first to return the end of the
file. -/
def scanTokens (lx : Lexer) : Nat → List Char → Sinks → Option (List Token × List Char × Sinks)
  | 0, cur, out => some ([], cur, out)
  | n + 1, cur, out => do
    let (token, cur', out') ← scanToken lx cur out
    if token.kind = .eof then some ([token], cur', out')
    else
      let (tokens, cur'', out'') ← scanTokens lx n cur' out'
      some (token :: tokens, cur'', out'')

end Nibble.Front
