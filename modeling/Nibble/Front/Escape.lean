import Nibble.Front.Lexer

/-!
# Escaped strings

`cstr_escape` of `cstring.c`, and what `scan_string` reads back from its result.
A hex escape is printed as an unsigned number of 32 bits from a signed `char`,
so it has two digits for a byte below 128 and eight for any other.
-/

namespace Nibble.Front

/-- A byte as the lexer's character. -/
def chr (b : UInt8) : Char := Char.ofNat b.toNat

/-- `is_cntrl`. -/
def isCntrl (b : UInt8) : Bool := b.toNat < 32 || b.toNat = 127

/-- A `char` passed for a `%x`: it is signed, and read as an `unsigned int`. -/
def uintOfChar (b : UInt8) : Nat := if b.toNat < 128 then b.toNat else 2 ^ 32 - 256 + b.toNat

/-- A digit of `ftprint_int_`. -/
def digitChar (digit : Nat) : Char :=
  if digit ≥ 10 then Char.ofNat ('a'.toNat - 10 + digit) else Char.ofNat ('0'.toNat + digit)

/-- The digits that `ftprint_int_` puts into a buffer of `room` characters, the last one first. -/
def intDigits (base : Nat) : Nat → Nat → List Char
  | 0, _ => []
  | room + 1, value =>
    digitChar (value % base) ::
      if value / base > 0 then intDigits base room (value / base) else []

/-- `PRINT_MAX_NUM_DIGITS`. -/
def printMaxNumDigits : Nat := 32

/-- `print_uint` with a precision, a width of zero and no other flag. -/
def printUint (base precision value : Nat) : List Char :=
  if precision = 0 ∧ value = 0 then []
  else
    let digits := intDigits base printMaxNumDigits value
    List.replicate (precision - digits.length) '0' ++ digits.reverse

/-- The cases of `cstr_escape` that print one letter. -/
def escapeLetter (c : UInt8) : Option Char :=
  match chr c with
  | '\x00' => some '0'
  | '\x07' => some 'a'
  | '\x08' => some 'b'
  | '\x0c' => some 'f'
  | '\n' => some 'n'
  | '\r' => some 'r'
  | '\t' => some 't'
  | '\x0b' => some 'v'
  | '\\' => some '\\'
  | '\'' => some '\''
  | '"' => some '"'
  | '?' => some '?'
  | _ => none

/-- The switch of `cstr_escape`. -/
def escapeChar (extraEscape c : UInt8) : List Char :=
  match escapeLetter c with
  | some letter => ['\\', letter]
  | none =>
    if isCntrl c || c = extraEscape then '\\' :: 'x' :: printUint 16 2 (uintOfChar c) else [chr c]

/-- `cstr_escape`, without the NUL that ends its result. -/
def cstrEscape (str : List UInt8) (extraEscape : UInt8) : List Char :=
  str.flatMap (escapeChar extraEscape)

/-! ## What is printed -/

theorem toNat_chr (c : UInt8) : (chr c).toNat = c.toNat := by
  have hvalid : c.toNat.isValidChar := .inl (by have := c.toNat_lt; omega)
  rw [chr, Char.ofNat, dif_pos hvalid]
  rfl

theorem intDigits_two {value : Nat} (room : Nat) (h : value < 256) (h' : 16 ≤ value) :
    intDigits 16 (room + 2) value = [digitChar (value % 16), digitChar (value / 16)] := by
  have hpos : value / 16 > 0 := by omega
  have hlast : ¬ value / 16 / 16 > 0 := by omega
  rw [intDigits, if_pos hpos, intDigits, if_neg hlast, Nat.mod_eq_of_lt (by omega : value / 16 < 16)]

/-- A byte below 128 is printed with two digits. -/
theorem printUint_low {c : UInt8} (h : c.toNat < 128) :
    printUint 16 2 (uintOfChar c) = [digitChar (c.toNat / 16), digitChar (c.toNat % 16)] := by
  rw [uintOfChar, if_pos h, printUint, if_neg (by simp)]
  by_cases hc : 16 ≤ c.toNat
  · rw [printMaxNumDigits, intDigits_two 30 (by omega) hc]
    rfl
  · have hdigits : intDigits 16 printMaxNumDigits c.toNat = [digitChar (c.toNat % 16)] := by
      rw [printMaxNumDigits, intDigits, if_neg (by omega)]
    rw [hdigits, show c.toNat / 16 = 0 by omega]
    rfl

/-- Another byte is printed with the sign in front of its two digits. -/
theorem printUint_high {c : UInt8} (h : 128 ≤ c.toNat) :
    printUint 16 2 (uintOfChar c) =
      ['f', 'f', 'f', 'f', 'f', 'f', digitChar (c.toNat / 16), digitChar (c.toNat % 16)] := by
  have hlt := c.toNat_lt
  have hdigits : intDigits 16 printMaxNumDigits (2 ^ 32 - 256 + c.toNat) =
      digitChar (c.toNat % 16) :: digitChar (c.toNat / 16) :: intDigits 16 30 (2 ^ 24 - 1) := by
    rw [printMaxNumDigits, intDigits, if_pos (by omega), intDigits, if_pos (by omega),
      show (2 ^ 32 - 256 + c.toNat) % 16 = c.toNat % 16 by omega,
      show (2 ^ 32 - 256 + c.toNat) / 16 % 16 = c.toNat / 16 by omega,
      show (2 ^ 32 - 256 + c.toNat) / 16 / 16 = 2 ^ 24 - 1 by omega]
  rw [uintOfChar, if_neg (by omega), printUint, if_neg (by simp), hdigits,
    show intDigits 16 30 (2 ^ 24 - 1) = ['f', 'f', 'f', 'f', 'f', 'f'] by decide]
  rfl

theorem biasedDigit_digitChar {d : Nat} (h : d < 16) : biasedDigit (digitChar d) = d + 1 := by
  revert h
  revert d
  decide

/-! ## What is read -/

section

variable (lx : Lexer) (start : List Char) (tl tmp : List Char) (out : Sinks)

/-- Characters that a string literal holds as they are. -/
def isVerbatim (c : Char) : Prop := c ≠ '\x00' ∧ c ≠ '"' ∧ c ≠ '\n' ∧ c ≠ '\\'

theorem scanStringLoop_verbatim (fuel : Nat) {c : Char} (h : isVerbatim c) :
    scanStringLoop lx start (fuel + 1) (c :: tl) tmp out =
      scanStringLoop lx start fuel tl (tmp ++ [c]) out := by
  obtain ⟨hnul, hquote, hline, hslash⟩ := h
  simp [scanStringLoop, hnul, hquote, hline, hslash]

theorem scanStringLoop_escape (fuel : Nat) {cur cur' : List Char} {c : Char}
    (h : scanStringEscape lx start cur out = some (c, cur', out)) :
    scanStringLoop lx start (fuel + 1) ('\\' :: cur) tmp out =
      scanStringLoop lx start fuel cur' (tmp ++ [c]) out := by
  simp [scanStringLoop, h]

theorem verbatim_digitChar {d : Nat} (h : d < 16) : isVerbatim (digitChar d) := by
  unfold isVerbatim
  revert h
  revert d
  decide

theorem scanStringEscape_letter {c : UInt8} {l : Char} (h : escapeLetter c = some l) :
    scanStringEscape lx start (l :: tl) out = some (chr c, tl, out) := by
  unfold escapeLetter at h
  split at h <;> cases h
  all_goals
    rename_i hc
    rw [hc]
    rfl

theorem scanStringEscape_hex {hi lo : Nat} (hhi : hi < 16) (hlo : lo < 16) :
    scanStringEscape lx start ('x' :: digitChar hi :: digitChar lo :: tl) out =
      some (Char.ofNat (hi * 16 + lo), tl, out) := by
  simp [scanStringEscape, scanHexEscape, biasedDigit_digitChar hhi, biasedDigit_digitChar hlo,
    Nat.not_le.mpr hhi, Nat.not_le.mpr hlo]

end

/-- What `scan_string` reads from the text for one byte. -/
def readBack (extraEscape c : UInt8) : List Char :=
  if c = extraEscape ∧ 128 ≤ c.toNat then
    ['\xff', 'f', 'f', 'f', 'f', digitChar (c.toNat / 16), digitChar (c.toNat % 16)]
  else [chr c]

theorem verbatim_of_not_letter {c : UInt8} (h : escapeLetter c = none) : isVerbatim (chr c) := by
  unfold escapeLetter at h
  split at h <;> try cases h
  rename_i h1 h2 h3 h4 h5 h6 h7 h8 h9 h10 h11 h12
  exact ⟨h1, h11, h5, h9⟩

/-- Seven rounds for the text of a byte of eight digits. -/
theorem scanStringLoop_high (lx : Lexer) (start tl tmp : List Char) (out : Sinks) (fuel : Nat)
    {hi lo : Nat} (hhi : hi < 16) (hlo : lo < 16) :
    scanStringLoop lx start (fuel + 7)
        ('\\' :: 'x' :: 'f' :: 'f' :: 'f' :: 'f' :: 'f' :: 'f' :: digitChar hi :: digitChar lo :: tl)
        tmp out =
      scanStringLoop lx start fuel tl
        (tmp ++ ['\xff', 'f', 'f', 'f', 'f', digitChar hi, digitChar lo]) out := by
  have hf : isVerbatim 'f' := verbatim_digitChar (d := 15) (by decide)
  have hesc := scanStringEscape_hex lx start
    ('f' :: 'f' :: 'f' :: 'f' :: digitChar hi :: digitChar lo :: tl) out
    (show 15 < 16 by decide) (show 15 < 16 by decide)
  refine (scanStringLoop_escape lx start tmp out (fuel + 6) hesc).trans ?_
  simp only [scanStringLoop_verbatim lx start _ _ out _ hf,
    scanStringLoop_verbatim lx start _ _ out _ (verbatim_digitChar hhi),
    scanStringLoop_verbatim lx start _ _ out _ (verbatim_digitChar hlo), List.append_assoc]
  rfl

/-- The text of one byte is read, and the fuel is still enough for what follows it. -/
theorem scanStringLoop_escapeChar (lx : Lexer) (start tl tmp : List Char) (out : Sinks)
    (extraEscape c : UInt8) {fuel : Nat} (h : (escapeChar extraEscape c ++ tl).length ≤ fuel) :
    ∃ fuel', tl.length ≤ fuel' ∧
      scanStringLoop lx start fuel (escapeChar extraEscape c ++ tl) tmp out =
        scanStringLoop lx start fuel' tl (tmp ++ readBack extraEscape c) out := by
  have hlt := c.toNat_lt
  unfold escapeChar at h ⊢
  cases hletter : escapeLetter c with
  | some l =>
    simp only [hletter, List.length_append, List.length_cons, List.length_nil] at h
    obtain ⟨f, rfl⟩ : ∃ f, fuel = f + 1 := ⟨fuel - 1, by omega⟩
    have hlow : ¬ (c = extraEscape ∧ 128 ≤ c.toNat) := by
      rintro ⟨-, hhigh⟩
      rw [← toNat_chr c] at hhigh
      unfold escapeLetter at hletter
      split at hletter <;> cases hletter
      all_goals
        rename_i hc
        rw [hc] at hhigh
        exact absurd hhigh (by decide)
    refine ⟨f, by omega, ?_⟩
    rw [readBack, if_neg hlow]
    exact scanStringLoop_escape lx start tmp out f (scanStringEscape_letter lx start tl out hletter)
  | none =>
    simp only [hletter] at h
    simp only
    by_cases hesc : (isCntrl c || decide (c = extraEscape)) = true
    · rw [if_pos hesc] at h ⊢
      by_cases hlow : c.toNat < 128
      · rw [printUint_low hlow] at h ⊢
        simp only [List.length_append, List.length_cons, List.length_nil] at h
        obtain ⟨f, rfl⟩ : ∃ f, fuel = f + 1 := ⟨fuel - 1, by omega⟩
        refine ⟨f, by omega, ?_⟩
        have hread := scanStringEscape_hex lx start tl out (show c.toNat / 16 < 16 by omega)
          (show c.toNat % 16 < 16 by omega)
        rw [show c.toNat / 16 * 16 + c.toNat % 16 = c.toNat by omega] at hread
        rw [readBack, if_neg (by omega)]
        exact scanStringLoop_escape lx start tmp out f hread
      · rw [printUint_high (by omega)] at h ⊢
        simp only [List.length_append, List.length_cons, List.length_nil] at h
        obtain ⟨f, rfl⟩ : ∃ f, fuel = f + 7 := ⟨fuel - 7, by omega⟩
        have hextra : c = extraEscape := by
          have hcntrl : isCntrl c = false := by
            simp only [isCntrl, Bool.or_eq_false_iff, decide_eq_false_iff_not]
            omega
          simpa [hcntrl] using hesc
        refine ⟨f, by omega, ?_⟩
        rw [readBack, if_pos ⟨hextra, by omega⟩]
        exact scanStringLoop_high lx start tl tmp out f (by omega) (by omega)
    · rw [if_neg hesc] at h ⊢
      simp only [List.length_append, List.length_cons, List.length_nil] at h
      obtain ⟨f, rfl⟩ : ∃ f, fuel = f + 1 := ⟨fuel - 1, by omega⟩
      have hplain : ¬ (c = extraEscape ∧ 128 ≤ c.toNat) := by
        rintro ⟨hc, -⟩
        simp [hc] at hesc
      refine ⟨f, by omega, ?_⟩
      rw [readBack, if_neg hplain]
      exact scanStringLoop_verbatim lx start tl tmp out f (verbatim_of_not_letter hletter)

theorem scanStringLoop_cstrEscape (lx : Lexer) (start : List Char) (out : Sinks)
    (extraEscape : UInt8) (rest : List Char) (str : List UInt8) :
    ∀ (tmp : List Char) (fuel : Nat), (cstrEscape str extraEscape ++ '"' :: rest).length ≤ fuel →
      scanStringLoop lx start fuel (cstrEscape str extraEscape ++ '"' :: rest) tmp out =
        some (tmp ++ str.flatMap (readBack extraEscape), '"' :: rest, out) := by
  induction str with
  | nil =>
    intro tmp fuel hfuel
    obtain ⟨f, rfl⟩ : ∃ f, fuel = f + 1 := ⟨fuel - 1, by simp at hfuel; omega⟩
    simp [cstrEscape, scanStringLoop]
  | cons c str ih =>
    intro tmp fuel hfuel
    have hcons : cstrEscape (c :: str) extraEscape ++ '"' :: rest =
        escapeChar extraEscape c ++ (cstrEscape str extraEscape ++ '"' :: rest) := by
      simp [cstrEscape]
    rw [hcons] at hfuel ⊢
    obtain ⟨fuel', hfuel', hround⟩ := scanStringLoop_escapeChar lx start _ tmp out extraEscape c hfuel
    rw [hround, ih _ fuel' hfuel', List.flatMap_cons, List.append_assoc]

/-- What is read from an escaped string in quotes: no error, and one part for each byte. -/
theorem scanString_readBack (lx : Lexer) (str : List UInt8) (extraEscape : UInt8)
    (rest : List Char) (out : Sinks) :
    scanString lx ('"' :: (cstrEscape str extraEscape ++ '"' :: rest)) out =
      some (str.flatMap (readBack extraEscape), rest, out) := by
  have hloop := scanStringLoop_cstrEscape lx ('"' :: (cstrEscape str extraEscape ++ '"' :: rest))
    out extraEscape rest str [] _ (Nat.le_refl _)
  simp only [List.nil_append] at hloop
  simp only [scanString, List.head?_cons, guard_true, List.tail_cons, hloop, Option.bind_eq_bind,
    Option.bind_some, Option.pure_def, if_true]

theorem length_le_readBack (extraEscape : UInt8) (str : List UInt8) :
    str.length ≤ (str.flatMap (readBack extraEscape)).length := by
  induction str with
  | nil => exact Nat.zero_le _
  | cons c str ih =>
    rw [List.flatMap_cons, List.length_append, List.length_cons]
    have hone : 1 ≤ (readBack extraEscape c).length := by
      unfold readBack
      split <;> simp
    omega

/-- Bytes are read back as they are, except the extra one from 128 on. -/
theorem readBack_eq_map_iff (extraEscape : UInt8) (str : List UInt8) :
    str.flatMap (readBack extraEscape) = str.map chr ↔
      extraEscape.toNat < 128 ∨ extraEscape ∉ str := by
  constructor
  · intro h
    by_contra hbad
    rw [not_or, Nat.not_lt, not_not] at hbad
    obtain ⟨hhigh, hmem⟩ := hbad
    obtain ⟨pre, post, rfl⟩ := List.append_of_mem hmem
    have hlen := congrArg List.length h
    have hpre := length_le_readBack extraEscape pre
    have hpost := length_le_readBack extraEscape post
    have hself : (readBack extraEscape extraEscape).length = 7 := by
      rw [readBack, if_pos ⟨rfl, hhigh⟩]
      rfl
    simp only [List.flatMap_append, List.flatMap_cons, List.length_append, List.length_map,
      List.length_cons, hself] at hlen
    omega
  · intro h
    have hone : ∀ c ∈ str, readBack extraEscape c = [chr c] := by
      intro c hc
      rw [readBack, if_neg]
      rintro ⟨rfl, hhigh⟩
      rcases h with h | h
      · omega
      · exact h hc
    rw [List.flatMap_congr hone]
    exact List.flatMap_pure_eq_map chr str

/-- Scanning an escaped string in quotes gives back its bytes without an error, and ends behind the
literal, exactly if the extra character is below 128 or not in the string. -/
theorem scanString_cstrEscape (lx : Lexer) (str : List UInt8) (extraEscape : UInt8)
    (rest : List Char) (out : Sinks) :
    scanString lx ('"' :: (cstrEscape str extraEscape ++ '"' :: rest)) out =
        some (str.map chr, rest, out) ↔
      extraEscape.toNat < 128 ∨ extraEscape ∉ str := by
  rw [scanString_readBack, ← readBack_eq_map_iff]
  simp

/-- The literal for the byte 128 with itself as the extra escape: its escape has eight digits. -/
def highLiteral : CString := ⟨'"' :: (cstrEscape [128] 128 ++ ['"']), bytes_of_all (by decide)⟩

/-- The literal is scanned without an error, as seven characters. -/
theorem scanString_highLiteral :
    let lx : Lexer := ⟨highLiteral, 0, fun _ => .name, fun _ => some 0, fun _ => some 0⟩
    scanString lx highLiteral.text ⟨some [], none⟩ =
        some (['\xff', 'f', 'f', 'f', 'f', '8', '0'], ['\x00'], ⟨some [], none⟩) ∧
      scanString lx highLiteral.text ⟨some [], none⟩ ≠
        some ([128].map chr, ['\x00'], ⟨some [], none⟩) := by
  decide

end Nibble.Front
