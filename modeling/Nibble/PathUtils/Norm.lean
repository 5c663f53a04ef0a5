import Nibble.Front.Source
import Nibble.Lib.Location
import Nibble.Lib.Run
import Mathlib.Algebra.Group.Nat.Defs

/-!
# path_norm

A path is rewritten in its own buffer: `in` reads it, `out` writes it, and `comps` holds where
each written component begins. A state of the loop is a buffer with both cursors; a read or a
write outside the buffer is a fault, and so is an assertion that fails.
-/

namespace Nibble.PathUtils

/-- `NIBBLE_PATH_SEP` -/
def sep : UInt8 := 47

def dot : UInt8 := 46

/-- `Path`: the bytes of `str` before the terminator; their number is a `u32`, as that of `str`. -/
structure Path extends Front.OsPath where
  fits : bytes.length + 1 < 2 ^ 32

def u32 (n : Nat) : Nat := n % 2 ^ 32

def pathIsabs (bytes : List UInt8) : Bool := decide (bytes.head? = some sep)

/-- `*at = c` -/
def store (str : List UInt8) (i : Nat) (c : UInt8) : Option (List UInt8) :=
  if i < str.length then some (str.set i c) else none

/-- Where a state of the loops is: at a `while (*in)`, before a component, in one, after all. -/
inductive Phase where
  | loop | skip | copy | done
  deriving DecidableEq, Repr

/-- The local variables of `path_norm`; `comps` begins with the most recent component. -/
structure NormState where
  str : List UInt8
  out : Nat
  inp : Nat
  comps : List Nat
  phase : Phase
  deriving DecidableEq, Repr

/-- A `..` component; `next` is the character after it. -/
def backtrack (isAbs : Bool) (next : UInt8) (s : NormState) : Option NormState :=
  match s.comps with
  | loc :: comps@(_ :: _) =>
    some { s with out := loc, comps, inp := s.inp + 2, phase := .loop }
  | _ =>
    if isAbs then some { s with inp := s.inp + 2, phase := .loop }
    else if s.out ≠ s.inp then do
      let str ← store s.str s.out dot
      let str ← store str (s.out + 1) dot
      let str ← store str (s.out + 2) sep
      some { s with str, out := s.out + 3, inp := s.inp + 2, phase := .loop }
    else
      let n := 2 + if next ≠ 0 then 1 else 0
      some { s with out := s.out + n, inp := s.inp + 2, phase := .loop }

/-- `assert(out <= in)`, and the start of a component. -/
def newComp (s : NormState) : Option NormState :=
  if s.out ≤ s.inp then some { s with comps := s.out :: s.comps, phase := .copy } else none

/-- What the loop does before a component. -/
def skipStep (isAbs : Bool) (s : NormState) : Option NormState := do
  let c ← s.str[s.inp]?
  if c = sep then some { s with inp := s.inp + 1 }
  else if c = dot then
    let c₁ ← s.str[s.inp + 1]?
    if c₁ = sep ∨ c₁ = 0 then some { s with inp := s.inp + 1, phase := .loop }
    else if c₁ = dot then
      let c₂ ← s.str[s.inp + 2]?
      if c₂ = sep ∨ c₂ = 0 then backtrack isAbs c₂ s else newComp s
    else newComp s
  else newComp s

/-- One character of a component, or the separator that ends it. -/
def copyStep (s : NormState) : Option NormState := do
  let c ← s.str[s.inp]?
  if c ≠ 0 ∧ c ≠ sep then
    let str ← store s.str s.out c
    some { s with str, out := s.out + 1, inp := s.inp + 1 }
  else if c = sep then
    let str ← store s.str s.out sep
    some { s with str, out := s.out + 1, inp := s.inp + 1, phase := .loop }
  else some { s with phase := .loop }

def normStep (isAbs : Bool) (s : NormState) : Option NormState :=
  match s.phase with
  | .loop => do
    let c ← s.str[s.inp]?
    some { s with phase := if c = 0 then .done else .skip }
  | .skip => skipStep isAbs s
  | .copy => copyStep s
  | .done => some s

/-- `array_reserve`, with no more than what it promises. -/
def reserve (str : List UInt8) (n : Nat) : List UInt8 :=
  str ++ List.replicate (n - str.length) 0

/-- The state in which the loop begins. -/
def normStart (bytes : List UInt8) : NormState :=
  let str := reserve (bytes ++ [0]) 2
  let first := if pathIsabs bytes then 1 else 0
  ⟨str, first, first, [first], .loop⟩

/-- An empty result becomes `.`, and a last separator is taken back. -/
def normTrim (s : NormState) : Option (List UInt8 × Nat) := do
  let numBytes := u32 s.out
  if numBytes = 0 then
    let str ← store s.str s.out dot
    some (str, s.out + 1)
  else if numBytes > 1 then
    let last ← s.str[s.out - 1]?
    some (s.str, if last = sep then s.out - 1 else s.out)
  else some (s.str, s.out)

/-- The terminator and the length; `len` is the length that `path_norm` began with. -/
def normFinish (len : Nat) (s : NormState) : Option (List UInt8) := do
  let (str, out) ← normTrim s
  let str ← store str out 0
  let numBytes := u32 (out + 1)
  if numBytes - 1 ≤ len + 1 then some (str.take (numBytes - 1)) else none

/-- The states of the loops of `path_norm`. -/
abbrev NormSteps (bytes : List UInt8) : NormState → NormState → Prop :=
  Lib.StepsTo (normStep (pathIsabs bytes)) (·.phase = .done)

/-- `path_norm` -/
def pathNorm (bytes : List UInt8) : Option (List UInt8) := do
  let len := u32 bytes.length
  let c ← (bytes ++ [0])[len]?
  if c = 0 then
    let s ← Lib.runSteps (normStep (pathIsabs bytes)) (·.phase = .done) (3 * bytes.length + 4)
      (normStart bytes)
    normFinish len s
  else none

end Nibble.PathUtils
