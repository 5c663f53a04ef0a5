import Nibble.Front.Lexer

/-!
# The modes of a text

What the lexer is in the middle of after each character of a text: code, a comment and its
depth, a literal and its escapes. The machine reads one character at a time and knows nothing
of tokens.
-/

namespace Nibble.Front

inductive LexMode where
  | code
  /-- After a `/` that may begin a comment. -/
  | slash
  | lineComment
  /-- In a comment inside `depth` others. -/
  | comment (depth : Nat)
  | commentSlash (depth : Nat)
  | commentStar (depth : Nat)
  | string
  /-- After the backslash of an escape. -/
  | stringEscape
  /-- After the newline that cut a string off; a closing quote still belongs to it. -/
  | stringCut
  /-- After the opening quote of a character literal. -/
  | char
  | charEscape
  | charCut
  /-- After the character of a literal, before its closing quote. -/
  | charTail
  deriving DecidableEq, Repr

namespace LexMode

def codeStep (c : Char) : LexMode :=
  if c = '"' then .string else if c = '\'' then .char else if c = '/' then .slash else .code

def commentStep (depth : Nat) (c : Char) : LexMode :=
  if c = '/' then .commentSlash depth else if c = '*' then .commentStar depth
  else .comment depth

/-- The mode around a comment inside `depth` others. -/
def outer : Nat → LexMode
  | 0 => .code
  | depth + 1 => .comment depth

def step : LexMode → Char → LexMode
  | code, c => codeStep c
  | slash, c => if c = '/' then lineComment else if c = '*' then comment 0 else codeStep c
  | lineComment, c => if c = '\n' ∨ c = '\r' then code else lineComment
  | comment depth, c => commentStep depth c
  | commentSlash depth, c => if c = '*' then comment (depth + 1) else commentStep depth c
  | commentStar depth, c => if c = '/' then outer depth else commentStep depth c
  | string, c =>
    if c = '"' then code else if c = '\n' then stringCut else if c = '\\' then stringEscape
    else string
  | stringEscape, _ => string
  | stringCut, c => if c = '"' then code else codeStep c
  | char, c =>
    if c = '\'' then code else if c = '\n' then charCut else if c = '\\' then charEscape
    else charTail
  | charEscape, _ => charTail
  | charCut, c => if c = '\'' then code else codeStep c
  | charTail, c => if isAlphanum c then charTail else if c = '\'' then code else codeStep c

def after (m : LexMode) (s : List Char) : LexMode := s.foldl step m

/-- A backslash waits for its character. -/
def isEscape : LexMode → Bool
  | stringEscape | charEscape => true
  | _ => false

/-- The next character is taken whatever it is. -/
def takesAny : LexMode → Bool
  | stringEscape | charEscape | char => true
  | _ => false

@[simp] theorem after_nil (m : LexMode) : m.after [] = m := rfl

@[simp] theorem after_cons (m : LexMode) (c : Char) (s : List Char) :
    m.after (c :: s) = (m.step c).after s := rfl

end LexMode

/-- No escape of the text is a newline, and neither an escape nor a character literal is cut off
by its end. -/
structure EscapesClosed (m : LexMode) (s : List Char) : Prop where
  newline : ∀ u v, s = u ++ '\n' :: v → (m.after u).isEscape = false
  last : (m.after s).takesAny = false

theorem escapesClosed_nil {m : LexMode} : EscapesClosed m [] ↔ m.takesAny = false :=
  ⟨fun h => h.last, fun h => ⟨fun u v he => by simp at he, h⟩⟩

theorem escapesClosed_cons {m : LexMode} {c : Char} {s : List Char} :
    EscapesClosed m (c :: s) ↔ (c = '\n' → m.isEscape = false) ∧ EscapesClosed (m.step c) s := by
  constructor
  · intro h
    refine ⟨fun hc => h.newline [] s (by rw [hc]; rfl), ⟨fun u v hs => ?_, h.last⟩⟩
    exact h.newline (c :: u) v (by rw [hs]; rfl)
  · rintro ⟨hc, hs⟩
    refine ⟨fun u v he => ?_, hs.last⟩
    cases u with
    | nil =>
      simp only [List.nil_append, List.cons.injEq] at he
      exact hc he.1
    | cons d u =>
      simp only [List.cons_append, List.cons.injEq] at he
      obtain ⟨rfl, he⟩ := he
      exact hs.newline u v he

/-! ### Line positions -/

/-- The position after each newline of a text that begins at `start`. -/
def lineStarts (start : Nat) (s : List Char) : List Nat :=
  ((List.range s.length).filter fun i => s[i]? = some '\n').map (start + · + 1)

theorem lineStarts_cons (start : Nat) (c : Char) (s : List Char) :
    lineStarts start (c :: s) =
      (if c = '\n' then [start + 1] else []) ++ lineStarts (start + 1) s := by
  unfold lineStarts
  rw [List.length_cons, List.range_succ_eq_map, List.filter_cons]
  have htail : ((List.map Nat.succ (List.range s.length)).filter
        fun i => (c :: s)[i]? = some '\n').map (start + · + 1) =
      ((List.range s.length).filter fun i => s[i]? = some '\n').map (start + 1 + · + 1) := by
    rw [List.filter_map, List.map_map]
    congr 1
    funext i
    simp only [Function.comp_apply]
    omega
  by_cases hc : c = '\n'
  · simp only [hc, List.getElem?_cons_zero, decide_true, if_true, List.map_cons] at htail ⊢
    rw [htail]
    rfl
  · simp only [List.getElem?_cons_zero, Option.some.injEq, hc, decide_false, if_false,
      Bool.false_eq_true] at htail ⊢
    exact htail

theorem length_lineStarts (start : Nat) (s : List Char) :
    (lineStarts start s).length = s.count '\n' := by
  induction s generalizing start with
  | nil => rfl
  | cons c s ih =>
    rw [lineStarts_cons, List.length_append, ih, List.count_cons]
    by_cases hc : c = '\n'
    · simp [hc, Nat.add_comm]
    · simp [hc]

/-- The line positions that the lexer records from mode `m` on, or `none` if it reads beyond the
NUL: a newline is recorded unless it is an escape. -/
def lines (lx : Lexer) : LexMode → List Char → Option (List Nat)
  | _, [] => none
  | m, c :: cs =>
    if c = '\x00' then if m.takesAny then none else some []
    else if c = '\n' ∧ m.isEscape = false then
      (lines lx (m.step c) cs).map (progPos (lx.calcPos (c :: cs) + 1) :: ·)
    else lines lx (m.step c) cs

/-- The same, where `cut` stands for what is read beyond the NUL. -/
def linesCut (lx : Lexer) (cut : Option (List Nat)) : LexMode → List Char → Option (List Nat)
  | _, [] => cut
  | m, c :: cs =>
    if c = '\x00' then if m.takesAny then cut else some []
    else if c = '\n' ∧ m.isEscape = false then
      (linesCut lx cut (m.step c) cs).map (progPos (lx.calcPos (c :: cs) + 1) :: ·)
    else linesCut lx cut (m.step c) cs

theorem linesCut_none (lx : Lexer) (m : LexMode) (s : List Char) :
    linesCut lx none m s = lines lx m s := by
  induction s generalizing m with
  | nil => rfl
  | cons c cs ih => simp only [linesCut, lines, ih]

/-- The modes record at most every newline, and all of them only if no escape is one. -/
theorem escapesClosed_of_lines {lx : Lexer} {m : LexMode} {s : List Char} {new : List Nat}
    (hs : ∀ c ∈ s, c ≠ '\x00') (h : lines lx m (s ++ ['\x00']) = some new) :
    new.length ≤ s.count '\n' ∧ (new.length = s.count '\n' → EscapesClosed m s) := by
  induction s generalizing m new with
  | nil =>
    simp only [List.nil_append, lines, if_true] at h
    split at h
    · cases h
    · next hany =>
      cases h
      exact ⟨Nat.le_refl _, fun _ => escapesClosed_nil.mpr (by simpa using hany)⟩
  | cons c s ih =>
    have hc := hs c List.mem_cons_self
    have hs' : ∀ d ∈ s, d ≠ '\x00' := fun d hd => hs d (List.mem_cons_of_mem _ hd)
    simp only [List.cons_append, lines, hc, if_false] at h
    split at h
    · next hline =>
      obtain ⟨rfl, hescape⟩ := hline
      obtain ⟨new', hnew', rfl⟩ := Option.map_eq_some_iff.mp h
      obtain ⟨hle, heq⟩ := ih hs' hnew'
      rw [List.count_cons_self, List.length_cons]
      exact ⟨Nat.succ_le_succ hle, fun hlen =>
        escapesClosed_cons.mpr ⟨fun _ => hescape, heq (Nat.succ.inj hlen)⟩⟩
    · next hline =>
      obtain ⟨hle, heq⟩ := ih hs' h
      by_cases hnl : c = '\n'
      · -- The newline of an escape is not recorded.
        subst hnl
        rw [List.count_cons_self]
        exact ⟨Nat.le_succ_of_le hle, fun hlen => absurd hlen (by omega)⟩
      · rw [List.count_cons_of_ne hnl]
        exact ⟨hle, fun hlen => escapesClosed_cons.mpr ⟨fun h => absurd h hnl, heq hlen⟩⟩

/-- Where no escape is a newline and the positions fit, the modes record every line's start. -/
theorem lines_of_escapesClosed {lx : Lexer} {m : LexMode} {s : List Char} {start : Nat}
    (hs : ∀ c ∈ s, c ≠ '\x00') (hpos : start + s.length < 2 ^ 32)
    (hstart : lx.str.text.length + lx.start = start + s.length + 1)
    (hlen : s.length < lx.str.text.length)
    (h : EscapesClosed m s) : lines lx m (s ++ ['\x00']) = some (lineStarts start s) := by
  induction s generalizing m start with
  | nil =>
    simp only [List.nil_append, lines, if_true, escapesClosed_nil.mp h, Bool.false_eq_true, if_false]
    rfl
  | cons c s ih =>
    have hc := hs c List.mem_cons_self
    have hs' : ∀ d ∈ s, d ≠ '\x00' := fun d hd => hs d (List.mem_cons_of_mem _ hd)
    obtain ⟨hescape, hrest⟩ := escapesClosed_cons.mp h
    simp only [List.length_cons] at hpos hstart hlen
    have htail : lines lx (m.step c) (s ++ ['\x00']) = some (lineStarts (start + 1) s) :=
      ih hs' (by omega) (by omega) (by omega) hrest
    have hprog : progPos (lx.calcPos (c :: (s ++ ['\x00'])) + 1) = start + 1 := by
      simp only [progPos, Lexer.calcPos, List.length_cons, List.length_append, List.length_nil]
      omega
    rw [lineStarts_cons]
    by_cases hnl : c = '\n'
    · subst hnl
      simp only [List.cons_append, lines, hc, if_false, hescape rfl, and_self, if_true, htail,
        hprog, Option.map_some, List.nil_append]
    · simp only [List.cons_append, lines, hc, if_false, hnl, false_and, htail, List.nil_append]

end Nibble.Front
