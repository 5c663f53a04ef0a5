import Nibble.Front.LexMode

/-!
# Steps of the lexer through the modes

`Idles`: characters that leave the mode and the line positions as they are. `Scans`: a piece of
the lexer that goes from one mode to another and records the newlines on the way. `Follows`:
what a function returns scans, or the text from the cursor is read beyond its NUL.
-/

namespace Nibble.Front

/-- A cursor into a string: what is left of it, and its NUL. -/
inductive Terminated : List Char → Prop where
  | nul : Terminated ['\x00']
  | cons {c : Char} {cs : List Char} : c ≠ '\x00' → Terminated cs → Terminated (c :: cs)

theorem Terminated.exists_cons {cur : List Char} (h : Terminated cur) :
    ∃ c cs, cur = c :: cs ∧ (c ≠ '\x00' → Terminated cs) := by
  cases h with
  | nul => exact ⟨'\x00', [], rfl, fun h => absurd rfl h⟩
  | cons hc h => exact ⟨_, _, rfl, fun _ => h⟩

theorem Terminated.tail {c : Char} {cs : List Char} (h : Terminated (c :: cs))
    (hc : c ≠ '\x00') : Terminated cs := by
  cases h with
  | nul => exact absurd rfl hc
  | cons _ h => exact h

theorem Terminated.eq_nul {cs : List Char} (h : Terminated ('\x00' :: cs)) : cs = [] := by
  cases h with
  | nul => rfl
  | cons hc _ => exact absurd rfl hc

theorem CString.terminated (s : CString) : Terminated s.text := by
  obtain ⟨chars, bytes⟩ := s
  unfold CString.text
  induction chars with
  | nil => exact .nul
  | cons c cs ih =>
    refine .cons ?_ (ih fun d hd => bytes d (List.mem_cons_of_mem _ hd))
    rintro rfl
    exact absurd (bytes _ List.mem_cons_self).1 (by decide)

/-! ### Idle characters -/

/-- `c` leaves the mode as it is and is no newline. -/
structure LexMode.Idle (m : LexMode) (c : Char) : Prop where
  nul : c ≠ '\x00'
  newline : c ≠ '\n'
  step : m.step c = m

/-- The cursor moves over characters that are idle in mode `m`. -/
inductive Idles (m : LexMode) : List Char → List Char → Prop where
  | refl (cur : List Char) : Idles m cur cur
  | cons {c : Char} {cs cur : List Char} : m.Idle c → Idles m cs cur → Idles m (c :: cs) cur

theorem Idles.trans {m : LexMode} {cur₁ cur₂ cur₃ : List Char} (h : Idles m cur₁ cur₂)
    (h' : Idles m cur₂ cur₃) : Idles m cur₁ cur₃ := by
  induction h with
  | refl => exact h'
  | cons hc _ ih => exact .cons hc (ih h')

theorem Idles.one {m : LexMode} {c : Char} {cs : List Char} (h : m.Idle c) :
    Idles m (c :: cs) cs := .cons h (.refl cs)

theorem Idles.terminated {m : LexMode} {cur cur' : List Char} (h : Idles m cur cur')
    (hcur : Terminated cur) : Terminated cur' := by
  induction h with
  | refl => exact hcur
  | cons hc _ ih => exact ih (hcur.tail hc.nul)

theorem Idles.suffix {m : LexMode} {cur cur' : List Char} (h : Idles m cur cur') :
    cur' <:+ cur := by
  induction h with
  | refl => exact List.suffix_rfl
  | cons _ _ ih => exact ih.trans (List.suffix_cons _ _)

theorem Idles.lines {lx : Lexer} {m : LexMode} {cur cur' : List Char} (h : Idles m cur cur')
    (cut : Option (List Nat)) : linesCut lx cut m cur = linesCut lx cut m cur' := by
  induction h with
  | refl => rfl
  | cons hc _ ih =>
    rw [← ih]
    simp only [linesCut, hc.nul, hc.newline, hc.step, false_and, if_false]

/-! ### Scanning -/

/-- From the cursor `cur` in mode `m` the lexer comes to `cur'` in mode `m'`, and what it records
on the way is what the modes say. -/
structure Scans (lx : Lexer) (m : LexMode) (cur : List Char) (out : Sinks) (m' : LexMode)
    (cur' : List Char) (out' : Sinks) : Prop where
  terminated : Terminated cur'
  suffix : cur' <:+ cur
  lines : ∃ new, out'.linePos = out.linePos.map (· ++ new) ∧
    ∀ cut, linesCut lx cut m cur = (linesCut lx cut m' cur').map (new ++ ·)

/-- What is recorded is what the modes say of a text that is not read beyond its NUL. -/
theorem Scans.recorded {lx : Lexer} {m m' : LexMode} {cur cur' : List Char} {out out' : Sinks}
    (h : Scans lx m cur out m' cur' out') : ∃ new, out'.linePos = out.linePos.map (· ++ new) ∧
      Front.lines lx m cur = (Front.lines lx m' cur').map (new ++ ·) := by
  obtain ⟨new, hout, hlines⟩ := h.lines
  refine ⟨new, hout, ?_⟩
  rw [← linesCut_none, ← linesCut_none, hlines]

theorem Scans.trans {lx : Lexer} {m₁ m₂ m₃ : LexMode} {cur₁ cur₂ cur₃ : List Char}
    {out₁ out₂ out₃ : Sinks} (h : Scans lx m₁ cur₁ out₁ m₂ cur₂ out₂)
    (h' : Scans lx m₂ cur₂ out₂ m₃ cur₃ out₃) : Scans lx m₁ cur₁ out₁ m₃ cur₃ out₃ := by
  obtain ⟨new, hout, hlines⟩ := h.lines
  obtain ⟨new', hout', hlines'⟩ := h'.lines
  refine ⟨h'.terminated, h'.suffix.trans h.suffix, new ++ new', ?_, ?_⟩
  · rw [hout', hout, Option.map_map]
    simp only [Function.comp_def, List.append_assoc]
  · intro cut
    rw [hlines, hlines', Option.map_map]
    simp only [Function.comp_def, List.append_assoc]

/-- Nothing is recorded, and the modes record nothing either. -/
theorem Scans.silent {lx : Lexer} {m m' : LexMode} {cur cur' : List Char} {out out' : Sinks}
    (hcur : Terminated cur') (hsuf : cur' <:+ cur)
    (hlines : ∀ cut, linesCut lx cut m cur = linesCut lx cut m' cur') (hout : out'.linePos = out.linePos) :
    Scans lx m cur out m' cur' out' :=
  ⟨hcur, hsuf, [], by simp [hout], by simp [hlines]⟩

theorem Idles.scans {lx : Lexer} {m : LexMode} {cur cur' : List Char} {out out' : Sinks}
    (h : Idles m cur cur') (hcur : Terminated cur) (hout : out'.linePos = out.linePos) :
    Scans lx m cur out m cur' out' :=
  .silent (h.terminated hcur) h.suffix h.lines hout

/-- The modes agree on the text from the cursor, so the lexer may be taken to be in either. -/
theorem Scans.here {lx : Lexer} {m m' : LexMode} {cur : List Char} {out : Sinks}
    (hcur : Terminated cur) (h : ∀ cut, linesCut lx cut m cur = linesCut lx cut m' cur) :
    Scans lx m cur out m' cur out :=
  .silent hcur List.suffix_rfl h rfl

/-- A character that is no newline. -/
theorem Scans.step {lx : Lexer} {m : LexMode} {c : Char} {cs : List Char} {out out' : Sinks}
    (hcur : Terminated (c :: cs)) (hnul : c ≠ '\x00') (hline : c ≠ '\n')
    (hout : out'.linePos = out.linePos) : Scans lx m (c :: cs) out (m.step c) cs out' := by
  refine .silent (hcur.tail hnul) (List.suffix_cons _ _) (fun cut => ?_) hout
  simp only [linesCut, hnul, hline, false_and, if_false]

/-- The same, with the mode that the character leads to. -/
theorem Scans.stepTo (lx : Lexer) {m m' : LexMode} {c : Char} {cs : List Char} (out : Sinks)
    (hcur : Terminated (c :: cs)) (hnul : c ≠ '\x00') (hline : c ≠ '\n') (hstep : m.step c = m') :
    Scans lx m (c :: cs) out m' cs out := by
  subst hstep
  exact .step hcur hnul hline rfl

/-- A newline that is recorded. -/
theorem Scans.onLine {lx : Lexer} {m : LexMode} {cs : List Char} {out out' : Sinks}
    (hcur : Terminated ('\n' :: cs)) (hm : m.isEscape = false) (hout : out'.linePos = out.linePos) :
    Scans lx m ('\n' :: cs) out (m.step '\n') cs (lx.onLine ('\n' :: cs) out') := by
  refine ⟨hcur.tail (by decide), List.suffix_cons _ _,
    [progPos (lx.calcPos ('\n' :: cs) + 1)], ?_, ?_⟩
  · rw [← hout]
    rfl
  · intro cut
    have hnul : ¬ ('\n' = '\x00') := by decide
    simp only [linesCut, hnul, hm, and_self, if_true, if_false]
    rfl

/-- An escaped newline is taken without a record. -/
theorem Scans.escape {lx : Lexer} {m : LexMode} {c : Char} {cs : List Char} {out out' : Sinks}
    (hcur : Terminated (c :: cs)) (hnul : c ≠ '\x00') (hm : m.isEscape = true)
    (hout : out'.linePos = out.linePos) : Scans lx m (c :: cs) out (m.step c) cs out' := by
  refine .silent (hcur.tail hnul) (List.suffix_cons _ _) (fun cut => ?_) hout
  simp only [linesCut, hnul, hm, Bool.true_eq_false, and_false, if_false]

/-! ### Results -/

/-- The result of a function of the lexer: cursor and sinks are `view` of it. -/
def Follows {β : Type} (view : β → List Char × Sinks) (lx : Lexer) (m : LexMode)
    (cur : List Char) (out : Sinks) (m' : LexMode) (r : Option β) : Prop :=
  match r with
  | none => lines lx m cur = none
  | some b => Scans lx m cur out m' (view b).1 (view b).2

theorem Follows.after {β : Type} {view : β → List Char × Sinks} {lx : Lexer}
    {m m₁ m' : LexMode} {cur cur₁ : List Char} {out out₁ : Sinks} {r : Option β}
    (h : Scans lx m cur out m₁ cur₁ out₁) (hr : Follows view lx m₁ cur₁ out₁ m' r) :
    Follows view lx m cur out m' r := by
  cases r with
  | none =>
    obtain ⟨new, -, hlines⟩ := h.recorded
    have hnone : lines lx m₁ cur₁ = none := hr
    show lines lx m cur = none
    rw [hlines, hnone]
    rfl
  | some b => exact h.trans hr

/-- Two functions one after the other. -/
theorem Follows.bind {β γ : Type} {view : β → List Char × Sinks} {view' : γ → List Char × Sinks}
    {lx : Lexer} {m m₁ m' : LexMode} {cur : List Char} {out : Sinks} {r : Option β}
    {f : β → Option γ} (h : Follows view lx m cur out m₁ r)
    (hf : ∀ b, Scans lx m cur out m₁ (view b).1 (view b).2 →
      Follows view' lx m₁ (view b).1 (view b).2 m' (f b)) :
    Follows view' lx m cur out m' (r >>= f) := by
  cases r with
  | none => exact h
  | some b => exact .after h (hf b h)

end Nibble.Front
