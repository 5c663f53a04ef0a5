import Mathlib.Data.List.DropRight
import Nibble.Front.LexSteps

/-!
# Words, numbers and operators

What is read outside of comments and literals is idle in code: no function here fails on a
terminated text, and none records a line.
-/

namespace Nibble.Front

/-! ### Idle characters -/

theorem isAlphanum_of_isDecDigit {c : Char} (h : isDecDigit c = true) : isAlphanum c = true := by
  simp only [isAlphanum, h, Bool.true_or]

theorem isAlphanum_of_biasedDigit {c : Char} (h : biasedDigit c ≠ 0) : isAlphanum c = true := by
  unfold biasedDigit at h
  unfold isAlphanum
  split at h
  · next hd => simp only [hd, Bool.true_or]
  · split at h
    · next hc =>
      simp only [Bool.and_eq_true, decide_eq_true_eq] at hc
      have hz : c ≤ 'z' := Char.le_trans hc.2 (by decide)
      simp only [hc.1, hz, decide_true, Bool.true_and, Bool.or_true]
    · split at h
      · next hc =>
        simp only [Bool.and_eq_true, decide_eq_true_eq] at hc
        have hz : c ≤ 'Z' := Char.le_trans hc.2 (by decide)
        simp only [hc.1, hz, decide_true, Bool.true_and, Bool.or_true, Bool.true_or]
      · exact absurd rfl h

theorem ne_of_isAlphanum {c d : Char} (h : isAlphanum c = true) (hd : isAlphanum d = false) :
    c ≠ d := by
  rintro rfl
  rw [h] at hd
  exact Bool.noConfusion hd

theorem idle_code {c : Char} (hnul : c ≠ '\x00') (hline : c ≠ '\n') (hstr : c ≠ '"')
    (hchr : c ≠ '\'') (hslash : c ≠ '/') : LexMode.code.Idle c :=
  ⟨hnul, hline, by simp only [LexMode.step, LexMode.codeStep, hstr, hchr, hslash, if_false]⟩

theorem idle_code_of_alphanum {c : Char} (h : isAlphanum c = true) : LexMode.code.Idle c :=
  idle_code (ne_of_isAlphanum h (by decide)) (ne_of_isAlphanum h (by decide))
    (ne_of_isAlphanum h (by decide)) (ne_of_isAlphanum h (by decide))
    (ne_of_isAlphanum h (by decide))

theorem idle_string_of_alphanum {c : Char} (h : isAlphanum c = true) : LexMode.string.Idle c := by
  refine ⟨ne_of_isAlphanum h (by decide), ne_of_isAlphanum h (by decide), ?_⟩
  simp only [LexMode.step, ne_of_isAlphanum h (show isAlphanum '"' = false by decide),
    ne_of_isAlphanum h (show isAlphanum '\n' = false by decide),
    ne_of_isAlphanum h (show isAlphanum '\\' = false by decide), if_false]

theorem idle_charTail_of_alphanum {c : Char} (h : isAlphanum c = true) :
    LexMode.charTail.Idle c :=
  ⟨ne_of_isAlphanum h (by decide), ne_of_isAlphanum h (by decide), by
    simp only [LexMode.step, h, if_true]⟩

/-! ### Skipping -/

theorem skipWhile_idles {m : LexMode} {p : Char → Bool} (hp : ∀ c, p c = true → m.Idle c)
    {cur : List Char} (h : Terminated cur) :
    ∃ cur', skipWhile p cur = some cur' ∧ Idles m cur cur' := by
  induction h with
  | nul =>
    by_cases hnul : p '\x00' = true
    · exact absurd rfl (hp _ hnul).nul
    · exact ⟨_, by simp only [skipWhile, hnul]; rfl, .refl _⟩
  | @cons c cs hc _ ih =>
    by_cases hpc : p c = true
    · obtain ⟨cur', hskip, hidle⟩ := ih
      exact ⟨cur', by simp only [skipWhile, hpc, if_true, hskip], .cons (hp c hpc) hidle⟩
    · exact ⟨_, by simp only [skipWhile, hpc]; rfl, .refl _⟩

theorem eq_dropWhile_of_skipWhile {p : Char → Bool} {cur cur' : List Char}
    (h : skipWhile p cur = some cur') : cur' = cur.dropWhile p := by
  induction cur with
  | nil => cases h
  | cons c cs ih =>
    by_cases hpc : p c = true
    · simp only [skipWhile, hpc, if_true] at h
      rw [List.dropWhile_cons_of_pos hpc]
      exact ih h
    · simp only [skipWhile, hpc] at h
      rw [List.dropWhile_cons_of_neg hpc]
      exact (Option.some.inj h).symm

theorem skipWordEnd_idles {m : LexMode} (hm : ∀ c, isAlphanum c = true → m.Idle c)
    {cur : List Char} (h : Terminated cur) :
    ∃ cur', skipWordEnd cur = some cur' ∧ Idles m cur cur' :=
  skipWhile_idles (fun c hc => hm c (Bool.and_eq_true_iff.mp hc).2) h

theorem skipDecDigits_idles {cur : List Char} (h : Terminated cur) :
    ∃ cur', skipDecDigits cur = some cur' ∧ Idles .code cur cur' :=
  skipWhile_idles (fun _ hc => idle_code_of_alphanum (isAlphanum_of_isDecDigit hc)) h

theorem skipChar_idles {m : LexMode} {c : Char} (hc : m.Idle c) {cur : List Char}
    (h : Terminated cur) : ∃ cur', skipChar c cur = some cur' ∧ Idles m cur cur' := by
  obtain ⟨d, ds, rfl, -⟩ := h.exists_cons
  by_cases hd : d = c
  · exact ⟨ds, by simp [skipChar, hd], hd ▸ .one hc⟩
  · exact ⟨d :: ds, by simp [skipChar, hd], .refl _⟩

/-! ### Integers -/

/-- Idle characters are read, and no line is recorded. -/
structure ReadsTo (cur : List Char) (out : Sinks) (cur' : List Char) (out' : Sinks) : Prop where
  idles : Idles .code cur cur'
  linePos : out'.linePos = out.linePos

theorem ReadsTo.scans {lx : Lexer} {cur cur' : List Char} {out out' : Sinks}
    (h : ReadsTo cur out cur' out') (hcur : Terminated cur) :
    Scans lx .code cur out .code cur' out' := h.idles.scans hcur h.linePos

theorem ReadsTo.length_le {cur cur' : List Char} {out out' : Sinks}
    (h : ReadsTo cur out cur' out') : cur'.length ≤ cur.length := h.idles.suffix.length_le

theorem scanDigits_idles (base max : Nat) {cur : List Char} (value : Nat) (h : Terminated cur) :
    ∃ err v cur', scanDigits base max cur value = some (err, v, cur') ∧ Idles .code cur cur' := by
  fun_induction scanDigits base max cur value with
  | case1 => exact nomatch h
  | case2 c cs value _ => exact ⟨_, _, _, rfl, .refl _⟩
  | case3 => exact ⟨_, _, _, rfl, .refl _⟩
  | case4 => exact ⟨_, _, _, rfl, .refl _⟩
  | case5 c value hb _ _ =>
    have hnul := ne_of_isAlphanum (isAlphanum_of_biasedDigit hb) (d := '\x00') (by decide)
    exact nomatch h.tail hnul
  | case6 c value hb _ _ ds ih =>
    have hidle := idle_code_of_alphanum (isAlphanum_of_biasedDigit hb)
    have hds := (h.tail hidle.nul).tail (by decide)
    obtain ⟨err, v, cur', hscan, hcur'⟩ := ih hds
    exact ⟨err, v, cur', hscan, .cons hidle (.cons (idle_code_of_alphanum (by decide)) hcur')⟩
  | case7 c value hb _ _ d ds _ ih =>
    have hidle := idle_code_of_alphanum (isAlphanum_of_biasedDigit hb)
    obtain ⟨err, v, cur', hscan, hcur'⟩ := ih (h.tail hidle.nul)
    exact ⟨err, v, cur', hscan, .cons hidle hcur'⟩

theorem biasedDigit_of_isDecDigit {c : Char} (h : isDecDigit c = true) :
    biasedDigit c ≠ 0 ∧ biasedDigit c - 1 < 10 := by
  have hb : biasedDigit c = c.toNat - '0'.toNat + 1 := by
    simp only [biasedDigit, h, if_true]
  simp only [isDecDigit, Bool.and_eq_true, decide_eq_true_eq, Char.le_def,
    UInt32.le_iff_toNat_le] at h
  have h9 : c.toNat ≤ 57 := h.2
  have h0 : '0'.toNat = 48 := rfl
  omega

/-- The first digit of a decimal number is read. -/
theorem scanDigits_progress {max : Nat} {c : Char} {cs cur' : List Char}
    {err : ScanDigitsErr} {v : Nat} (hcur : Terminated (c :: cs)) (hc : isDecDigit c = true)
    (h : scanDigits 10 max (c :: cs) 0 = some (err, v, cur')) : cur'.length ≤ cs.length := by
  obtain ⟨hb, hlt⟩ := biasedDigit_of_isDecDigit hc
  have hcs := hcur.tail (idle_code_of_alphanum (isAlphanum_of_isDecDigit hc)).nul
  rw [scanDigits.eq_def] at h
  simp only [hb, if_false, show ¬ biasedDigit c - 1 ≥ 10 by omega, Nat.not_lt_zero, gt_iff_lt] at h
  split at h
  · cases h
  · next d ds =>
    split at h
    · next hd =>
      obtain ⟨_, _, _, hscan, hidle⟩ := scanDigits_idles 10 max
        (0 * 10 + (biasedDigit c - 1)) (hcs.tail (by rw [hd]; decide))
      rw [hscan] at h
      cases h
      exact hidle.suffix.length_le.trans (Nat.le_succ _)
    · obtain ⟨_, _, _, hscan, hidle⟩ := scanDigits_idles 10 max
        (0 * 10 + (biasedDigit c - 1)) hcs
      rw [hscan] at h
      cases h
      exact hidle.suffix.length_le

theorem scanBase_idles {c : Char} {cs : List Char} (h : Terminated (c :: cs)) :
    ∃ rep base cur', scanBase (c :: cs) = some (rep, base, cur') ∧ Idles .code (c :: cs) cur' ∧
      (cur' = c :: cs ∧ base = 10 ∨ cur'.length ≤ cs.length) := by
  by_cases hc : c = '0'
  · subst hc
    have hzero : LexMode.code.Idle '0' := idle_code_of_alphanum (by decide)
    have hcs := h.tail (by decide)
    obtain ⟨d, ds, rfl, -⟩ := hcs.exists_cons
    by_cases hx : d = 'x' ∨ d = 'X'
    · have hd : LexMode.code.Idle d :=
        idle_code_of_alphanum (by rcases hx with rfl | rfl <;> decide)
      exact ⟨.hex, 16, ds, by simp [scanBase, hx], .cons hzero (.one hd), .inr (by simp)⟩
    · by_cases hb : d = 'b' ∨ d = 'B'
      · have hd : LexMode.code.Idle d :=
          idle_code_of_alphanum (by rcases hb with rfl | rfl <;> decide)
        exact ⟨.bin, 2, ds, by simp [scanBase, hx, hb], .cons hzero (.one hd), .inr (by simp)⟩
      · by_cases ho : isDecDigit d = true
        · exact ⟨.oct, 8, d :: ds, by simp [scanBase, hx, hb, ho], .one hzero, .inr (by simp)⟩
        · exact ⟨.dec, 10, d :: ds, by simp [scanBase, hx, hb, ho], .one hzero, .inr (by simp)⟩
  · exact ⟨.dec, 10, c :: cs, by simp [scanBase, hc], .refl _, .inl ⟨rfl, rfl⟩⟩

theorem scanSuffix_idles {cur : List Char} (h : Terminated cur) :
    ∃ suffix cur', scanSuffix cur = some (suffix, cur') ∧ Idles .code cur cur' := by
  obtain ⟨c, cs, rfl, -⟩ := h.exists_cons
  by_cases hu : c = 'u'
  · exact ⟨.u, cs, by simp [scanSuffix, hu], hu ▸ .one (idle_code_of_alphanum (by decide))⟩
  · by_cases hs : c = 's'
    · exact ⟨.s, cs, by simp [scanSuffix, hs], hs ▸ .one (idle_code_of_alphanum (by decide))⟩
    · exact ⟨.none, c :: cs, by simp [scanSuffix, hu, hs], .refl _⟩

theorem scanInt_reads (lx : Lexer) {c : Char} {cs : List Char} (out : Sinks)
    (h : Terminated (c :: cs)) (hc : isDecDigit c = true) :
    ∃ tint cur' out', scanInt lx (c :: cs) out = some (tint, cur', out') ∧
      ReadsTo (c :: cs) out cur' out' ∧ cur'.length ≤ cs.length := by
  obtain ⟨rep, base, cur₁, hbase, hidle₁, hmoves⟩ := scanBase_idles h
  have h₁ := hidle₁.terminated h
  obtain ⟨e, es, rfl, -⟩ := h₁.exists_cons
  obtain ⟨cur₂, hword, hidle₂⟩ := skipWordEnd_idles (fun _ => idle_code_of_alphanum) h₁
  by_cases hspec : biasedDigit e = 0 ∧ base ≠ 10
  · refine ⟨⟨0, rep, .none⟩, cur₂, out.onError (lx.rangeFrom (c :: cs) (e :: es))
      "Invalid integer literal character '%c' after base specifier" [.char e], ?_,
      ⟨hidle₁.trans hidle₂, rfl⟩, ?_⟩
    · simp only [scanInt, List.head?_cons, Option.bind_eq_bind, Option.bind_some, hc, guard_true,
        Option.pure_def, hbase, hspec, and_self, if_true, ne_eq, not_false_eq_true, hword]
    · rcases hmoves with ⟨-, hten⟩ | hmoves
      · exact absurd hten hspec.2
      · exact Nat.le_trans hidle₂.suffix.length_le hmoves
  · obtain ⟨err, v, cur₃, hdigits, hidle₃⟩ := scanDigits_idles base (2 ^ 64 - 1) 0 h₁
    have hshort : cur₃.length ≤ cs.length := by
      rcases hmoves with ⟨hsame, rfl⟩ | hmoves
      · obtain ⟨rfl, rfl⟩ := List.cons.inj hsame
        exact scanDigits_progress h hc hdigits
      · exact Nat.le_trans hidle₃.suffix.length_le hmoves
    have h₃ := hidle₃.terminated h₁
    obtain ⟨cur₄, hword₄, hidle₄⟩ := skipWordEnd_idles (fun _ => idle_code_of_alphanum) h₃
    obtain ⟨suffix, cur₅, hsuffix, hidle₅⟩ := scanSuffix_idles h₃
    have h₅ := hidle₅.terminated h₃
    obtain ⟨cur₆, hword₆, hidle₆⟩ := skipWordEnd_idles (fun _ => idle_code_of_alphanum) h₅
    obtain ⟨f, fs, rfl, -⟩ := h₃.exists_cons
    obtain ⟨g, gs, rfl, -⟩ := h₅.exists_cons
    have hrun := scanInt.eq_def lx (c :: cs) out
    simp only [List.head?_cons, Option.bind_eq_bind, Option.bind_some, hc, guard_true,
      Option.pure_def, hbase, hspec, if_false, hdigits, hword₄, hsuffix, hword₆] at hrun
    have hread := hidle₁.trans hidle₃
    cases err with
    | exceedBase =>
      exact ⟨_, _, _, hrun, ⟨hread.trans hidle₄, rfl⟩, Nat.le_trans hidle₄.suffix.length_le hshort⟩
    | overflow =>
      exact ⟨_, _, _, hrun, ⟨hread.trans hidle₄, rfl⟩, Nat.le_trans hidle₄.suffix.length_le hshort⟩
    | none =>
      have hshort₅ := Nat.le_trans hidle₅.suffix.length_le hshort
      by_cases hg : isAlphanum g = true
      · simp only [hg, if_true] at hrun
        exact ⟨_, _, _, hrun, ⟨(hread.trans hidle₅).trans hidle₆, rfl⟩,
          Nat.le_trans hidle₆.suffix.length_le hshort₅⟩
      · simp only [hg] at hrun
        exact ⟨_, _, _, hrun, ⟨hread.trans hidle₅, rfl⟩, hshort₅⟩

/-! ### Floating-point numbers -/

theorem scanExponent_idles {cur : List Char} (h : Terminated cur) :
    ∃ bad cur', scanExponent cur = some (bad, cur') ∧ Idles .code cur cur' ∧
      (bad = none → cur' = exponentEnd cur) := by
  obtain ⟨c, cs, rfl, -⟩ := h.exists_cons
  by_cases he : c = 'e' ∨ c = 'E'
  · have hc : LexMode.code.Idle c :=
      idle_code_of_alphanum (by rcases he with rfl | rfl <;> decide)
    have hcs := h.tail hc.nul
    obtain ⟨s, ss, rfl, -⟩ := hcs.exists_cons
    -- The sign, if there is one, and what is left of the exponent.
    obtain ⟨power, hpower, hidle⟩ : ∃ power,
        (if s = '-' ∨ s = '+' then ss else s :: ss) = power ∧ Idles .code (s :: ss) power := by
      by_cases hs : s = '-' ∨ s = '+'
      · refine ⟨ss, if_pos hs, .one ?_⟩
        rcases hs with rfl | rfl <;>
          exact idle_code (by decide) (by decide) (by decide) (by decide) (by decide)
      · exact ⟨s :: ss, if_neg hs, .refl _⟩
    have hp := hidle.terminated hcs
    obtain ⟨cur', hskip, hdigits⟩ := skipDecDigits_idles hp
    obtain ⟨d, ds, rfl, -⟩ := hp.exists_cons
    by_cases hd : isDecDigit d = true
    · refine ⟨none, cur', ?_, .cons hc (hidle.trans hdigits), fun _ => ?_⟩
      · simp [scanExponent, he, hpower, hd, hskip]
      · rw [eq_dropWhile_of_skipWhile hskip]
        simp [exponentEnd, startsWithDigit, he, hpower, hd]
    · exact ⟨some d, d :: ds, by simp [scanExponent, he, hpower, hd], .cons hc hidle, nofun⟩
  · exact ⟨none, c :: cs, by simp [scanExponent, he], .refl _,
      fun _ => by simp [exponentEnd, he]⟩

theorem floatValue_reads (lx : Lexer) (start : List Char) {cur : List Char} (out : Sinks)
    (h : Terminated cur) (hend : strtodEnd start = cur) :
    ∃ tfloat cur' out', floatValue lx start cur out = some (tfloat, cur', out') ∧
      ReadsTo cur out cur' out' := by
  obtain ⟨c, cs, rfl, -⟩ := h.exists_cons
  by_cases hf : c = 'f' ∨ c = 'F'
  · have hc : LexMode.code.Idle c :=
      idle_code_of_alphanum (by rcases hf with rfl | rfl <;> decide)
    cases hv : lx.strtof start with
    | none =>
      exact ⟨⟨.f64, 0⟩, cs, out.onError (lx.rangeFrom start cs)
        "32-bit floating-point literal is too large" [], by simp [floatValue, hf, hend, hv],
        .one hc, rfl⟩
    | some bits => exact ⟨⟨.f32, bits⟩, cs, out, by simp [floatValue, hf, hend, hv], .one hc, rfl⟩
  · cases hv : lx.strtod start with
    | none =>
      exact ⟨⟨.f64, 0⟩, c :: cs, out.onError (lx.rangeFrom start (c :: cs))
        "64-bit floating-point literal is too large" [], by simp [floatValue, hf, hend, hv],
        .refl _, rfl⟩
    | some bits =>
      exact ⟨⟨.f64, bits⟩, c :: cs, out, by simp [floatValue, hf, hend, hv], .refl _, rfl⟩

/-- A digit, or a point and a digit. -/
def FloatStart (start : List Char) : Prop :=
  startsWithDigit start = true ∨ start.head? = some '.' ∧ startsWithDigit start.tail = true

/-- The digits and the point of a number; at least one character is read. -/
theorem mantissa_idles {c : Char} {cs : List Char} (h : Terminated (c :: cs))
    (hstart : FloatStart (c :: cs)) :
    ∃ cur₁ cur₂ cur₃, skipDecDigits (c :: cs) = some cur₁ ∧ skipChar '.' cur₁ = some cur₂ ∧
      skipDecDigits cur₂ = some cur₃ ∧ Idles .code (c :: cs) cur₃ ∧ cur₃.length ≤ cs.length ∧
      strtodEnd (c :: cs) = exponentEnd cur₃ := by
  have hpoint : LexMode.code.Idle '.' :=
    idle_code (by decide) (by decide) (by decide) (by decide) (by decide)
  obtain ⟨cur₁, hskip₁, hidle₁⟩ := skipDecDigits_idles h
  have h₁ := hidle₁.terminated h
  obtain ⟨cur₂, hskip₂, hidle₂⟩ := skipChar_idles hpoint h₁
  obtain ⟨cur₃, hskip₃, hidle₃⟩ := skipDecDigits_idles (hidle₂.terminated h₁)
  refine ⟨cur₁, cur₂, cur₃, hskip₁, hskip₂, hskip₃, (hidle₁.trans hidle₂).trans hidle₃, ?_, ?_⟩
  · have hle := (hidle₂.trans hidle₃).suffix.length_le
    by_cases hc : isDecDigit c = true
    · refine Nat.le_trans hle ?_
      rw [eq_dropWhile_of_skipWhile hskip₁, List.dropWhile_cons_of_pos hc]
      exact (List.dropWhile_suffix _).length_le
    · have hdot : c = '.' := by
        rcases hstart with hd | ⟨hdot, -⟩
        · exact absurd (by simpa [startsWithDigit] using hd) hc
        · exact Option.some.inj hdot
      subst hdot
      have hcur₁ : cur₁ = '.' :: cs := by
        rw [eq_dropWhile_of_skipWhile hskip₁, List.dropWhile_cons_of_neg hc]
      subst hcur₁
      have hcur₂ : cur₂ = cs := by simpa [skipChar] using hskip₂.symm
      subst hcur₂
      exact hidle₃.suffix.length_le
  · have hmant : (if cur₁.head? = some '.' then cur₁.tail.dropWhile isDecDigit else cur₁) = cur₃ := by
      obtain ⟨e, es, rfl, -⟩ := h₁.exists_cons
      rw [eq_dropWhile_of_skipWhile hskip₃]
      by_cases he : e = '.'
      · have hcur₂ : cur₂ = es := by simpa [skipChar, he] using hskip₂.symm
        simp [he, hcur₂]
      · have hcur₂ : cur₂ = e :: es := by simpa [skipChar, he] using hskip₂.symm
        simp only [List.head?_cons, Option.some.injEq, he, if_false, hcur₂]
        rw [eq_dropWhile_of_skipWhile hskip₁, List.dropWhile_idempotent]
    unfold FloatStart at hstart
    rw [strtodEnd, if_pos hstart, ← hmant, eq_dropWhile_of_skipWhile hskip₁]

theorem scanFloat_reads (lx : Lexer) {c : Char} {cs : List Char} (out : Sinks)
    (h : Terminated (c :: cs)) (hstart : FloatStart (c :: cs)) :
    ∃ tfloat cur' out', scanFloat lx (c :: cs) out = some (tfloat, cur', out') ∧
      ReadsTo (c :: cs) out cur' out' ∧ cur'.length ≤ cs.length := by
  obtain ⟨cur₁, cur₂, cur₃, hskip₁, hskip₂, hskip₃, hidle₃, hshort, hend⟩ :=
    mantissa_idles h hstart
  have h₃ := hidle₃.terminated h
  obtain ⟨bad, cur₄, hexp, hidle₄, hgood⟩ := scanExponent_idles h₃
  have h₄ := hidle₄.terminated h₃
  have hfirst : isDecDigit c = true ∨ c = '.' := by
    rcases hstart with hd | ⟨hdot, -⟩
    · exact .inl (by simpa [startsWithDigit] using hd)
    · exact .inr (Option.some.inj hdot)
  have hle₄ := Nat.le_trans hidle₄.suffix.length_le hshort
  cases bad with
  | some d =>
    obtain ⟨cur₅, hword, hidle₅⟩ := skipWordEnd_idles (fun _ => idle_code_of_alphanum) h₄
    refine ⟨⟨.f64, 0⟩, cur₅, out.onError (lx.rangeFrom (c :: cs) cur₄)
      "Unexpected character '%c' after floating point literal's exponent" [.char d], ?_,
      ⟨(hidle₃.trans hidle₄).trans hidle₅, rfl⟩, Nat.le_trans hidle₅.suffix.length_le hle₄⟩
    simp [scanFloat, hfirst, hskip₁, hskip₂, hskip₃, hexp, hword]
  | none =>
    obtain ⟨tfloat, cur', out', hvalue, hread⟩ := floatValue_reads lx (c :: cs) out h₄
      (hend.trans (hgood rfl).symm)
    refine ⟨tfloat, cur', out', ?_, ⟨(hidle₃.trans hidle₄).trans hread.idles, hread.linePos⟩,
      Nat.le_trans hread.length_le hle₄⟩
    simp [scanFloat, hfirst, hskip₁, hskip₂, hskip₃, hexp, hvalue]

/-! ### Operators and words -/

/-- A character that opens no comment and no literal. -/
def isPlain (c : Char) : Bool :=
  c ≠ '\x00' && c ≠ '\n' && c ≠ '"' && c ≠ '\'' && c ≠ '/'

theorem idle_code_of_plain {c : Char} (h : isPlain c = true) : LexMode.code.Idle c := by
  simp only [isPlain, Bool.and_eq_true, decide_eq_true_eq] at h
  exact idle_code h.1.1.1.1 h.1.1.1.2 h.1.1.2 h.1.2 h.2

/-- An operator reads plain characters and is not the end of the file. -/
def ReadsOp (op : List Char → Option (TokenKind × List Char)) : Prop :=
  ∀ cur, Terminated cur →
    ∃ kind cur', op cur = some (kind, cur') ∧ Idles .code cur cur' ∧ kind ≠ .eof

theorem opWith_reads (kind : TokenKind) (longer : List (Char × TokenKind))
    (hkind : kind ≠ .eof) (hlonger : ∀ p ∈ longer, isPlain p.1 = true ∧ p.2 ≠ .eof) :
    ReadsOp (opWith kind longer) := by
  intro cur h
  obtain ⟨c, cs, rfl, -⟩ := h.exists_cons
  cases hfind : longer.lookup c with
  | none => exact ⟨kind, c :: cs, by simp [opWith, hfind], .refl _, hkind⟩
  | some kind' =>
    obtain ⟨l₁, l₂, rfl, -⟩ := List.lookup_eq_some_iff.mp hfind
    obtain ⟨hplain, hkind'⟩ := hlonger (c, kind') (by simp)
    exact ⟨kind', cs, by simp [opWith, hfind], .one (idle_code_of_plain hplain), hkind'⟩

theorem opThen_reads {first : Char} {op otherwise : List Char → Option (TokenKind × List Char)}
    (hfirst : isPlain first = true) (hop : ReadsOp op) (hother : ReadsOp otherwise) :
    ReadsOp (opThen first op otherwise) := by
  intro cur h
  obtain ⟨c, cs, rfl, -⟩ := h.exists_cons
  by_cases hc : c = first
  · subst hc
    have hidle := idle_code_of_plain hfirst
    obtain ⟨kind, cur', hrun, hread, hkind⟩ := hop cs (h.tail hidle.nul)
    exact ⟨kind, cur', by simp [opThen, hrun], .cons hidle hread, hkind⟩
  · obtain ⟨kind, cur', hrun, hread, hkind⟩ := hother _ h
    exact ⟨kind, cur', by simp [opThen, hc, hrun], hread, hkind⟩

theorem scanMinus_reads : ReadsOp scanMinus := by
  intro cur h
  obtain ⟨c, cs, rfl, -⟩ := h.exists_cons
  by_cases heq : c = '='
  · exact ⟨.subAssign, cs, by simp [scanMinus, heq],
      heq ▸ .one (idle_code_of_plain (by decide)), nofun⟩
  · by_cases hminus : c = '-'
    · subst hminus
      have hidle : LexMode.code.Idle '-' := idle_code_of_plain (by decide)
      obtain ⟨d, ds, rfl, -⟩ := (h.tail hidle.nul).exists_cons
      by_cases hd : d = '-'
      · subst hd
        exact ⟨.uninit, ds, by simp [scanMinus], .cons hidle (.one hidle), nofun⟩
      · exact ⟨.minus, '-' :: d :: ds, by simp [scanMinus, hd], .refl _, nofun⟩
    · exact ⟨.minus, c :: cs, by simp [scanMinus, heq, hminus], .refl _, nofun⟩

theorem scanOperator_reads {c : Char} {op : List Char → Option (TokenKind × List Char)}
    (h : scanOperator c = some op) : isPlain c = true ∧ ReadsOp op := by
  unfold scanOperator at h
  split at h
  case h_8 | h_16 | h_17 =>
    cases h
    exact ⟨by decide, opThen_reads (by decide) (opWith_reads _ _ (by decide) (by decide))
      (opWith_reads _ _ (by decide) (by decide))⟩
  case h_12 =>
    cases h
    exact ⟨by decide, scanMinus_reads⟩
  case h_24 => cases h
  all_goals
    cases h
    exact ⟨by decide, opWith_reads _ _ (by decide) (by decide)⟩

theorem scanIdent_reads (lx : Lexer) {c : Char} {cs : List Char} (out : Sinks)
    (h : Terminated (c :: cs)) (hc : isIdentStart c = true) :
    ∃ kind value cur' out', scanIdent lx (c :: cs) out = some (kind, value, cur', out') ∧
      ReadsTo (c :: cs) out cur' out' ∧ cur'.length ≤ cs.length ∧ kind ≠ .eof := by
  have hidle : LexMode.code.Idle c := by
    by_cases hhash : c = '#'
    · exact idle_code_of_plain (by rw [hhash]; decide)
    · refine idle_code_of_alphanum ?_
      simp only [isIdentStart, hhash, decide_false, Bool.or_false, Bool.or_eq_true] at hc
      simp only [isAlphanum, Bool.or_eq_true]
      tauto
  obtain ⟨cur, hskip, hread⟩ := skipWhile_idles (fun _ => idle_code_of_alphanum)
    (h.tail hidle.nul)
  have hidles : Idles .code (c :: cs) cur := .cons hidle hread
  have hlen := hread.suffix.length_le
  have hrun := scanIdent.eq_def lx (c :: cs) out
  simp only [List.tail_cons, Option.bind_eq_bind, hskip, Option.bind_some] at hrun
  split at hrun
  · exact ⟨_, _, _, _, hrun, ⟨hidles, rfl⟩, hlen, nofun⟩
  · split at hrun
    · exact ⟨_, _, _, _, hrun, ⟨hidles, rfl⟩, hlen, nofun⟩
    · exact ⟨_, _, _, _, hrun, ⟨hidles, rfl⟩, hlen, nofun⟩

theorem scanNumber_reads (lx : Lexer) {c : Char} {cs : List Char} (out : Sinks)
    (h : Terminated (c :: cs)) (hc : isDecDigit c = true) :
    ∃ kind value cur' out', scanNumber lx (c :: cs) out = some (kind, value, cur', out') ∧
      ReadsTo (c :: cs) out cur' out' ∧ cur'.length ≤ cs.length ∧ kind ≠ .eof := by
  obtain ⟨p, hskip, hidle⟩ := skipDecDigits_idles h
  obtain ⟨e, es, rfl, -⟩ := (hidle.terminated h).exists_cons
  by_cases he : e = '.' ∨ e = 'e' ∨ e = 'E'
  · obtain ⟨tfloat, cur', out', hscan, hread, hlen⟩ := scanFloat_reads lx out h
      (.inl (by simpa [startsWithDigit] using hc))
    exact ⟨.float, .asFloat tfloat, cur', out',
      by simp [scanNumber, hskip, he, or_assoc, hscan], hread, hlen, nofun⟩
  · obtain ⟨tint, cur', out', hscan, hread, hlen⟩ := scanInt_reads lx out h hc
    exact ⟨.int, .asInt tint, cur', out',
      by simp [scanNumber, hskip, he, or_assoc, hscan], hread, hlen, nofun⟩

theorem scanDot_reads (lx : Lexer) {cs : List Char} (out : Sinks) (h : Terminated ('.' :: cs)) :
    ∃ kind value cur' out', scanDot lx ('.' :: cs) out = some (kind, value, cur', out') ∧
      ReadsTo ('.' :: cs) out cur' out' ∧ cur'.length ≤ cs.length ∧ kind ≠ .eof := by
  have hdot : LexMode.code.Idle '.' := idle_code_of_plain (by decide)
  obtain ⟨d, ds, rfl, -⟩ := (h.tail hdot.nul).exists_cons
  by_cases hd : isDecDigit d = true
  · obtain ⟨tfloat, cur', out', hscan, hread, hlen⟩ := scanFloat_reads lx out h
      (.inr ⟨rfl, by simpa [startsWithDigit] using hd⟩)
    exact ⟨.float, .asFloat tfloat, cur', out', by simp [scanDot, hd, hscan], hread, hlen, nofun⟩
  · by_cases hdd : d = '.'
    · exact ⟨.ellipsis, .none, ds, out, by simp [scanDot, hdd, show isDecDigit '.' = false by decide],
        ⟨.cons hdot (hdd ▸ .one hdot), rfl⟩, by simp, nofun⟩
    · exact ⟨.dot, .none, d :: ds, out, by simp [scanDot, hd, hdd], ⟨.one hdot, rfl⟩, by simp, nofun⟩

end Nibble.Front
