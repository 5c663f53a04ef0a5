import Nibble.Front.LexNumbers

/-!
# White space, comments and literals

The loops that pass newlines. A literal is the one place where the lexer may move beyond the NUL
or pass a newline without a record, and there the modes say the same.
-/

namespace Nibble.Front

/-- Two modes that take the next character alike. -/
theorem lines_congr {lx : Lexer} {m m' : LexMode} {c : Char} {cs : List Char}
    (hstep : m.step c = m'.step c) (hescape : m.isEscape = m'.isEscape)
    (hany : m.takesAny = m'.takesAny) (cut : Option (List Nat)) :
    linesCut lx cut m (c :: cs) = linesCut lx cut m' (c :: cs) := by
  simp only [linesCut, hstep, hescape, hany]

theorem linesCut_nul {lx : Lexer} {m : LexMode} {cs : List Char} (hm : m.takesAny = false)
    (cut : Option (List Nat)) : linesCut lx cut m ('\x00' :: cs) = some [] := by
  simp only [linesCut, hm, if_true, Bool.false_eq_true, if_false]

theorem lines_nul {lx : Lexer} {m : LexMode} {cs : List Char} (hm : m.takesAny = false) :
    lines lx m ('\x00' :: cs) = some [] := by
  rw [← linesCut_none, linesCut_nul hm]

theorem lines_takesAny {lx : Lexer} {m : LexMode} {cs : List Char} (hm : m.takesAny = true) :
    lines lx m ('\x00' :: cs) = none := by
  simp only [lines, hm, if_true]

/-- At the NUL no mode but those of an open escape or character has anything to record. -/
theorem Scans.atNul {lx : Lexer} {m m' : LexMode} {cs : List Char} {out out' : Sinks}
    (hcur : Terminated ('\x00' :: cs)) (hm : m.takesAny = false) (hm' : m'.takesAny = false)
    (hout : out'.linePos = out.linePos) :
    Scans lx m ('\x00' :: cs) out m' ('\x00' :: cs) out' :=
  .silent hcur List.suffix_rfl (fun cut => (linesCut_nul hm cut).trans (linesCut_nul hm' cut).symm)
    hout

/-! ### White space and comments -/

theorem skipSpaces_scans (lx : Lexer) {cur : List Char} (h : Terminated cur) (out : Sinks) :
    ∃ cur' out', skipSpaces lx cur out = some (cur', out') ∧
      Scans lx .code cur out .code cur' out' := by
  induction h generalizing out with
  | nul => exact ⟨_, out, rfl, .here .nul fun _ => rfl⟩
  | @cons c cs hc hcs ih =>
    have hcur : Terminated (c :: cs) := .cons hc hcs
    by_cases hspace : isWhitespace c = true
    · by_cases hline : c = '\n'
      · subst hline
        obtain ⟨cur', out', hskip, hscan⟩ := ih (lx.onLine ('\n' :: cs) out)
        refine ⟨cur', out', ?_, (Scans.onLine hcur rfl rfl).trans hscan⟩
        simp only [skipSpaces, hspace, if_true, hskip]
      · obtain ⟨cur', out', hskip, hscan⟩ := ih out
        have hstep : LexMode.code.step c = .code := by
          simp only [isWhitespace, Bool.or_eq_true, decide_eq_true_eq] at hspace
          rcases hspace with (((rfl | rfl) | rfl) | rfl) | rfl <;> rfl
        refine ⟨cur', out', ?_, (Scans.stepTo lx out hcur hc hline hstep).trans hscan⟩
        simp only [skipSpaces, hspace, if_true, hline, if_false, hskip]
    · exact ⟨c :: cs, out, by simp only [skipSpaces, hspace]; rfl, .here hcur fun _ => rfl⟩

theorem skipSpaces_progress {lx : Lexer} {c : Char} {cs cur' : List Char} {out out' : Sinks}
    (h : Terminated (c :: cs)) (hc : isWhitespace c = true)
    (hskip : skipSpaces lx (c :: cs) out = some (cur', out')) : cur'.length ≤ cs.length := by
  have hnul : c ≠ '\x00' := by
    rintro rfl
    exact Bool.noConfusion hc
  simp only [skipSpaces, hc, if_true] at hskip
  obtain ⟨cur₁, out₁, hskip₁, hscan⟩ := skipSpaces_scans lx (h.tail hnul)
    (if c = '\n' then lx.onLine (c :: cs) out else out)
  rw [hskip₁] at hskip
  cases hskip
  exact hscan.suffix.length_le

theorem head_of_skipWhile {p : Char → Bool} {cur : List Char} {c : Char} {cs : List Char}
    (h : skipWhile p cur = some (c :: cs)) : p c = false := by
  induction cur with
  | nil => cases h
  | cons d ds ih =>
    by_cases hd : p d = true
    · simp only [skipWhile, hd, if_true] at h
      exact ih h
    · simp only [skipWhile, hd] at h
      obtain ⟨rfl, -⟩ := List.cons.inj (Option.some.inj h)
      simpa using hd

theorem skipLineComment_scans (lx : Lexer) {cs : List Char} (h : Terminated ('/' :: '/' :: cs))
    (out : Sinks) : ∃ cur', skipLineComment ('/' :: '/' :: cs) = some cur' ∧
      Scans lx .code ('/' :: '/' :: cs) out .code cur' out ∧ cur'.length ≤ cs.length := by
  have hcs := (h.tail (by decide)).tail (by decide)
  obtain ⟨cur', hskip, hidle⟩ := skipWhile_idles (m := .lineComment)
    (p := fun c => c ≠ '\x00' && c ≠ '\n' && c ≠ '\r') (fun c hc => by
      simp only [Bool.and_eq_true, decide_eq_true_eq] at hc
      refine ⟨hc.1.1, hc.1.2, ?_⟩
      simp only [LexMode.step, hc.1.2, hc.2, or_self, if_false]) hcs
  have hopen : Scans lx .code ('/' :: '/' :: cs) out .lineComment cs out :=
    (Scans.step h (by decide) (by decide) rfl).trans
      (Scans.step (h.tail (by decide)) (by decide) (by decide) rfl)
  have hcur' := hidle.terminated hcs
  refine ⟨cur', hskip, (hopen.trans (hidle.scans hcs rfl)).trans (.here hcur' ?_),
    hidle.suffix.length_le⟩
  -- The comment stops at the NUL or before the end of its line.
  obtain ⟨c, ds, rfl, -⟩ := hcur'.exists_cons
  have hstop := head_of_skipWhile hskip
  by_cases hnul : c = '\x00'
  · subst hnul
    intro cut
    rw [linesCut_nul rfl, linesCut_nul rfl]
  · refine lines_congr ?_ rfl rfl
    by_cases hline : c = '\n'
    · rw [hline]
      rfl
    · have hreturn : c = '\r' := by simpa [hnul, hline] using hstop
      rw [hreturn]
      rfl

theorem takesAny_outer (level : Nat) : (LexMode.outer level).takesAny = false := by
  cases level <;> rfl

theorem skipCCommentLoop_scans (lx : Lexer) {cur : List Char} (level start : Nat) (out : Sinks)
    (h : Terminated cur) :
    ∃ level' start' cur' out', skipCCommentLoop lx cur level start out =
        some (level', start', cur', out') ∧ Scans lx (.outer level) cur out .code cur' out' := by
  fun_induction skipCCommentLoop lx cur level start out with
  | case1 => exact nomatch h
  | case2 c level start out hstop =>
    refine ⟨level, start, [c], out, rfl, ?_⟩
    cases h with
    | nul => exact .atNul .nul (takesAny_outer level) rfl rfl
    | cons hc hnil => exact nomatch hnil
  | case3 c level start out hgo =>
    cases h with
    | nul => simp at hgo
    | cons hc hnil => exact nomatch hnil
  | case4 c d cs level start out hstop =>
    have hc : c ≠ '\x00' := by
      rintro rfl
      exact nomatch h.eq_nul
    have hlevel : level = 0 := by simpa [hc] using hstop
    subst hlevel
    exact ⟨0, start, c :: d :: cs, out, rfl, .here h fun _ => rfl⟩
  | case5 c d cs level start out hgo hopen ih =>
    simp only [Bool.and_eq_true, decide_eq_true_eq] at hopen
    obtain ⟨rfl, rfl⟩ := hopen
    obtain ⟨depth, rfl⟩ := Nat.exists_eq_succ_of_ne_zero (show level ≠ 0 by simpa using hgo)
    have hd := h.tail (by decide)
    obtain ⟨level', start', cur', out', hloop, hscan⟩ := ih (hd.tail (by decide))
    exact ⟨level', start', cur', out', hloop,
      ((Scans.step h (by decide) (by decide) rfl).trans
        (Scans.step hd (by decide) (by decide) rfl)).trans hscan⟩
  | case6 c d cs level start out hgo _ hclose ih =>
    simp only [Bool.and_eq_true, decide_eq_true_eq] at hclose
    obtain ⟨rfl, rfl⟩ := hclose
    obtain ⟨depth, rfl⟩ := Nat.exists_eq_succ_of_ne_zero (show level ≠ 0 by simpa using hgo)
    have hd := h.tail (by decide)
    obtain ⟨level', start', cur', out', hloop, hscan⟩ := ih (hd.tail (by decide))
    exact ⟨level', start', cur', out', hloop,
      ((Scans.step h (by decide) (by decide) rfl).trans
        (Scans.step hd (by decide) (by decide) rfl)).trans hscan⟩
  | case7 c d cs level start out hgo hopen hclose ih =>
    have hc : c ≠ '\x00' := fun hc => hgo (by simp [hc])
    obtain ⟨depth, rfl⟩ := Nat.exists_eq_succ_of_ne_zero
      (show level ≠ 0 from fun hl => hgo (by simp [hl]))
    have hd := h.tail hc
    obtain ⟨level', start', cur', out', hloop, hscan⟩ := ih hd
    refine ⟨level', start', cur', out', hloop, Scans.trans ?_ hscan⟩
    by_cases hline : c = '\n'
    · subst hline
      exact Scans.onLine (m := .comment depth) h rfl rfl
    · -- A `/` or `*` that begins no pair: the next character is read as in the comment.
      have hone : Scans lx (.comment depth) (c :: d :: cs) out _ (d :: cs) out :=
        Scans.step h hc hline rfl
      simp only [hline, if_false]
      refine hone.trans (.here hd ?_)
      by_cases hslash : c = '/'
      · subst hslash
        have hstar : d ≠ '*' := by simpa using hopen
        exact lines_congr (by simp [LexMode.step, LexMode.commentStep, LexMode.outer, hstar]) rfl rfl
      · by_cases hstar : c = '*'
        · subst hstar
          have hslash' : d ≠ '/' := by simpa using hclose
          exact lines_congr (by simp [LexMode.step, LexMode.commentStep, LexMode.outer, hslash'])
            rfl rfl
        · simp [LexMode.step, LexMode.commentStep, LexMode.outer, hslash, hstar]

theorem skipCComment_scans (lx : Lexer) {cs : List Char} (h : Terminated ('/' :: '*' :: cs))
    (out : Sinks) : ∃ cur' out', skipCComment lx ('/' :: '*' :: cs) out = some (cur', out') ∧
      Scans lx .code ('/' :: '*' :: cs) out .code cur' out' ∧ cur'.length ≤ cs.length := by
  have hstar := h.tail (by decide)
  have hcs := hstar.tail (by decide)
  obtain ⟨level, start, cur', out', hloop, hscan⟩ := skipCCommentLoop_scans lx 1
    (lx.calcPos ('/' :: '*' :: cs)) out hcs
  have hopen : Scans lx .code ('/' :: '*' :: cs) out (.comment 0) cs out :=
    (Scans.step h (by decide) (by decide) rfl).trans
      (Scans.step hstar (by decide) (by decide) rfl)
  have hscans := hopen.trans hscan
  by_cases hlevel : level > 0
  · refine ⟨cur', out'.onError ⟨start, progPos (start + 2)⟩
      "Missing closing '*/' for c-style comment." [], ?_,
      ⟨hscans.terminated, hscans.suffix, hscans.lines⟩, hscan.suffix.length_le⟩
    simp [skipCComment, hloop, hlevel]
  · exact ⟨cur', out', by simp [skipCComment, hloop, hlevel], hscans, hscan.suffix.length_le⟩

/-! ### Escapes -/

theorem scanHexEscape_idles (lx : Lexer) {m : LexMode}
    (hm : ∀ c, isAlphanum c = true → m.Idle c) {cur : List Char} (h : Terminated cur)
    (out : Sinks) : ∃ v cur' out', scanHexEscape lx cur out = some (v, cur', out') ∧
      Idles m cur cur' ∧ out'.linePos = out.linePos := by
  obtain ⟨c, cs, rfl, -⟩ := h.exists_cons
  by_cases hc : biasedDigit c = 0 ∨ biasedDigit c - 1 ≥ 16
  · exact ⟨none, c :: cs, out.onError ⟨lx.calcPos (c :: cs), progPos (lx.calcPos (c :: cs) + 1)⟩
      "Invalid hex character digit '%c'" [.char c], by simp [scanHexEscape, hc], .refl _, rfl⟩
  · have hidle := hm c (isAlphanum_of_biasedDigit fun h0 => hc (.inl h0))
    obtain ⟨d, ds, rfl, -⟩ := (h.tail hidle.nul).exists_cons
    by_cases hd : biasedDigit d = 0
    · exact ⟨some (biasedDigit c - 1), d :: ds, out, by simp [scanHexEscape, hc, hd],
        .one hidle, rfl⟩
    · have hidle' := hm d (isAlphanum_of_biasedDigit hd)
      by_cases hlarge : biasedDigit d - 1 ≥ 16
      · exact ⟨none, d :: ds, out.onError (lx.rangeFrom (c :: d :: ds) (d :: ds))
          "Invalid hex character digit '0x%X' is larger than 0x%X" [.char d, .uint 15],
          by simp [scanHexEscape, hc, hd, hlarge], .one hidle, rfl⟩
      · exact ⟨some ((biasedDigit c - 1) * 16 + (biasedDigit d - 1)), ds, out,
          by simp [scanHexEscape, hc, hd, hlarge], .cons hidle (.one hidle'), rfl⟩

theorem scanStringEscape_scans (lx : Lexer) (start : List Char) {c : Char} {cs : List Char}
    (h : Terminated (c :: cs)) (hc : c ≠ '\x00') (out : Sinks) :
    ∃ e cur' out', scanStringEscape lx start (c :: cs) out = some (e, cur', out') ∧
      Scans lx .stringEscape (c :: cs) out .string cur' out' ∧ cur'.length ≤ cs.length := by
  have hcs := h.tail hc
  by_cases hx : c = 'x' ∨ c = 'X'
  · obtain ⟨v, cur₁, out₁, hhex, hidle₁, hout₁⟩ :=
      scanHexEscape_idles lx (fun _ => idle_string_of_alphanum) hcs out
    have hscan₁ : Scans lx .stringEscape (c :: cs) out .string cur₁ out₁ :=
      (Scans.escape h hc rfl rfl).trans (hidle₁.scans hcs hout₁)
    cases v with
    | some v =>
      exact ⟨Char.ofNat v, cur₁, out₁, by simp [scanStringEscape, hx, hhex], hscan₁,
        hidle₁.suffix.length_le⟩
    | none =>
      obtain ⟨cur₂, hword, hidle₂⟩ :=
        skipWordEnd_idles (fun _ => idle_string_of_alphanum) hscan₁.terminated
      exact ⟨'?', cur₂, out₁, by simp [scanStringEscape, hx, hhex, hword],
        hscan₁.trans (hidle₂.scans hscan₁.terminated rfl),
        (hidle₁.trans hidle₂).suffix.length_le⟩
  · by_cases hbad : unescapeChar c = '\x00' ∧ c ≠ '0'
    · exact ⟨unescapeChar c, cs, out.onError (lx.rangeFrom start (c :: cs))
        "Invalid escaped character '\\%c'" [.char c], by simp [scanStringEscape, hx, hbad],
        Scans.escape h hc rfl rfl, le_rfl⟩
    · refine ⟨unescapeChar c, cs, out, ?_, Scans.escape h hc rfl rfl, le_rfl⟩
      simp only [scanStringEscape, List.head?_cons, Option.bind_eq_bind, Option.bind_some,
        Bool.or_eq_true, decide_eq_true_eq, hx, if_false, hbad, List.tail_cons]

theorem scanCharEscape_scans (lx : Lexer) (start : List Char) {c : Char} {cs : List Char}
    (h : Terminated (c :: cs)) (hc : c ≠ '\x00') (out : Sinks) :
    ∃ v cur' out', scanCharEscape lx start (c :: cs) out = some (v, cur', out') ∧
      Scans lx .charEscape (c :: cs) out .charTail cur' out' := by
  have hcs := h.tail hc
  by_cases hx : c = 'x' ∨ c = 'X'
  · obtain ⟨v, cur₁, out₁, hhex, hidle₁, hout₁⟩ :=
      scanHexEscape_idles lx (fun _ => idle_charTail_of_alphanum) hcs out
    exact ⟨v.getD 0, cur₁, out₁, by simp [scanCharEscape, hx, hhex],
      (Scans.escape h hc rfl rfl).trans (hidle₁.scans hcs hout₁)⟩
  · by_cases hbad : unescapeChar c = '\x00' ∧ c ≠ '0'
    · exact ⟨(unescapeChar c).toNat, cs, out.onError (lx.rangeFrom start (c :: cs))
        "Invalid escaped character '\\%c'" [.char c], by simp [scanCharEscape, hx, hbad],
        Scans.escape h hc rfl rfl⟩
    · refine ⟨(unescapeChar c).toNat, cs, out, ?_, Scans.escape h hc rfl rfl⟩
      simp only [scanCharEscape, List.head?_cons, Option.bind_eq_bind, Option.bind_some,
        Bool.or_eq_true, decide_eq_true_eq, hx, if_false, hbad, List.tail_cons]

/-! ### String literals -/

/-- At the NUL the escape moves beyond it, and the next read fails. -/
theorem scanStringEscape_nul (lx : Lexer) (start : List Char) (out : Sinks) :
    ∃ e out', scanStringEscape lx start ['\x00'] out = some (e, [], out') := by
  refine ⟨'\x00', out.onError (lx.rangeFrom start ['\x00']) "Invalid escaped character '\\%c'"
    [.char '\x00'], ?_⟩
  simp [scanStringEscape, unescapeChar]

theorem scanStringLoop_nil (lx : Lexer) (start : List Char) (fuel : Nat) (tmp : List Char)
    (out : Sinks) : scanStringLoop lx start fuel [] tmp out = none := by
  cases fuel <;> rfl

theorem scanStringLoop_follows (lx : Lexer) (start : List Char) :
    ∀ (fuel : Nat) {cur : List Char} (tmp : List Char) (out : Sinks), Terminated cur →
      cur.length ≤ fuel →
      Follows Prod.snd lx .string cur out .string (scanStringLoop lx start fuel cur tmp out) := by
  intro fuel
  induction fuel with
  | zero =>
    intro cur tmp out h hlen
    obtain ⟨c, cs, rfl, -⟩ := h.exists_cons
    exact absurd hlen (Nat.not_succ_le_zero _)
  | succ fuel ih =>
    intro cur tmp out h hlen
    obtain ⟨c, cs, rfl, -⟩ := h.exists_cons
    have hlen' : cs.length ≤ fuel := Nat.le_of_succ_le_succ hlen
    by_cases hstop : c = '\x00' ∨ c = '"' ∨ c = '\n'
    · have hrun : scanStringLoop lx start (fuel + 1) (c :: cs) tmp out =
          some (tmp, c :: cs, out) := by
        simp [scanStringLoop, or_assoc, hstop]
      rw [hrun]
      exact Scans.here h fun _ => rfl
    · have hnul : c ≠ '\x00' := fun hc => hstop (.inl hc)
      have hline : c ≠ '\n' := fun hc => hstop (.inr (.inr hc))
      have hquote : c ≠ '"' := fun hc => hstop (.inr (.inl hc))
      have hcs := h.tail hnul
      by_cases hslash : c = '\\'
      · subst hslash
        have hone : Scans lx .string ('\\' :: cs) out .stringEscape cs out :=
          Scans.step h hnul hline rfl
        refine .after hone ?_
        obtain ⟨d, ds, rfl, -⟩ := hcs.exists_cons
        by_cases hd : d = '\x00'
        · subst hd
          obtain rfl := hcs.eq_nul
          obtain ⟨e, out', hesc⟩ := scanStringEscape_nul lx start out
          have hrun : scanStringLoop lx start (fuel + 1) ['\\', '\x00'] tmp out = none := by
            simp [scanStringLoop, hesc, scanStringLoop_nil]
          rw [hrun]
          exact lines_takesAny rfl
        · obtain ⟨e, cur', out', hesc, hscan, hshort⟩ :=
            scanStringEscape_scans lx start hcs hd out
          have hrun : scanStringLoop lx start (fuel + 1) ('\\' :: d :: ds) tmp out =
              scanStringLoop lx start fuel cur' (tmp ++ [e]) out' := by
            simp [scanStringLoop, hesc]
          rw [hrun]
          refine .after hscan (ih _ _ hscan.terminated ?_)
          simp only [List.length_cons] at hlen'
          omega
      · have hstep : LexMode.string.step c = .string := by
          simp only [LexMode.step, hquote, hline, hslash, if_false]
        have hone := Scans.stepTo lx out h hnul hline hstep
        have hrun : scanStringLoop lx start (fuel + 1) (c :: cs) tmp out =
            scanStringLoop lx start fuel cs (tmp ++ [c]) out := by
          simp [scanStringLoop, hnul, hquote, hline, hslash]
        rw [hrun]
        exact .after hone (ih _ _ hcs hlen')

/-- Where the loop of a string literal stops. -/
theorem head_of_scanStringLoop {lx : Lexer} {start : List Char} {fuel : Nat}
    {cur tmp tmp' : List Char} {out out' : Sinks} {c : Char} {cs : List Char}
    (h : scanStringLoop lx start fuel cur tmp out = some (tmp', c :: cs, out')) :
    c = '\x00' ∨ c = '"' ∨ c = '\n' := by
  induction fuel generalizing cur tmp out with
  | zero => cases h
  | succ fuel ih =>
    cases cur with
    | nil => cases h
    | cons d ds =>
      simp only [scanStringLoop, List.head?_cons, Option.bind_eq_bind, Option.bind_some,
        Bool.or_eq_true, decide_eq_true_eq, or_assoc] at h
      split at h
      · next hstop =>
        cases h
        exact hstop
      · split at h
        · obtain ⟨⟨e, cur', out₁⟩, -, hrest⟩ := Option.bind_eq_some_iff.mp h
          exact ih hrest
        · exact ih h

/-- The quote after a literal that was cut off belongs to it; any other character is code. -/
theorem skipChar_scans (lx : Lexer) {m : LexMode} {q : Char} {cur : List Char} (out : Sinks)
    (h : Terminated cur) (hq : q ≠ '\x00' ∧ q ≠ '\n') (hquote : m.step q = .code)
    (hother : ∀ d ds, cur = d :: ds → d ≠ q → m.step d = LexMode.code.step d)
    (hescape : m.isEscape = false) (hany : m.takesAny = false) :
    ∃ cur', skipChar q cur = some cur' ∧ Scans lx m cur out .code cur' out := by
  obtain ⟨d, ds, rfl, -⟩ := h.exists_cons
  by_cases hd : d = q
  · subst hd
    exact ⟨ds, by simp [skipChar], .stepTo lx out h hq.1 hq.2 hquote⟩
  · exact ⟨d :: ds, by simp [skipChar, hd],
      .here h (lines_congr (hother d ds rfl hd) hescape hany)⟩

theorem scanString_follows (lx : Lexer) {cs : List Char} (h : Terminated cs) (out : Sinks) :
    Follows Prod.snd lx .string cs out .code (scanString lx ('"' :: cs) out) := by
  have hloop := scanStringLoop_follows lx ('"' :: cs) cs.length [] out h le_rfl
  have hrun := scanString.eq_def lx ('"' :: cs) out
  simp only [List.head?_cons, guard_true, Option.pure_def, Option.bind_eq_bind, Option.bind_some,
    List.tail_cons] at hrun
  rw [hrun]
  cases hresult : scanStringLoop lx ('"' :: cs) cs.length cs [] out with
  | none =>
    rw [hresult] at hloop
    exact hloop
  | some b =>
    obtain ⟨tmp, cur, out₁⟩ := b
    rw [hresult] at hloop
    have hscan : Scans lx .string cs out .string cur out₁ := hloop
    have hcur := hscan.terminated
    obtain ⟨c, ds, rfl, -⟩ := hcur.exists_cons
    refine .after hscan ?_
    rcases head_of_scanStringLoop hresult with rfl | rfl | rfl
    · -- The text ends inside the literal.
      exact Scans.atNul hcur rfl rfl rfl
    · exact Scans.step hcur (by decide) (by decide) rfl
    · have hline : Scans lx .string ('\n' :: ds) out₁ .stringCut ds
          (lx.onLine ('\n' :: ds) (out₁.onError (lx.rangeFrom ('"' :: cs) ('\n' :: ds))
            "String literal cannot span multiple lines" [])) := Scans.onLine hcur rfl rfl
      obtain ⟨cur', hskip, hcut⟩ := skipChar_scans lx (m := .stringCut) (q := '"') _
        hline.terminated (by decide) rfl
        (fun d _ _ hd => by simp only [LexMode.step, hd, if_false]) rfl rfl
      simp only [List.head?_cons, Option.bind_some, List.tail_cons, hskip]
      exact hline.trans hcut

/-! ### Character literals -/

theorem scanCharEnd_scans (lx : Lexer) (start : List Char) {cur : List Char}
    (h : Terminated cur) (out : Sinks) :
    ∃ cur' out', scanCharEnd lx start cur out = some (cur', out') ∧
      Scans lx .charTail cur out .code cur' out' := by
  obtain ⟨c, cs, rfl, -⟩ := h.exists_cons
  by_cases hc : c = '\''
  · subst hc
    exact ⟨cs, out, by simp [scanCharEnd], Scans.step h (by decide) (by decide) rfl⟩
  · obtain ⟨cur₁, hword, hidle⟩ := skipWordEnd_idles (fun _ => idle_charTail_of_alphanum) h
    have hcur₁ := hidle.terminated h
    obtain ⟨cur₂, hskip, hcut⟩ := skipChar_scans lx (m := .charTail) (q := '\'')
      (out.onError (lx.rangeFrom start (c :: cs))
        "Missing closing character quote (found '%c' instead)" [.char c]) hcur₁ (by decide)
      rfl (fun d ds hd hquote => by
        have hstop := head_of_skipWhile (hd ▸ hword)
        have halnum : isAlphanum d = false := by
          by_cases hnul : d = '\x00'
          · rw [hnul]
            decide
          · simpa [hnul] using hstop
        simp only [LexMode.step, halnum, Bool.false_eq_true, if_false, hquote]) rfl rfl
    refine ⟨cur₂, out.onError (lx.rangeFrom start (c :: cs))
      "Missing closing character quote (found '%c' instead)" [.char c],
      by simp [scanCharEnd, hc, hword, hskip], Scans.trans ?_ hcut⟩
    exact hidle.scans h rfl

theorem scanCharEnd_nil (lx : Lexer) (start : List Char) (out : Sinks) :
    scanCharEnd lx start [] out = none := rfl

/-- At the NUL the escape moves beyond it. -/
theorem scanCharEscape_nul (lx : Lexer) (start : List Char) (out : Sinks) :
    ∃ v out', scanCharEscape lx start ['\x00'] out = some (v, [], out') := by
  refine ⟨0, out.onError (lx.rangeFrom start ['\x00']) "Invalid escaped character '\\%c'"
    [.char '\x00'], ?_⟩
  simp [scanCharEscape, unescapeChar]

theorem scanChar_follows (lx : Lexer) {cs : List Char} (h : Terminated cs) (out : Sinks) :
    Follows Prod.snd lx .char cs out .code (scanChar lx ('\'' :: cs) out) := by
  obtain ⟨c, ds, rfl, -⟩ := h.exists_cons
  have hrun := scanChar.eq_def lx ('\'' :: c :: ds) out
  simp only [List.head?_cons, guard_true, Option.pure_def, Option.bind_eq_bind, Option.bind_some,
    List.tail_cons] at hrun
  rw [hrun]
  by_cases hquote : c = '\''
  · subst hquote
    exact Scans.step h (by decide) (by decide) rfl
  rw [if_neg hquote]
  by_cases hline : c = '\n'
  · subst hline
    have hcut : Scans lx .char ('\n' :: ds) out .charCut ds
        (lx.onLine ('\n' :: ds) (out.onError (lx.rangeFrom ('\'' :: '\n' :: ds) ('\n' :: ds))
          "Character literal cannot contain a newline character" [])) := Scans.onLine h rfl rfl
    obtain ⟨cur', hskip, hclose⟩ := skipChar_scans lx (m := .charCut) (q := '\'') _
      hcut.terminated (by decide) rfl
      (fun d _ _ hd => by simp only [LexMode.step, hd, if_false]) rfl rfl
    simp only [if_true, hskip, Option.bind_some]
    exact hcut.trans hclose
  rw [if_neg hline]
  by_cases hslash : c = '\\'
  · subst hslash
    rw [if_pos rfl]
    have hds := h.tail (by decide)
    have hone : Scans lx .char ('\\' :: ds) out .charEscape ds out :=
      Scans.step h (by decide) (by decide) rfl
    refine .after hone ?_
    obtain ⟨d, es, rfl, -⟩ := hds.exists_cons
    by_cases hd : d = '\x00'
    · subst hd
      obtain rfl := hds.eq_nul
      obtain ⟨v, out', hesc⟩ := scanCharEscape_nul lx ('\'' :: '\\' :: ['\x00']) out
      simp only [hesc, Option.bind_some, scanCharEnd_nil, Option.bind_none]
      exact lines_takesAny rfl
    · obtain ⟨v, cur₁, out₁, hesc, hscan⟩ :=
        scanCharEscape_scans lx ('\'' :: '\\' :: d :: es) hds hd out
      obtain ⟨cur₂, out₂, hend, hscan'⟩ :=
        scanCharEnd_scans lx ('\'' :: '\\' :: d :: es) hscan.terminated out₁
      simp only [hesc, Option.bind_some, hend]
      exact hscan.trans hscan'
  rw [if_neg hslash]
  by_cases hnul : c = '\x00'
  · subst hnul
    obtain rfl := h.eq_nul
    exact lines_takesAny rfl
  · have hstep : LexMode.char.step c = .charTail := by
      simp only [LexMode.step, hquote, hline, hslash, if_false]
    have hone := Scans.stepTo lx out h hnul hline hstep
    obtain ⟨cur₂, out₂, hend, hscan'⟩ :=
      scanCharEnd_scans lx ('\'' :: c :: ds) hone.terminated out
    simp only [hend, Option.bind_some]
    exact hone.trans hscan'

end Nibble.Front
