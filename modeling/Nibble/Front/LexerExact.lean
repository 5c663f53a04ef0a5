import Nibble.Front.LexLiterals

/-!
# When the lexer stays inside its text

A call of `scan_token` goes from code to code, so repeated calls record the lines that the modes
of the text record, and read beyond its NUL where the modes do.
-/

namespace Nibble.Front

/-! ### One token -/

/-- A token that is not the end of the file takes a character; the end is at the NUL. -/
def TokenMoves (kind : TokenKind) (cur cur' : List Char) : Prop :=
  (kind = .eof ∧ cur = ['\x00'] ∧ cur' = ['\x00']) ∨ (kind ≠ .eof ∧ cur'.length < cur.length)

/-- A case of `scan_token` goes from code to code. -/
def CaseFollows (lx : Lexer) (cur : List Char) (out : Sinks)
    (r : Option (TokenKind × TokenValue × List Char × Sinks)) : Prop :=
  Follows (fun b => b.2.2) lx .code cur out .code r ∧
    ∀ b, r = some b → TokenMoves b.1 cur b.2.2.1

theorem caseFollows_of_reads {lx : Lexer} {c : Char} {cs : List Char} {out : Sinks}
    {r : Option (TokenKind × TokenValue × List Char × Sinks)} (h : Terminated (c :: cs))
    (hr : ∃ kind value cur' out', r = some (kind, value, cur', out') ∧
      ReadsTo (c :: cs) out cur' out' ∧ cur'.length ≤ cs.length ∧ kind ≠ .eof) :
    CaseFollows lx (c :: cs) out r := by
  obtain ⟨kind, value, cur', out', rfl, hread, hlen, hkind⟩ := hr
  refine ⟨hread.scans h, fun b hb => ?_⟩
  cases hb
  exact .inr ⟨hkind, Nat.lt_succ_of_le hlen⟩

/-- A literal, read after its opening quote. -/
theorem caseFollows_of_literal {α : Type} {lx : Lexer} {c : Char} {cs : List Char} {out : Sinks}
    {m : LexMode} {kind : TokenKind} {r : Option (α × List Char × Sinks)}
    {r' : Option (TokenKind × TokenValue × List Char × Sinks)}
    (hopen : Scans lx .code (c :: cs) out m cs out)
    (hr : Follows Prod.snd lx m cs out .code r) (hnone : r = none → r' = none)
    (hsome : ∀ b, r = some b → ∃ value, r' = some (kind, value, b.2)) (hkind : kind ≠ .eof) :
    CaseFollows lx (c :: cs) out r' := by
  cases r with
  | none =>
    rw [hnone rfl]
    exact ⟨.after hopen hr, fun _ hb => by cases hb⟩
  | some b =>
    obtain ⟨value, rfl⟩ := hsome b rfl
    have hscan : Scans lx m cs out .code b.2.1 b.2.2 := hr
    refine ⟨hopen.trans hscan, fun b' hb => ?_⟩
    cases hb
    exact .inr ⟨hkind, Nat.lt_succ_of_le hscan.suffix.length_le⟩

theorem scanCase_follows (lx : Lexer) {c : Char} {cs : List Char} (h : Terminated (c :: cs))
    (hcomment : c = '/' → cs.head? ≠ some '/' ∧ cs.head? ≠ some '*') (out : Sinks)
    {r : Option (TokenKind × TokenValue × List Char × Sinks)}
    (hr : scanCase lx c (c :: cs) out = some r) : CaseFollows lx (c :: cs) out r := by
  unfold scanCase at hr
  split at hr
  · next hc =>
    subst hc
    cases hr
    have hcs := h.tail (by decide)
    obtain ⟨kind, cur', hop, hidle, hkind⟩ := opWith_reads .div
      [('=', .divAssign), ('%', .divmod)] (by decide) (by decide) cs hcs
    have hslash : Scans lx .code ('/' :: cs) out .slash cs out :=
      Scans.step h (by decide) (by decide) rfl
    have hcode : Scans lx .slash cs out .code cs out := by
      obtain ⟨d, ds, rfl, -⟩ := hcs.exists_cons
      obtain ⟨hline, hstar⟩ := hcomment rfl
      simp only [List.head?_cons, ne_eq, Option.some.injEq] at hline hstar
      exact .here hcs (lines_congr (by simp only [LexMode.step, hline, hstar, if_false]) rfl rfl)
    have hscan := (hslash.trans hcode).trans (hidle.scans hcs rfl)
    simp only [List.tail_cons, hop, Option.bind_eq_bind, Option.bind_some]
    refine ⟨hscan, fun b hb => ?_⟩
    cases hb
    exact .inr ⟨hkind, Nat.lt_succ_of_le hidle.suffix.length_le⟩
  split at hr
  · next hc =>
    subst hc
    cases hr
    exact caseFollows_of_reads h (scanDot_reads lx out h)
  split at hr
  · next hdigit =>
    cases hr
    exact caseFollows_of_reads h (scanNumber_reads lx out h hdigit)
  split at hr
  · next hc =>
    subst hc
    cases hr
    exact caseFollows_of_literal (Scans.step h (by decide) (by decide) rfl)
      (scanChar_follows lx (h.tail (by decide)) out) (fun hres => by rw [hres]; rfl)
      (fun b hres => ⟨.asInt b.1, by rw [hres]; rfl⟩) (by decide)
  split at hr
  · next hc =>
    subst hc
    cases hr
    exact caseFollows_of_literal (Scans.step h (by decide) (by decide) rfl)
      (scanString_follows lx (h.tail (by decide)) out) (fun hres => by rw [hres]; rfl)
      (fun b hres => ⟨.asStr b.1, by rw [hres]; rfl⟩) (by decide)
  split at hr
  · next hident =>
    cases hr
    exact caseFollows_of_reads h (scanIdent_reads lx out h hident)
  split at hr
  · next hc =>
    subst hc
    cases hr
    obtain rfl := h.eq_nul
    refine ⟨Scans.here h fun _ => rfl, fun b hb => ?_⟩
    cases hb
    exact .inl ⟨rfl, rfl, rfl⟩
  · obtain ⟨op, hop, rfl⟩ := Option.map_eq_some_iff.mp hr
    obtain ⟨hplain, hreads⟩ := scanOperator_reads hop
    have hidle := idle_code_of_plain hplain
    obtain ⟨kind, cur', hrun, hread, hkind⟩ := hreads cs (h.tail hidle.nul)
    refine caseFollows_of_reads h ⟨kind, .none, cur', out, ?_, ⟨.cons hidle hread, rfl⟩,
      hread.suffix.length_le, hkind⟩
    simp only [List.tail_cons, hrun, Option.bind_eq_bind, Option.bind_some]

/-- The default case: the character begins nothing. -/
theorem isPlain_of_scanCase {lx : Lexer} {c : Char} {cur : List Char} {out : Sinks}
    (h : scanCase lx c cur out = none) (hline : c ≠ '\n') : isPlain c = true := by
  unfold scanCase at h
  split at h
  · cases h
  · next hslash =>
    split at h
    · cases h
    split at h
    · cases h
    split at h
    · cases h
    · next hchr =>
      split at h
      · cases h
      · next hstr =>
        split at h
        · cases h
        split at h
        · cases h
        · next hnul => simp [isPlain, hslash, hchr, hstr, hnul, hline]

/-- What a call of `scan_token` returns: the range of its token, between the cursor of the call
and its own. -/
def TokenAt (lx : Lexer) (cur : List Char) (token : Token) (cur' : List Char) : Prop :=
  ∃ cur₀, cur₀ <:+ cur ∧ cur' <:+ cur₀ ∧ token.range = ⟨lx.calcPos cur₀, lx.calcPos cur'⟩ ∧
    TokenMoves token.kind cur₀ cur'

def TokenFollows (lx : Lexer) (cur : List Char) (out : Sinks)
    (r : Option (Token × List Char × Sinks)) : Prop :=
  Follows Prod.snd lx .code cur out .code r ∧ ∀ b, r = some b → TokenAt lx cur b.1 b.2.1

/-- A jump to `top` after characters that are no token. -/
theorem TokenFollows.after {lx : Lexer} {cur cur₁ : List Char} {out out₁ : Sinks}
    {r : Option (Token × List Char × Sinks)} (h : Scans lx .code cur out .code cur₁ out₁)
    (hr : TokenFollows lx cur₁ out₁ r) : TokenFollows lx cur out r := by
  refine ⟨.after h hr.1, fun b hb => ?_⟩
  obtain ⟨cur₀, hsuf, htoken⟩ := hr.2 b hb
  exact ⟨cur₀, hsuf.trans h.suffix, htoken⟩

theorem scanTokenTop_follows (lx : Lexer) (fuel : Nat) :
    ∀ {cur : List Char} (out : Sinks), Terminated cur → cur.length ≤ fuel →
      TokenFollows lx cur out (scanTokenTop lx fuel cur out) := by
  induction fuel with
  | zero =>
    intro cur out h hlen
    obtain ⟨c, cs, rfl, -⟩ := h.exists_cons
    exact absurd hlen (Nat.not_succ_le_zero _)
  | succ fuel ih =>
    intro cur out h hlen
    obtain ⟨c, cs, rfl, -⟩ := h.exists_cons
    have hlen' : cs.length ≤ fuel := Nat.le_of_succ_le_succ hlen
    have hrun := scanTokenTop.eq_2 lx (c :: cs) out fuel
    simp only [List.head?_cons, Option.bind_eq_bind, Option.bind_some, List.getElem?_cons_succ,
      ← List.head?_eq_getElem?, List.tail_cons] at hrun
    rw [hrun]
    split
    · next hspaces =>
      have hspace : isWhitespace c = true := by
        simp only [Bool.or_eq_true, decide_eq_true_eq] at hspaces
        rcases hspaces with (((rfl | rfl) | rfl) | rfl) | rfl <;> rfl
      obtain ⟨cur', out', hskip, hscan⟩ := skipSpaces_scans lx h out
      rw [hskip]
      exact .after hscan (ih out' hscan.terminated
        ((skipSpaces_progress h hspace hskip).trans hlen'))
    next hspaces =>
    split
    · next hline =>
      obtain ⟨rfl, hnext⟩ := hline
      obtain ⟨ds, rfl⟩ : ∃ ds, cs = '/' :: ds := List.head?_eq_some_iff.mp hnext
      obtain ⟨cur', hskip, hscan, hshort⟩ := skipLineComment_scans lx h out
      rw [hskip]
      simp only [List.length_cons] at hlen'
      exact .after hscan (ih out hscan.terminated (by omega))
    next hline =>
    split
    · next hblock =>
      obtain ⟨rfl, hnext⟩ := hblock
      obtain ⟨ds, rfl⟩ : ∃ ds, cs = '*' :: ds := List.head?_eq_some_iff.mp hnext
      obtain ⟨cur', out', hskip, hscan, hshort⟩ := skipCComment_scans lx h out
      rw [hskip]
      simp only [List.length_cons] at hlen'
      exact .after hscan (ih out' hscan.terminated (by omega))
    next hblock =>
    have hcomment : c = '/' → cs.head? ≠ some '/' ∧ cs.head? ≠ some '*' := by
      intro hc
      exact ⟨fun hnext => hline ⟨hc, hnext⟩, fun hnext => hblock ⟨hc, hnext⟩⟩
    cases hcase : scanCase lx c (c :: cs) out with
    | none =>
      have hnl : c ≠ '\n' := by
        rintro rfl
        exact hspaces rfl
      have hidle := idle_code_of_plain (isPlain_of_scanCase hcase hnl)
      have hrest := ih (out.onError ⟨lx.calcPos (c :: cs), progPos (lx.calcPos (c :: cs) + 1)⟩
        "Unexpected token character: %c" [.char c]) (h.tail hidle.nul) hlen'
      refine .after ?_ hrest
      exact (Idles.one hidle).scans h rfl
    | some r =>
      obtain ⟨hfollows, hmoves⟩ := scanCase_follows lx h hcomment out hcase
      cases r with
      | none => exact ⟨hfollows, fun _ hb => by cases hb⟩
      | some b =>
        have hscan : Scans lx .code (c :: cs) out .code b.2.2.1 b.2.2.2 := hfollows
        refine ⟨hscan, fun b' hb => ?_⟩
        cases hb
        exact ⟨c :: cs, List.suffix_rfl, hscan.suffix, rfl, hmoves b rfl⟩

theorem scanToken_follows (lx : Lexer) {cur : List Char} (h : Terminated cur) (out : Sinks) :
    TokenFollows lx cur out (scanToken lx cur out) :=
  scanTokenTop_follows lx cur.length out h le_rfl

/-! ### Runs -/

/-- The tokens of a run from `cur` to `cur'`: each lies behind the ones before it, and only the
last may be the end of the file. -/
inductive TokensFrom (lx : Lexer) : List Char → List Token → List Char → Prop where
  | nil (cur : List Char) : TokensFrom lx cur [] cur
  | eof {cur : List Char} {token : Token} : token.kind = .eof → ['\x00'] <:+ cur →
      token.range = ⟨lx.calcPos ['\x00'], lx.calcPos ['\x00']⟩ →
      TokensFrom lx cur [token] ['\x00']
  | cons {cur cur₀ cur₁ cur' : List Char} {token : Token} {tokens : List Token} :
      token.kind ≠ .eof → cur₀ <:+ cur → cur₁ <:+ cur₀ → cur₁.length < cur₀.length →
      token.range = ⟨lx.calcPos cur₀, lx.calcPos cur₁⟩ → TokensFrom lx cur₁ tokens cur' →
      TokensFrom lx cur (token :: tokens) cur'

theorem TokensFrom.suffix {lx : Lexer} {cur cur' : List Char} {tokens : List Token}
    (h : TokensFrom lx cur tokens cur') : cur' <:+ cur := by
  induction h with
  | nil => exact List.suffix_rfl
  | eof _ hsuf _ => exact hsuf
  | cons _ h₀ h₁ _ _ _ ih => exact (ih.trans h₁).trans h₀

/-- The token of the end of the file ends a run, at the NUL. -/
theorem TokensFrom.range_of_eof {lx : Lexer} {cur cur' : List Char} {tokens : List Token}
    (h : TokensFrom lx cur tokens cur') {t : Token} (ht : t ∈ tokens) (heof : t.kind = .eof) :
    t.range = ⟨lx.calcPos ['\x00'], lx.calcPos ['\x00']⟩ ∧ cur' = ['\x00'] := by
  induction h with
  | nil => exact absurd ht List.not_mem_nil
  | eof _ _ hrange =>
    obtain rfl := List.mem_singleton.mp ht
    exact ⟨hrange, rfl⟩
  | cons hkind _ _ _ _ _ ih =>
    rcases List.mem_cons.mp ht with rfl | ht
    · exact absurd heof hkind
    · exact ih ht

theorem scanTokens_follows (lx : Lexer) (n : Nat) :
    ∀ {cur : List Char} (out : Sinks), Terminated cur →
      Follows Prod.snd lx .code cur out .code (scanTokens lx n cur out) ∧
      ∀ b, scanTokens lx n cur out = some b → TokensFrom lx cur b.1 b.2.1 := by
  induction n with
  | zero =>
    intro cur out h
    refine ⟨Scans.here h fun _ => rfl, fun b hb => ?_⟩
    cases hb
    exact .nil cur
  | succ n ih =>
    intro cur out h
    obtain ⟨hfollows, htoken⟩ := scanToken_follows lx h out
    cases hrun : scanToken lx cur out with
    | none =>
      rw [hrun] at hfollows
      simp only [scanTokens, hrun, Option.bind_eq_bind, Option.bind_none]
      exact ⟨hfollows, fun _ hb => by cases hb⟩
    | some b =>
      obtain ⟨token, cur₁, out₁⟩ := b
      rw [hrun] at hfollows
      have hscan : Scans lx .code cur out .code cur₁ out₁ := hfollows
      obtain ⟨cur₀, h₀, h₁, hrange, hmoves⟩ := htoken _ hrun
      simp only [scanTokens, hrun, Option.bind_eq_bind, Option.bind_some]
      rcases hmoves with ⟨heof, rfl, hcur₁⟩ | ⟨hkind, hlt⟩
      · simp only [show token.kind = .eof from heof, if_true]
        refine ⟨hscan, fun b hb => ?_⟩
        cases hb
        dsimp only at hcur₁ hrange heof
        subst hcur₁
        exact .eof heof h₀ hrange
      · simp only [show ¬ token.kind = .eof from hkind, if_false]
        obtain ⟨hrest, htokens⟩ := ih out₁ hscan.terminated
        cases hrun₁ : scanTokens lx n cur₁ out₁ with
        | none =>
          rw [hrun₁] at hrest
          exact ⟨.after hscan hrest, fun _ hb => by cases hb⟩
        | some b =>
          rw [hrun₁] at hrest
          have hscan₁ : Scans lx .code cur₁ out₁ .code b.2.1 b.2.2 := hrest
          refine ⟨hscan.trans hscan₁, fun b' hb => ?_⟩
          cases hb
          exact .cons hkind h₀ h₁ hlt hrange (htokens b hrun₁)

/-- As many calls as there are characters reach the end of the file. -/
theorem scanTokens_eof (lx : Lexer) (n : Nat) {cur cur' : List Char} {out out' : Sinks}
    {tokens : List Token} (h : Terminated cur) (hn : cur.length ≤ n)
    (hrun : scanTokens lx n cur out = some (tokens, cur', out')) :
    ∃ ts t, tokens = ts ++ [t] ∧ t.kind = .eof := by
  induction n generalizing cur out tokens with
  | zero =>
    obtain ⟨c, cs, rfl, -⟩ := h.exists_cons
    exact absurd hn (Nat.not_succ_le_zero _)
  | succ n ih =>
    obtain ⟨hfollows, htoken⟩ := scanToken_follows lx h out
    obtain ⟨⟨token, cur₁, out₁⟩, htok, hrest⟩ := Option.bind_eq_some_iff.mp hrun
    rw [htok] at hfollows
    have hscan : Scans lx .code cur out .code cur₁ out₁ := hfollows
    by_cases hkind : token.kind = .eof
    · simp only [hkind, if_true, Option.some.injEq, Prod.mk.injEq] at hrest
      exact ⟨[], token, hrest.1.symm, hkind⟩
    · simp only [hkind, if_false] at hrest
      obtain ⟨cur₀, h₀, h₁, -, hmoves⟩ := htoken _ htok
      have hlt : cur₁.length < cur₀.length := by
        rcases hmoves with ⟨heof, -⟩ | ⟨-, hlt⟩
        · exact absurd heof hkind
        · exact hlt
      obtain ⟨⟨ts, cur₂, out₂⟩, hrun₁, heq⟩ := Option.bind_eq_some_iff.mp hrest
      cases heq
      have hle := h₀.length_le
      obtain ⟨ts', t, rfl, heof⟩ := ih hscan.terminated (by omega) hrun₁
      exact ⟨token :: ts', t, rfl, heof⟩

/-! ### The whole text -/

/-- What a run over the whole text has to come to: the cursor is at the NUL, which the last token
stands for; each token's range begins where the one before it has ended or later; and the array
`lines` has received the position after each newline. -/
structure Lexed (lx : Lexer) (lines : List Nat) (tokens : List Token) (cur : List Char)
    (out : Sinks) : Prop where
  cursor : cur = ['\x00']
  eof : ∃ ts t, tokens = ts ++ [t] ∧ t.kind = .eof ∧
    t.range = ⟨lx.start + lx.str.chars.length, lx.start + lx.str.chars.length⟩
  ranges : ∀ t ∈ tokens, lx.start ≤ t.range.start ∧ t.range.start ≤ t.range.stop ∧
    (t.kind ≠ .eof → t.range.start < t.range.stop)
  ordered : tokens.Pairwise fun t t' => t.range.stop ≤ t'.range.start
  linePos : out.linePos = some (lines ++ lineStarts lx.start lx.str.chars)

theorem CString.length_text (s : CString) : s.text.length = s.chars.length + 1 := by
  simp only [CString.text, List.length_append, List.length_cons, List.length_nil]

theorem CString.ne_nul (s : CString) : ∀ c ∈ s.chars, c ≠ '\x00' := by
  rintro c hc rfl
  exact absurd (s.bytes _ hc).1 (by decide)

theorem Lexer.calcPos_eq {lx : Lexer} (hfits : lx.start + lx.str.chars.length < 2 ^ 32)
    {cur : List Char} (hcur : ['\x00'] <:+ cur) (hsuf : cur <:+ lx.str.text) :
    lx.calcPos cur + cur.length = lx.start + lx.str.chars.length + 1 := by
  have hone := hcur.length_le
  have hlen := hsuf.length_le
  rw [List.length_singleton] at hone
  rw [lx.str.length_text] at hlen
  simp only [Lexer.calcPos, progPos, lx.str.length_text]
  omega

theorem TokensFrom.ranges {lx : Lexer} (hfits : lx.start + lx.str.chars.length < 2 ^ 32)
    {cur cur' : List Char} {tokens : List Token} (h : TokensFrom lx cur tokens cur')
    (hcur' : cur' = ['\x00']) (hsuf : cur <:+ lx.str.text) :
    (∀ t ∈ tokens, lx.calcPos cur ≤ t.range.start ∧ t.range.start ≤ t.range.stop ∧
      (t.kind ≠ .eof → t.range.start < t.range.stop)) ∧
    tokens.Pairwise fun t t' => t.range.stop ≤ t'.range.start := by
  induction h with
  | nil => exact ⟨fun _ ht => absurd ht List.not_mem_nil, .nil⟩
  | @eof cur token heof hnul hrange =>
    have hpos := lx.calcPos_eq hfits hnul hsuf
    have hpos₀ := lx.calcPos_eq hfits List.suffix_rfl (hnul.trans hsuf)
    have hle := hnul.length_le
    refine ⟨fun t ht => ?_, List.pairwise_singleton _ _⟩
    obtain rfl := List.mem_singleton.mp ht
    rw [hrange]
    exact ⟨by dsimp only; omega, Nat.le_refl _, fun hkind => absurd heof hkind⟩
  | @cons cur cur₀ cur₁ cur' token tokens hkind h₀ h₁ hlt hrange hrest ih =>
    have hnul : ['\x00'] <:+ cur₁ := hcur' ▸ hrest.suffix
    have hpos := lx.calcPos_eq hfits ((hnul.trans h₁).trans h₀) hsuf
    have hpos₀ := lx.calcPos_eq hfits (hnul.trans h₁) (h₀.trans hsuf)
    have hpos₁ := lx.calcPos_eq hfits hnul ((h₁.trans h₀).trans hsuf)
    have hle := h₀.length_le
    obtain ⟨hranges, hordered⟩ := ih hcur' ((h₁.trans h₀).trans hsuf)
    refine ⟨fun t ht => ?_, List.pairwise_cons.mpr ⟨fun t ht => ?_, hordered⟩⟩
    · rcases List.mem_cons.mp ht with rfl | ht
      · rw [hrange]
        exact ⟨by dsimp only; omega, by dsimp only; omega, fun _ => by dsimp only; omega⟩
      · obtain ⟨hstart, hrest⟩ := hranges t ht
        exact ⟨by omega, hrest⟩
    · rw [hrange]
      exact (hranges t ht).1

/-- The lexer stays inside its text, and its ranges and line positions are right, just when no
escape of a literal is a newline, no escape or character literal is cut off by the end, and the
positions of the text fit in 32 bits. -/
theorem scanTokens_lexed_iff (lx : Lexer) (errors : Option (List LexError)) (lines : List Nat) :
    (∃ n tokens cur out, scanTokens lx n lx.str.text ⟨errors, some lines⟩ =
        some (tokens, cur, out) ∧ Lexed lx lines tokens cur out) ↔
      EscapesClosed .code lx.str.chars ∧ lx.start + lx.str.chars.length < 2 ^ 32 := by
  constructor
  · rintro ⟨n, tokens, cur, out, hrun, hlexed⟩
    obtain ⟨hfollows, htokens⟩ :=
      scanTokens_follows lx n ⟨errors, some lines⟩ lx.str.terminated
    have hfrom := htokens _ hrun
    rw [hrun] at hfollows
    obtain ⟨new, hout, hlines⟩ := Scans.recorded hfollows
    obtain ⟨hcur, ⟨ts, t, htokens, heof, hrange⟩, -, -, hlinePos⟩ := hlexed
    dsimp only at hfrom hout hlines
    subst hcur
    rw [lines_nul rfl, Option.map_some, List.append_nil] at hlines
    rw [hlinePos, Option.map_some, Option.some.injEq, List.append_cancel_left_eq] at hout
    subst hout
    refine ⟨(escapesClosed_of_lines lx.str.ne_nul hlines).2 (length_lineStarts _ _), ?_⟩
    -- The last token's position is a `ProgPos`.
    have hpos : t.range = ⟨lx.calcPos ['\x00'], lx.calcPos ['\x00']⟩ :=
      (hfrom.range_of_eof (by rw [htokens]; simp) heof).1
    rw [hrange, ProgRange.mk.injEq] at hpos
    rw [hpos.1]
    exact Nat.mod_lt _ (by decide)
  · rintro ⟨hclosed, hfits⟩
    obtain ⟨hfollows, htokens⟩ :=
      scanTokens_follows lx lx.str.text.length ⟨errors, some lines⟩ lx.str.terminated
    have hexact := lines_of_escapesClosed lx.str.ne_nul hfits
      (by rw [lx.str.length_text]; omega) (by rw [lx.str.length_text]; omega) hclosed
    cases hrun : scanTokens lx lx.str.text.length lx.str.text ⟨errors, some lines⟩ with
    | none =>
      rw [hrun] at hfollows
      have hnone : Front.lines lx .code lx.str.text = none := hfollows
      rw [CString.text, hexact] at hnone
      cases hnone
    | some b =>
      obtain ⟨tokens, cur, out⟩ := b
      rw [hrun] at hfollows
      have hfrom := htokens _ hrun
      obtain ⟨ts, t, rfl, heof⟩ :=
        scanTokens_eof lx _ lx.str.terminated (Nat.le_refl _) hrun
      obtain ⟨hrange, rfl⟩ := hfrom.range_of_eof (t := t) (by simp) heof
      obtain ⟨hranges, hordered⟩ := hfrom.ranges hfits rfl List.suffix_rfl
      have hnul : ['\x00'] <:+ lx.str.text := List.suffix_append _ _
      have hstart := lx.calcPos_eq hfits hnul List.suffix_rfl
      have hend := lx.calcPos_eq hfits List.suffix_rfl hnul
      rw [lx.str.length_text] at hstart
      rw [List.length_singleton] at hend
      obtain ⟨new, hout, hlines⟩ := Scans.recorded hfollows
      refine ⟨_, _, _, _, hrun, rfl, ⟨ts, t, rfl, heof, ?_⟩, fun t' ht' => ?_, hordered, ?_⟩
      · rw [hrange, show lx.calcPos ['\x00'] = lx.start + lx.str.chars.length by omega]
      · obtain ⟨hle, hrest⟩ := hranges t' ht'
        exact ⟨by omega, hrest⟩
      · rw [lines_nul rfl, CString.text, hexact, Option.map_some, List.append_nil,
          Option.some.injEq] at hlines
        rw [hout, ← hlines]
        rfl

/-- A string literal that ends in the middle of an escape: a quote and a backslash. -/
def cutEscape : Lexer :=
  ⟨⟨['"', '\\'], by simp⟩, 0, fun _ => .name, fun _ => some 0, fun _ => some 0⟩

/-- A string literal whose one escape is a newline. -/
def escapedNewline : Lexer :=
  ⟨⟨['"', '\\', '\n', '"'], by simp⟩, 0, fun _ => .name, fun _ => some 0, fun _ => some 0⟩

theorem scanTokens_not_lexed :
    (¬ ∃ n tokens cur out, scanTokens cutEscape n cutEscape.str.text ⟨some [], some []⟩ =
        some (tokens, cur, out) ∧ Lexed cutEscape [] tokens cur out) ∧
    ¬ ∃ n tokens cur out, scanTokens escapedNewline n escapedNewline.str.text
        ⟨some [], some []⟩ = some (tokens, cur, out) ∧
      Lexed escapedNewline [] tokens cur out := by
  constructor
  · rintro ⟨n, tokens, cur, out, hrun, hlexed⟩
    cases n with
    | zero =>
      cases hrun
      exact absurd hlexed.cursor (by decide)
    | succ n =>
      -- The first call reads beyond the NUL.
      have htoken : scanToken cutEscape cutEscape.str.text ⟨some [], some []⟩ = none := rfl
      rw [scanTokens, htoken] at hrun
      cases hrun
  · rintro ⟨n, tokens, cur, out, hrun, hlexed⟩
    have hlines := hlexed.linePos
    rcases n with _ | _ | n
    · cases hrun
      exact absurd hlines (by decide)
    · cases hrun
      exact absurd hlines (by decide)
    · -- Two calls, neither of which records a line.
      cases hrun
      exact absurd hlines (by decide)

end Nibble.Front
