import Nibble.Front.IntLiteral
import Nibble.Front.LexLiterals

/-!
# Integer literals are scanned exactly

`scan_int` reports no error on a word exactly if it is an integer literal, or one
with a separator behind its last digit, and then its value and end are those of
the literal.
-/

namespace Nibble.Front

/-! ## The base -/

/-- The base is that of the prefix. A zero that is no prefix is read like one, with no digits. -/
theorem scanBase_sound {c : Char} {cs : List Char} (h : Terminated (c :: cs))
    (hc : isDecDigit c = true) {rep : TokenIntRep} {base : Nat} {cur : List Char}
    (hscan : scanBase (c :: cs) = some (rep, base, cur)) :
    ∃ pre, c :: cs = pre ++ cur ∧
      (pre = ['0'] ∧ base = 10 ∧ (∀ d ∈ cur.head?, isDecDigit d = false) ∨
        BasePrefix pre base ∧ (pre = [] → cur.head? ≠ some '0') ∧
          (base = 10 → ∀ d ∈ cur.head?, isDecDigit d = true)) := by
  by_cases hzero : c = '0'
  · subst hzero
    obtain ⟨d, ds, rfl, -⟩ := (h.tail (by decide)).exists_cons
    by_cases hx : d = 'x' ∨ d = 'X'
    · simp only [scanBase, List.head?_cons, Option.bind_eq_bind, Option.bind_some, List.tail_cons,
        if_true, Bool.or_eq_true, decide_eq_true_eq, hx] at hscan
      cases hscan
      exact ⟨['0', d], rfl, .inr ⟨.hex hx, by simp, by simp⟩⟩
    · by_cases hb : d = 'b' ∨ d = 'B'
      · simp only [scanBase, List.head?_cons, Option.bind_eq_bind, Option.bind_some,
          List.tail_cons, if_true, Bool.or_eq_true, decide_eq_true_eq, hx, hb, if_false] at hscan
        cases hscan
        exact ⟨['0', d], rfl, .inr ⟨.bin hb, by simp, by simp⟩⟩
      · by_cases ho : isDecDigit d = true
        · simp only [scanBase, List.head?_cons, Option.bind_eq_bind, Option.bind_some,
            List.tail_cons, if_true, Bool.or_eq_true, decide_eq_true_eq, hx, hb, ho,
            if_false] at hscan
          cases hscan
          exact ⟨['0'], rfl, .inr ⟨.oct, by simp, by simp⟩⟩
        · simp only [scanBase, List.head?_cons, Option.bind_eq_bind, Option.bind_some,
            List.tail_cons, if_true, Bool.or_eq_true, decide_eq_true_eq, hx, hb, ho,
            if_false] at hscan
          cases hscan
          exact ⟨['0'], rfl, .inl ⟨rfl, rfl, by simpa using ho⟩⟩
  · simp only [scanBase, List.head?_cons, Option.bind_eq_bind, Option.bind_some, hzero,
      if_false] at hscan
    cases hscan
    exact ⟨[], rfl, .inr ⟨.dec, by simpa using hzero, by simpa using hc⟩⟩

theorem ne_of_isDecDigit {c d : Char} (h : isDecDigit c = true) (hd : isDecDigit d = false) :
    c ≠ d := by
  rintro rfl
  rw [h] at hd
  cases hd

/-- The prefix of a body is read. -/
theorem scanBase_complete {pre : List Char} {base : Nat} (hpre : BasePrefix pre base) {c : Char}
    (hc : IsDigit base c) (hzero : pre = [] → c ≠ '0') (cs : List Char) :
    ∃ rep, scanBase (pre ++ c :: cs) = some (rep, base, c :: cs) := by
  cases hpre with
  | dec => exact ⟨.dec, by simp [scanBase, hzero rfl]⟩
  | oct =>
    have hdec := hc.isDecDigit (by decide)
    have hne : ∀ d, isDecDigit d = false → c ≠ d := fun d hd => ne_of_isDecDigit hdec hd
    exact ⟨.oct, by simp [scanBase, hdec, hne 'x' (by decide), hne 'X' (by decide),
      hne 'b' (by decide), hne 'B' (by decide)]⟩
  | hex hx => exact ⟨.hex, by simp [scanBase, hx]⟩
  | @bin b hb =>
    have hx : ¬ (b = 'x' ∨ b = 'X') := by rcases hb with rfl | rfl <;> decide
    exact ⟨.bin, by simp [scanBase, hb, hx]⟩

/-! ## The suffix -/

/-- Behind the digits stands a character that is no part of them. -/
theorem IntSuffix.head {suf : List Char} (h : IntSuffix suf) {c : Char}
    (hc : isAlphanum c = false) (cs : List Char) :
    ∃ e es, suf ++ c :: cs = e :: es ∧ biasedDigit e = 0 ∧ e ≠ '_' ∧ isDecDigit e = false ∧
      ¬ (e = 'x' ∨ e = 'X') ∧ ¬ (e = 'b' ∨ e = 'B') := by
  rcases h with rfl | rfl | rfl
  · have hne : ∀ d, isAlphanum d = true → c ≠ d := fun d hd => (ne_of_isAlphanum hd hc).symm
    refine ⟨c, cs, rfl, ?_, hne _ (by decide), ?_, ?_, ?_⟩
    · by_contra hb
      rw [isAlphanum_of_biasedDigit hb] at hc
      cases hc
    · rw [Bool.eq_false_iff]
      intro hdec
      rw [isAlphanum_of_isDecDigit hdec] at hc
      cases hc
    · exact not_or.mpr ⟨hne _ (by decide), hne _ (by decide)⟩
    · exact not_or.mpr ⟨hne _ (by decide), hne _ (by decide)⟩
  · exact ⟨'u', c :: cs, rfl, by decide⟩
  · exact ⟨'s', c :: cs, rfl, by decide⟩

theorem scanSuffix_complete {suf : List Char} (h : IntSuffix suf) {c : Char}
    (hc : isAlphanum c = false) (cs : List Char) :
    ∃ suffix, scanSuffix (suf ++ c :: cs) = some (suffix, c :: cs) := by
  rcases h with rfl | rfl | rfl
  · have hne : ∀ d, isAlphanum d = true → c ≠ d := fun d hd => (ne_of_isAlphanum hd hc).symm
    exact ⟨.none, by simp [scanSuffix, hne 'u' (by decide), hne 's' (by decide)]⟩
  · exact ⟨.u, rfl⟩
  · exact ⟨.s, rfl⟩

theorem scanSuffix_sound {cur cur' : List Char} {suffix : TokenIntSuffix}
    (h : scanSuffix cur = some (suffix, cur')) : ∃ suf, cur = suf ++ cur' ∧ IntSuffix suf := by
  cases cur with
  | nil => cases h
  | cons c cs =>
    simp only [scanSuffix, List.head?_cons, Option.bind_eq_bind, Option.bind_some,
      List.tail_cons] at h
    split at h
    · next hu =>
      cases h
      exact ⟨['u'], by rw [hu]; rfl, .inr (.inl rfl)⟩
    · split at h
      · next hs =>
        cases h
        exact ⟨['s'], by rw [hs]; rfl, .inr (.inr rfl)⟩
      · cases h
        exact ⟨[], rfl, .inl rfl⟩

/-! ## The literal -/

theorem errors_ne (es : List LexError) (lp lp' : Option (List Nat)) (range : ProgRange)
    (format : String) (args : List FormatArg) (tint tint' : TokenInt) (cur cur' : List Char) :
    some (tint, cur, (⟨some es, lp⟩ : Sinks).onError range format args) ≠
      some (tint', cur', (⟨some es, lp'⟩ : Sinks)) := by
  intro h
  have hout := (Prod.mk.inj (Prod.mk.inj (Option.some.inj h)).2).2
  have hlen := congrArg (fun out : Sinks => out.errors.map List.length) hout
  simp [Sinks.onError] at hlen

/-- Words that `scan_int` takes for a literal. -/
theorem scanInt_sound {lx : Lexer} {c : Char} {cs : List Char} (h : Terminated (c :: cs))
    (hc : isDecDigit c = true) {es : List LexError} {lp lp' : Option (List Nat)} {tint : TokenInt}
    {cur : List Char}
    (hscan : scanInt lx (c :: cs) ⟨some es, lp⟩ = some (tint, cur, ⟨some es, lp'⟩)) :
    ∃ body sep suf, c :: cs = body ++ sep ++ suf ++ cur ∧ IntBody body tint.value ∧
      tint.value < 2 ^ 64 ∧ (sep = [] ∨ sep = ['_'] ∧ body ≠ ['0']) ∧ IntSuffix suf ∧
        ∀ d ∈ cur.head?, isAlphanum d = false := by
  obtain ⟨rep, base, cur₁, hbase, hidle₁, -⟩ := scanBase_idles h
  have h₁ := hidle₁.terminated h
  obtain ⟨e, es₁, rfl, -⟩ := h₁.exists_cons
  obtain ⟨w, hw, -⟩ := skipWordEnd_idles (fun _ => idle_code_of_alphanum) h₁
  rw [scanInt.eq_def] at hscan
  simp only [List.head?_cons, Option.bind_eq_bind, Option.bind_some, hc, guard_true,
    Option.pure_def, hbase, hw] at hscan
  split at hscan
  · exact absurd hscan (errors_ne es lp lp' _ _ _ _ _ _ _)
  · rename_i hspec
    obtain ⟨err, v, cur₂, hdigits, hidle₂⟩ := scanDigits_idles base (2 ^ 64 - 1) 0 h₁
    have h₂ := hidle₂.terminated h₁
    obtain ⟨f, fs, rfl, -⟩ := h₂.exists_cons
    obtain ⟨w₂, hw₂, -⟩ := skipWordEnd_idles (fun _ => idle_code_of_alphanum) h₂
    obtain ⟨suffix, cur₃, hsuffix, hidle₃⟩ := scanSuffix_idles h₂
    have h₃ := hidle₃.terminated h₂
    obtain ⟨g, gs, rfl, -⟩ := h₃.exists_cons
    obtain ⟨w₃, hw₃, -⟩ := skipWordEnd_idles (fun _ => idle_code_of_alphanum) h₃
    simp only [hdigits, List.head?_cons, Option.bind_some, hw₂, hsuffix, hw₃] at hscan
    cases err with
    | exceedBase => exact absurd hscan (errors_ne es lp lp' _ _ _ _ _ _ _)
    | overflow => exact absurd hscan (errors_ne es lp lp' _ _ _ _ _ _ _)
    | none =>
      simp only at hscan
      split at hscan
      · exact absurd hscan (errors_ne es lp lp' _ _ _ _ _ _ _)
      · rename_i hend
        cases Option.some.inj hscan
        obtain ⟨pre, hpre, hkind⟩ := scanBase_sound h hc hbase
        have hbounds : 0 < base ∧ base ≤ 16 := by
          rcases hkind with ⟨-, rfl, -⟩ | ⟨hp, -, -⟩
          · decide
          · exact hp.base_le
        obtain ⟨ds, hds, hread, hv, hle, hstop⟩ :=
          scanDigits_sound hbounds.1 (by omega) hdigits
        obtain ⟨suf, hsuf, hsuffix⟩ := scanSuffix_sound hsuffix
        have hend' : ∀ d ∈ (g :: gs).head?, isAlphanum d = false := by simpa using hend
        have hv64 : v < 2 ^ 64 := by
          have := hle (Nat.zero_le _)
          omega
        have hstart : ∀ ds', ds' ++ f :: fs = e :: es₁ →
            c :: cs = pre ++ ds' ++ suf ++ g :: gs := by
          intro ds' h
          rw [hpre, ← h, hsuf]
          simp
        rcases hkind with ⟨rfl, rfl, hnodigit⟩ | ⟨hbp, hfirst, hdec⟩
        · -- a plain zero, which no digit follows
          have hnil : ds = [] := by
            rcases hread with rfl | hseq | ⟨ds', rfl, hseq⟩
            · rfl
            all_goals
              obtain ⟨d, ds'', rfl, hd⟩ := hseq.exists_cons
              obtain ⟨rfl, -⟩ := List.cons.inj hds
              have hdec := hd.isDecDigit (by decide)
              rw [hnodigit e rfl] at hdec
              cases hdec
          subst hnil
          rw [appendValue_nil] at hv
          subst hv
          refine ⟨['0'], [], suf, ?_, .zero, hv64, .inl rfl, hsuffix, hend'⟩
          exact hstart [] hds.symm
        · have hne : ds ≠ [] := by
            rintro rfl
            obtain ⟨rfl, -⟩ := List.cons.inj hds
            have hb := hstop e rfl
            have hten : base = 10 := by
              by_contra hten
              exact hspec ⟨hb, hten⟩
            exact (isDigit_of_isDecDigit (hdec hten e rfl)).1 hb
          have hbody : ∀ ds', DigitSeq base ds' → (∃ sep, ds = ds' ++ sep) →
              IntBody (pre ++ ds') (seqValue base ds') := by
            rintro ds' hseq ⟨sep, hsep⟩
            refine .digits hbp hseq fun hp => ?_
            obtain ⟨d, ds'', rfl, -⟩ := hseq.exists_cons
            rw [hsep] at hds
            obtain ⟨rfl, -⟩ := List.cons.inj hds
            exact hfirst hp
          rcases hread with rfl | hseq | ⟨ds', rfl, hseq⟩
          · exact absurd rfl hne
          · refine ⟨pre ++ ds, [], suf, ?_, ?_, hv64, .inl rfl, hsuffix, hend'⟩
            · rw [List.append_nil]
              exact hstart ds hds.symm
            · rw [hv, ← seqValue_eq]
              exact hbody ds hseq ⟨[], by simp⟩
          · refine ⟨pre ++ ds', ['_'], suf, ?_, ?_, hv64, .inr ⟨rfl, ?_⟩, hsuffix, hend'⟩
            · rw [List.append_assoc pre]
              exact hstart (ds' ++ ['_']) hds.symm
            · rw [hv, appendValue_append, ← seqValue_eq]
              exact hbody ds' hseq ⟨['_'], rfl⟩
            · intro hzero
              obtain ⟨d, ds'', rfl, -⟩ := hseq.exists_cons
              cases hbp with
              | dec =>
                obtain ⟨rfl, -⟩ := List.cons.inj hzero
                obtain ⟨rfl, -⟩ := List.cons.inj hds
                exact hfirst rfl rfl
              | oct => simp at hzero
              | hex _ => simp at hzero
              | bin _ => simp at hzero

/-- Literals are read, also with a separator behind the last digit. -/
theorem scanInt_complete (lx : Lexer) {body sep suf : List Char} {v : Nat} (hbody : IntBody body v)
    (hv : v < 2 ^ 64) (hsep : sep = [] ∨ sep = ['_'] ∧ body ≠ ['0']) (hsuf : IntSuffix suf)
    {c : Char} (hc : isAlphanum c = false) (cs : List Char) (out : Sinks) :
    ∃ rep suffix, scanInt lx (body ++ sep ++ suf ++ c :: cs) out =
      some (⟨v, rep, suffix⟩, c :: cs, out) := by
  obtain ⟨suffix, hsuffix⟩ := scanSuffix_complete hsuf hc cs
  obtain ⟨e, es, htail, he, hsep', hdec, hx, hb⟩ := hsuf.head hc cs
  rw [List.append_assoc _ suf, htail]
  rw [htail] at hsuffix
  cases hbody with
  | zero =>
    obtain rfl : sep = [] := hsep.resolve_right fun h => h.2 rfl
    refine ⟨.dec, suffix, ?_⟩
    have hbase : scanBase ('0' :: e :: es) = some (.dec, 10, e :: es) := by
      simp [scanBase, hx, hb, hdec]
    have hdigits : scanDigits 10 (2 ^ 64 - 1) (e :: es) 0 = some (.none, 0, e :: es) :=
      scanDigits_stop he
    show scanInt lx ('0' :: e :: es) out = _
    rw [scanInt.eq_def]
    simp only [List.head?_cons, Option.bind_eq_bind, Option.bind_some,
      show isDecDigit '0' = true by decide, guard_true, Option.pure_def, hbase, ne_eq,
      not_true_eq_false, and_false, if_false, hdigits, hsuffix, hc]
    rfl
  | @digits pre ds base hpre hds hzero =>
    obtain ⟨d, ds', rfl, hd⟩ := hds.exists_cons
    obtain ⟨hbase0, hbase16⟩ := hpre.base_le
    obtain ⟨rep, hbase⟩ := scanBase_complete hpre hd (fun h hd => hzero h (by rw [hd]; rfl))
      (ds' ++ sep ++ e :: es)
    have hdigits : scanDigits base (2 ^ 64 - 1) (d :: ds' ++ sep ++ e :: es) 0 =
        some (.none, appendValue base 0 (d :: ds'), e :: es) :=
      scanDigits_complete hbase0 (by omega) hds (by rw [← seqValue_eq]; omega) he
        (hsep.imp (fun h => ⟨h, hsep'⟩) (·.1))
    rw [← seqValue_eq] at hdigits
    have hstart : ∃ z zs, pre ++ d :: (ds' ++ sep ++ e :: es) = z :: zs ∧ isDecDigit z = true := by
      cases hpre with
      | dec => exact ⟨d, _, rfl, hd.isDecDigit (by decide)⟩
      | oct => exact ⟨'0', _, rfl, by decide⟩
      | hex _ => exact ⟨'0', _, rfl, by decide⟩
      | bin _ => exact ⟨'0', _, rfl, by decide⟩
    obtain ⟨z, zs, hz, hzdec⟩ := hstart
    refine ⟨rep, suffix, ?_⟩
    have hassoc : pre ++ d :: ds' ++ sep ++ e :: es = pre ++ d :: (ds' ++ sep ++ e :: es) := by
      simp
    rw [hassoc, hz, scanInt.eq_def]
    rw [hz] at hbase
    have hdigits' : scanDigits base (2 ^ 64 - 1) (d :: (ds' ++ sep ++ e :: es)) 0 =
        some (.none, seqValue base (d :: ds'), e :: es) := hdigits
    simp only [List.head?_cons, Option.bind_eq_bind, Option.bind_some, hzdec, guard_true,
      Option.pure_def, hbase, hd.1, false_and, if_false, hdigits', hsuffix, hc]
    rfl

/-! ## Words -/

theorem wordAt_append {w : List Char} (hw : ∀ c ∈ w, isAlphanum c = true) {c : Char}
    (hc : isAlphanum c = false) (cs : List Char) : wordAt (w ++ c :: cs) = w := by
  rw [wordAt, List.takeWhile_append_of_pos hw, List.takeWhile_cons_of_neg (by simp [hc]),
    List.append_nil]

/-- Behind the word stands a character that is no part of it. -/
theorem exists_wordAt {start : List Char} (h : Terminated start) :
    ∃ c cs, start = wordAt start ++ c :: cs ∧ isAlphanum c = false := by
  obtain ⟨cur, hskip, hidle⟩ := skipWhile_idles (fun _ => idle_code_of_alphanum) h
  obtain ⟨c, cs, rfl, -⟩ := (hidle.terminated h).exists_cons
  refine ⟨c, cs, ?_, head_of_skipWhile hskip⟩
  rw [eq_dropWhile_of_skipWhile hskip, wordAt, List.takeWhile_append_dropWhile]

/-- No error is reported exactly on an integer literal, whose value and end are then returned, and
nothing leaves the range of 64 bits on the way. -/
def ReadsIntLiteral (lx : Lexer) (start : List Char) (es : List LexError)
    (lp : Option (List Nat)) : Prop :=
  ∃ tint cur out, scanInt lx start ⟨some es, lp⟩ = some (tint, cur, out) ∧
    (out.errors = some es ↔ ∃ v, IntLiteral (wordAt start) v) ∧
    (∀ v, IntLiteral (wordAt start) v → start = wordAt start ++ cur ∧ tint.value = v) ∧
    ∀ rep base cur₁, scanBase start = some (rep, base, cur₁) →
      ∀ p ∈ scanDigitsSteps base (2 ^ 64 - 1) cur₁ 0, p.2 < 2 ^ 64 ∧ p.1 * base + p.2 < 2 ^ 64

/-- `scan_int` reads exactly the integer literals, except for those with a separator behind the last
digit, which it takes too. -/
theorem scanInt_exact (lx : Lexer) {start : List Char} (h : Terminated start)
    (hd : startsWithDigit start = true) (es : List LexError) (lp : Option (List Nat)) :
    ReadsIntLiteral lx start es lp ↔ ¬ TrailingSeparator (wordAt start) := by
  obtain ⟨c, cs, rfl, -⟩ := h.exists_cons
  have hc : isDecDigit c = true := by simpa [startsWithDigit] using hd
  obtain ⟨z, zs, hstart, hz⟩ := exists_wordAt h
  -- what is read of a word that is a literal, perhaps with a separator
  have hread : ∀ {body sep suf : List Char} {v : Nat}, IntBody body v → v < 2 ^ 64 →
      sep = [] ∨ sep = ['_'] ∧ body ≠ ['0'] → IntSuffix suf →
        wordAt (c :: cs) = body ++ sep ++ suf →
          ∃ rep suffix, scanInt lx (c :: cs) ⟨some es, lp⟩ =
            some (⟨v, rep, suffix⟩, z :: zs, ⟨some es, lp⟩) := by
    intro body sep suf v hbody hv hsep hsuf hword
    rw [hstart, hword]
    exact scanInt_complete lx hbody hv hsep hsuf hz zs _
  constructor
  · rintro ⟨tint, cur, out, hscan, herr, -, -⟩ htrail
    obtain ⟨body, suf, v, hbody, hne, hv, hsuf, hword⟩ := htrail
    obtain ⟨rep, suffix, hrun⟩ := hread hbody hv (.inr ⟨rfl, hne⟩) hsuf (by simpa using hword)
    rw [hrun] at hscan
    cases hscan
    obtain ⟨w, hlit⟩ := herr.mp rfl
    exact not_trailingSeparator hlit ⟨body, suf, v, hbody, hne, hv, hsuf, hword⟩
  · intro htrail
    obtain ⟨tint, cur, out, hscan, hto, -⟩ := scanInt_reads lx ⟨some es, lp⟩ h hc
    have hlit : ∀ v, IntLiteral (wordAt (c :: cs)) v →
        tint.value = v ∧ cur = z :: zs ∧ out = ⟨some es, lp⟩ := by
      rintro v ⟨body, suf, hbody, hv, hsuf, hword⟩
      obtain ⟨rep, suffix, hrun⟩ := hread hbody hv (.inl rfl) hsuf (by simpa using hword)
      rw [hrun] at hscan
      cases hscan
      exact ⟨rfl, rfl, rfl⟩
    refine ⟨tint, cur, out, hscan, ⟨fun herr => ?_, ?_⟩, fun v hv => ?_, fun rep base cur₁ hbase => ?_⟩
    · obtain ⟨errors, linePos⟩ := out
      obtain rfl : errors = some es := herr
      obtain ⟨body, sep, suf, htext, hbody, hv, hsep, hsuf, hend⟩ := scanInt_sound h hc hscan
      obtain ⟨d, ds, rfl, -⟩ := (hto.idles.terminated h).exists_cons
      have hall : ∀ x ∈ body ++ sep ++ suf, isAlphanum x = true := by
        intro x hx
        rcases List.mem_append.mp hx with hx | hx
        · rcases List.mem_append.mp hx with hx | hx
          · exact hbody.alphanum x hx
          · rcases hsep with rfl | ⟨rfl, -⟩
            · cases hx
            · rw [List.mem_singleton.mp hx]
              decide
        · exact hsuf.alphanum x hx
      have hword : wordAt (c :: cs) = body ++ sep ++ suf := by
        rw [htext]
        exact wordAt_append hall (hend d rfl) ds
      rcases hsep with rfl | ⟨rfl, hne⟩
      · exact ⟨tint.value, body, suf, hbody, hv, hsuf, by simpa using hword⟩
      · exact absurd ⟨body, suf, tint.value, hbody, hne, hv, hsuf, by simpa using hword⟩ htrail
    · rintro ⟨v, hv⟩
      rw [(hlit v hv).2.2]
    · obtain ⟨hval, rfl, -⟩ := hlit v hv
      exact ⟨hstart, hval⟩
    · obtain ⟨pre, -, hkind⟩ := scanBase_sound h hc hbase
      have hbounds : 0 < base ∧ base ≤ 16 := by
        rcases hkind with ⟨-, rfl, -⟩ | ⟨hp, -, -⟩
        · decide
        · exact hp.base_le
      intro p hp
      have hle := scanDigitsSteps_le hbounds.1 (by omega) cur₁ 0 p hp
      omega

/-- A lexer at the start of a text. -/
def lexerAt (text : CString) : Lexer :=
  ⟨text, 0, fun _ => .name, fun _ => some 0, fun _ => some 0⟩

/-- The largest literal. -/
def maxLiteral : CString := ⟨"0xFFFF_FFFF_ffff_ffffu".toList, bytes_of_all (by decide)⟩

theorem scanInt_exact_max :
    ReadsIntLiteral (lexerAt maxLiteral) maxLiteral.text [] none ↔
      ¬ TrailingSeparator (wordAt maxLiteral.text) :=
  scanInt_exact (lexerAt maxLiteral) maxLiteral.terminated (by decide) [] none

/-- `1_` is no integer literal, and is scanned without an error. -/
theorem not_readsIntLiteral_trailing :
    ¬ ReadsIntLiteral (lexerAt ⟨['1', '_'], bytes_of_all (by decide)⟩) ['1', '_', '\x00'] [] none := by
  rintro ⟨tint, cur, out, hscan, herr, -⟩
  have hrun : scanInt (lexerAt ⟨['1', '_'], bytes_of_all (by decide)⟩) ['1', '_', '\x00'] ⟨some [], none⟩ =
      some (⟨1, .dec, .none⟩, ['\x00'], ⟨some [], none⟩) := by decide
  rw [hrun] at hscan
  cases hscan
  obtain ⟨v, hlit⟩ := herr.mp rfl
  refine not_trailingSeparator hlit ⟨['1'], [], 1, ?_, by decide, by decide, .inl rfl, rfl⟩
  exact .digits .dec (.one ⟨by decide, by decide⟩) (by decide)

end Nibble.Front
