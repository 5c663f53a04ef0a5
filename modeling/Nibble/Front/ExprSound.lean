import Nibble.Front.ExprComplete

/-!
# What is parsed is a word of the grammar

Of each procedure: without an error it has read a word of its nonterminal, and
what follows does not make that word longer. A name in front of `=` is read as
an expression first, which also accepts a name in parentheses; `BareNames`
leaves these words out.
-/

namespace Nibble.Front

open Nibble.Lib

/-- No `)` is followed by `=`. -/
def BareNames (w : List Token) : Prop := ¬ [TokenKind.rparen, .assign] <:+: w.map Token.kind

theorem bareNames_infixClosed : InfixClosed BareNames := by
  intro u w v h hw
  refine h (hw.trans ?_)
  rw [List.map_append, List.map_append]
  exact List.infix_append _ _ _

theorem not_bareNames {u v : List Token} {r a : Token} (hr : r.kind = .rparen)
    (ha : a.kind = .assign) : ¬ BareNames (u ++ [r] ++ a :: v) := by
  refine fun h => h ⟨u.map Token.kind, v.map Token.kind, ?_⟩
  simp [hr, ha]

variable {τ : Type} {T : TypespecParser τ}

/-! ### Primitives -/

section Primitives

variable {α : Type} {x y : Parser α} {R : List Token → α → List Token → Prop} {k : TokenKind}

theorem expectToken_reads {errorPrefix : Option String} :
    Reads BareNames (expectToken k errorPrefix) fun w t _ => w = [t] ∧ t.kind = k := by
  have hreject : ∀ err : ParseError, Reads BareNames (Parse.reject err) fun w t _ =>
      w = [t] ∧ t.kind = k := fun _ => .reject
  rintro ⟨_ | ⟨t, ts⟩, errs⟩ r s' hrun
  · exact hreject _ _ _ _ hrun
  · simp only [expectToken] at hrun
    split at hrun
    · cases hrun
      exact ⟨List.prefix_rfl, fun _ => ⟨[t], t, rfl, rfl, fun _ => ⟨rfl, ‹_›⟩⟩⟩
    · exact hreject _ _ _ _ hrun

theorem nextToken_reads : Reads BareNames nextToken fun w o rest =>
    o = (w ++ rest).head? ∧ w = o.toList := by
  rintro ⟨_ | ⟨t, ts⟩, errs⟩ r s' hrun
  · cases hrun
    exact ⟨List.prefix_rfl, fun _ => ⟨[], none, rfl, rfl, fun _ => ⟨rfl, rfl⟩⟩⟩
  · cases hrun
    exact ⟨List.prefix_rfl, fun _ => ⟨[t], some t, rfl, rfl, fun _ => ⟨rfl, rfl⟩⟩⟩

theorem matchToken_reads (hk : k ≠ .eof) : Reads BareNames (matchToken k) fun w b rest =>
    b = true ∧ (∃ t, w = [t] ∧ t.kind = k) ∨ b = false ∧ w = [] ∧ tokenKind rest ≠ k := by
  rintro ⟨_ | ⟨t, ts⟩, errs⟩ r s' hrun
  · cases hrun
    exact ⟨List.prefix_rfl, fun _ => ⟨[], false, rfl, rfl, fun _ => .inr ⟨rfl, rfl, hk.symm⟩⟩⟩
  · simp only [matchToken] at hrun
    split at hrun
    · cases hrun
      exact ⟨List.prefix_rfl, fun _ => ⟨[t], true, rfl, rfl, fun _ => .inl ⟨rfl, t, rfl, ‹_›⟩⟩⟩
    · cases hrun
      exact ⟨List.prefix_rfl, fun _ => ⟨[], false, rfl, rfl, fun _ => .inr ⟨rfl, rfl, ‹_›⟩⟩⟩

theorem parseTypespec_reads : Reads BareNames (parseTypespec T) fun w t rest =>
    T.Derives w t ∧ ¬ T.continues w (tokenKind rest) := by
  intro s r s' hrun
  obtain ⟨hr, hs⟩ := Prod.mk.inj (Option.some.inj hrun)
  refine ⟨hs ▸ T.errors s, fun he => ?_⟩
  cases r with
  | none => exact absurd (hs ▸ he) (T.reports s hr)
  | some t =>
    have hparse : T.parse s = (some t, ⟨s'.toks, s.errors⟩) := by
      rw [← he]
      exact Prod.ext hr hs
    obtain ⟨w, hw, hd, hc⟩ := (T.exact s t s'.toks).mp hparse
    exact ⟨w, t, rfl, hw, fun _ => ⟨hd, hc⟩⟩

/-- What a token that is expected leaves to be read. -/
theorem expect_reads {f : Token → Parser α} {errorPrefix : Option String}
    (hf : ∀ t, Reads BareNames (f t) fun w a rest => t.kind = k → R (t :: w) a rest) :
    Reads BareNames (expectToken k errorPrefix >>= f) R := by
  refine .bind bareNames_infixClosed expectToken_reads fun t => (hf t).imp ?_
  rintro w a rest - h u - ⟨rfl, ht⟩
  exact h ht

/-- A branch on the kind of the current token. -/
theorem ite_reads {p : TokenKind → Bool}
    (hx : Reads BareNames x fun w a rest => p (tokenKind (w ++ rest)) = true → R w a rest)
    (hy : Reads BareNames y fun w a rest => p (tokenKind (w ++ rest)) = false → R w a rest) :
    Reads BareNames (do if ← isToken p then x else y) R := by
  intro s r s' hrun
  change (if p (tokenKind s.toks) then x else y) s = some (r, s') at hrun
  split at hrun
  · obtain ⟨hpre, hclean⟩ := hx s r s' hrun
    refine ⟨hpre, fun he => ?_⟩
    obtain ⟨w, a, hr, hw, hR⟩ := hclean he
    exact ⟨w, a, hr, hw, fun hg => hR hg (hw ▸ ‹_›)⟩
  · obtain ⟨hpre, hclean⟩ := hy s r s' hrun
    refine ⟨hpre, fun he => ?_⟩
    obtain ⟨w, a, hr, hw, hR⟩ := hclean he
    exact ⟨w, a, hr, hw, fun hg => hR hg (hw ▸ Bool.eq_false_iff.mpr ‹_›)⟩

/-- A branch on a token that is passed. -/
theorem match_reads (hk : k ≠ .eof)
    (hx : Reads BareNames x fun w a rest => ∀ t, t.kind = k → R (t :: w) a rest)
    (hy : Reads BareNames y fun w a rest => tokenKind (w ++ rest) ≠ k → R w a rest) :
    Reads BareNames (do if ← matchToken k then x else y) R := by
  refine .bind bareNames_infixClosed (matchToken_reads hk) fun b => ?_
  cases b with
  | true =>
    refine hx.imp ?_
    rintro w a rest - h u - (⟨-, t, rfl, ht⟩ | ⟨hb, -⟩)
    · exact h t ht
    · cases hb
  | false =>
    refine hy.imp ?_
    rintro w a rest - h u - (⟨hb, -⟩ | ⟨-, rfl, ht⟩)
    · cases hb
    · exact h ht

end Primitives

/-! ### Nonterminals -/

/-- What the procedure of `l` has read: nothing of what follows is left for it. -/
def HasRead (T : TypespecParser τ) (l : Level) (w : List Token) (e : Expr τ) (rest : List Token) :
    Prop :=
  ∃ d, Derives T w (.expr l e d) ∧ ¬ d.Continues T (tokenKind rest) ∧
    l.inner (tokenKind rest) = false ∧ l.takes (tokenKind rest) = false

variable {l : Level} {w rest : List Token} {e : Expr τ} {d : End} {k : TokenKind}

theorem HasRead.isExpr (h : HasRead T .expr w e rest) : IsExpr T w e rest := by
  obtain ⟨d, hd, hc, hi, -⟩ := h
  exact ⟨d, hd, hc, hi⟩

/-- What neither an operand nor its loop takes is not taken. -/
theorem inner_of_operand (hq : l = .expr → k ≠ .question) (h : l.operand.inner k = false)
    (ht : l.operand.takes k = false) : l.inner k = false := by
  cases l <;> simp_all [Level.inner, Level.operand, Level.takes, Level.binary]

theorem HasRead.lift (hl : l ≠ .base) (hq : l = .expr → tokenKind rest ≠ .question)
    (ht : l.takes (tokenKind rest) = false) (h : HasRead T l.operand w e rest) :
    HasRead T l w e rest := by
  obtain ⟨d, hd, hc, hi, ht'⟩ := h
  exact ⟨d, .operand hl hd, hc, inner_of_operand hq hi ht', ht⟩

/-- A name as an expression: a word of names, or something in parentheses. -/
theorem derives_ident {ns : List (List Char)} (h : Derives T w (.expr l (.ident ns) d)) :
    Derives T w (.idents ns) ∨ ∃ u r, w = u ++ [r] ∧ r.kind = .rparen := by
  generalize hph : Phrase.expr l (.ident ns) d = ph at h
  induction h generalizing l d with
  | literal ht =>
    cases hph
    unfold literal? at ht
    split at ht
    · cases ht
    · cases ht
    · cases ht
    · split at ht <;> cases ht
    · cases ht
  | ident h =>
    cases hph
    exact .inl h
  | paren _ _ hr => exact .inr ⟨_, _, (List.cons_append ..).symm, hr⟩
  | @keywordType _ kw _ _ _ _ _ _ _ hmk =>
    cases kw <;> cases hmk <;> cases hph
  | @keywordField _ kw _ _ _ _ _ _ _ _ _ hmk =>
    cases kw <;> cases hmk <;> cases hph
  | operand _ _ ih =>
    cases hph
    exact ih rfl
  | _ => cases hph

/-- A name without a namespace is one token. -/
theorem derives_name {ns : List (List Char)} (h : Derives T w (.idents ns))
    (hns : ¬ ns.length > 1) :
    ∃ n, w = [n] ∧ n.kind = .ident ∧ ns.getLast?.getD [] = n.asIdent := by
  cases h with
  | identLast ht => exact ⟨_, rfl, ht, rfl⟩
  | identCons _ _ h =>
    cases h <;> simp at hns

/-! ### Procedures -/

section

variable {expr : Parser (Expr τ)}

theorem namespacedIdentLoop_reads (errPrefix : String) (m : Nat) (acc : List (List Char)) :
    Reads BareNames (namespacedIdentLoop errPrefix m acc) fun w ns rest =>
      ∃ ns', ns = acc ++ ns' ∧ Derives T w (.idents ns') ∧ tokenKind rest ≠ .dblColon := by
  induction m generalizing acc with
  | zero => exact .outOfFuel
  | succ m ih =>
    refine expect_reads fun t => match_reads (by decide) ((ih _).imp ?_) (.pure ?_)
    · rintro w ns rest - ⟨ns', rfl, hw, hr⟩ c hc ht
      exact ⟨t.asIdent :: ns', by simp, .identCons ht hc hw, hr⟩
    · intro rest hr ht
      exact ⟨[t.asIdent], rfl, .identLast ht, hr⟩

/-- An expression, and a token that must follow it. -/
theorem enclosed_reads (hexpr : Reads BareNames expr (IsExpr T)) {kind : TokenKind}
    {errorPrefix : Option String} {α : Type} {f : Expr τ → Parser α}
    {R : List Token → α → List Token → Prop}
    (hf : ∀ e, Reads BareNames (f e) fun w a rest => ∀ u d c, Derives T u (.expr .expr e d) →
      c.kind = kind → R (u ++ c :: w) a rest) :
    Reads BareNames (do
      let e ← expr
      let _ ← expectToken kind errorPrefix
      f e) R := by
  refine .bind bareNames_infixClosed hexpr fun e => expect_reads fun c => (hf e).imp ?_
  rintro w a rest - h hc u - ⟨d, hu, -⟩
  exact h u d c hu hc

/-- A type, and a token that must follow it. -/
theorem enclosedType_reads {kind : TokenKind} {errorPrefix : Option String} {α : Type}
    {f : τ → Parser α} {R : List Token → α → List Token → Prop}
    (hf : ∀ t, Reads BareNames (f t) fun w a rest => ∀ u c, T.Derives u t →
      c.kind = kind → R (u ++ c :: w) a rest) :
    Reads BareNames (do
      let t ← parseTypespec T
      let _ ← expectToken kind errorPrefix
      f t) R := by
  refine .bind bareNames_infixClosed parseTypespec_reads fun t => expect_reads fun c =>
    (hf t).imp ?_
  rintro w a rest - h hc u - ⟨hu, -⟩
  exact h u c hu hc

theorem parseNonindexMemberInitializer_reads (hexpr : Reads BareNames expr (IsExpr T)) :
    Reads BareNames (parseNonindexMemberInitializer expr) fun w i _ =>
      Derives T w (.initzer i) := by
  refine .bind bareNames_infixClosed hexpr fun e => match_reads (by decide) ?_ (.pure ?_)
  · split
    · split
      · exact .reject
      · refine .bind bareNames_infixClosed hexpr fun init => .pure ?_
        rintro rest w hg ⟨dw, hw, -⟩ a ha u hgu ⟨du, hu, -⟩
        rw [List.append_nil] at hgu ⊢
        rcases derives_ident hu with hu | ⟨u', r, rfl, hr⟩
        · obtain ⟨n, rfl, hn, hname⟩ := derives_name hu ‹_›
          rw [hname]
          exact .initzerName hn ha hw
        · exact absurd hgu (not_bareNames hr ha)
    · exact .reject
  · rintro rest - u - ⟨d, hu, -⟩
    rw [List.append_nil]
    exact .initzer hu

theorem parseIndexMemberInitializer_reads (hexpr : Reads BareNames expr (IsExpr T)) :
    Reads BareNames (parseIndexMemberInitializer expr) fun w i _ => Derives T w (.initzer i) := by
  refine expect_reads fun l => enclosed_reads hexpr fun index => expect_reads fun a =>
    .bind bareNames_infixClosed hexpr fun init => .pure ?_
  rintro rest w - ⟨dw, hw, -⟩ ha u du r hu hr hl
  rw [List.append_nil]
  exact .initzerIndex hl hu hr ha hw

theorem parseMemberInitializer_reads (hexpr : Reads BareNames expr (IsExpr T)) :
    Reads BareNames (parseMemberInitializer expr) fun w i _ => Derives T w (.initzer i) :=
  ite_reads ((parseIndexMemberInitializer_reads hexpr).imp fun _ _ _ _ h _ => h)
    ((parseNonindexMemberInitializer_reads hexpr).imp fun _ _ _ _ h _ => h)

theorem initzerLoop_reads (hexpr : Reads BareNames expr (IsExpr T)) (m : Nat)
    (acc : List (MemberInitializer τ)) :
    Reads BareNames (initzerLoop expr m acc) fun w is _ =>
      ∃ is', is = acc ++ is' ∧ Derives T w (.initzers is') := by
  induction m generalizing acc with
  | zero => exact .outOfFuel
  | succ m ih =>
    refine ite_reads ?_ (.pure fun rest _ => ⟨[], (List.append_nil _).symm, .initzersNil⟩)
    refine .bind bareNames_infixClosed (parseMemberInitializer_reads hexpr) fun i =>
      match_reads (by decide) ((ih _).imp ?_) (.pure ?_)
    · rintro w is rest - ⟨is', rfl, hw⟩ c hc u - hu -
      exact ⟨i :: is', by simp, .initzersCons hu hc hw⟩
    · rintro rest - u - hu -
      rw [List.append_nil]
      exact ⟨[i], rfl, .initzersLast hu⟩

theorem parseProcCallArg_reads (hexpr : Reads BareNames expr (IsExpr T)) :
    Reads BareNames (parseProcCallArg expr) fun w a _ => Derives T w (.arg a) := by
  refine .bind bareNames_infixClosed hexpr fun e => match_reads (by decide) ?_ (.pure ?_)
  · split
    · split
      · exact .reject
      · refine .bind bareNames_infixClosed hexpr fun arg => .pure ?_
        rintro rest w hg ⟨dw, hw, -⟩ a ha u hgu ⟨du, hu, -⟩
        rw [List.append_nil] at hgu ⊢
        rcases derives_ident hu with hu | ⟨u', r, rfl, hr⟩
        · obtain ⟨n, rfl, hn, hname⟩ := derives_name hu ‹_›
          rw [hname]
          exact .argName hn ha hw
        · exact absurd hgu (not_bareNames hr ha)
    · exact .reject
  · rintro rest - u - ⟨d, hu, -⟩
    rw [List.append_nil]
    exact .arg hu

theorem argLoop_reads (hexpr : Reads BareNames expr (IsExpr T)) (m : Nat)
    (acc : List (ProcCallArg τ)) :
    Reads BareNames (argLoop expr m acc) fun w as _ =>
      ∃ as', as = acc ++ as' ∧ Derives T w (.args as') := by
  induction m generalizing acc with
  | zero => exact .outOfFuel
  | succ m ih =>
    refine ite_reads ?_ (.pure fun rest _ => ⟨[], (List.append_nil _).symm, .argsNil⟩)
    refine .bind bareNames_infixClosed (parseProcCallArg_reads hexpr) fun a =>
      match_reads (by decide) ((ih _).imp ?_) (.pure ?_)
    · rintro w as rest - ⟨as', rfl, hw⟩ c hc u - hu -
      exact ⟨a :: as', by simp, .argsCons hu hc hw⟩
    · rintro rest - u - hu -
      rw [List.append_nil]
      exact ⟨[a], rfl, .argsLast hu⟩

/-! ### `parse_expr_base` -/

/-- A procedure that looks at the current token. -/
theorem Reads.of_head {α : Type} {g : Option Token → Parser α}
    {R : List Token → α → List Token → Prop}
    (h : ∀ o, Reads BareNames (g o) fun w a rest => (w ++ rest).head? = o → R w a rest) :
    Reads BareNames (fun s => g s.toks.head? s) R := by
  intro s r s' hrun
  obtain ⟨hpre, hclean⟩ := h s.toks.head? s r s' hrun
  refine ⟨hpre, fun he => ?_⟩
  obtain ⟨w, a, hr, hw, hR⟩ := hclean he
  exact ⟨w, a, hr, hw, fun hg => hR hg (hw ▸ rfl)⟩

/-- What is behind the current token. -/
theorem next_reads {α : Type} {x : Parser α} {t : Token} {R : List Token → α → List Token → Prop}
    (hx : Reads BareNames x fun w a rest => R (t :: w) a rest) :
    Reads BareNames (nextToken >>= fun _ => x) fun w a rest => (w ++ rest).head? = some t →
      R w a rest := by
  refine .bind bareNames_infixClosed nextToken_reads fun o => hx.imp ?_
  rintro w a rest - h u - ⟨ho, rfl⟩ ht
  rw [List.append_assoc, ← ho] at ht
  cases ht
  exact h

theorem closed_read {w rest : List Token} {e : Expr τ} (h : Derives T w (.expr .base e .closed)) :
    HasRead T .base w e rest := ⟨.closed, h, id, rfl, rfl⟩

theorem parseLiteral_reads {t : Token} (h : literal? t = some e) :
    Reads BareNames (parseLiteral e) fun w e rest => (w ++ rest).head? = some t →
      HasRead T .base w e rest :=
  next_reads (.pure fun _ => closed_read (.literal h))

theorem parseKeywordType_reads {k : Token} {kw : Keyword} {mk : τ → Expr τ} {errorPrefix : String}
    (hk : k.kind = .kw) (hkw : k.keyword? = some kw) (hmk : typeKeyword? kw = some mk) :
    Reads BareNames (parseKeywordType T errorPrefix mk) fun w e rest =>
      (w ++ rest).head? = some k → HasRead T .base w e rest := by
  refine next_reads (expect_reads fun l => enclosedType_reads fun t => .pure ?_)
  intro rest u r hu hr hl
  exact closed_read (.keywordType hk hkw hmk hl hu hr)

theorem parseKeywordField_reads {k : Token} {kw : Keyword} {mk : τ → List Char → Expr τ}
    {errPrefix : String} (hk : k.kind = .kw) (hkw : k.keyword? = some kw)
    (hmk : fieldKeyword? kw = some mk) :
    Reads BareNames (parseKeywordField T errPrefix mk) fun w e rest =>
      (w ++ rest).head? = some k → HasRead T .base w e rest := by
  refine next_reads (expect_reads fun l => enclosedType_reads fun t => expect_reads fun n =>
    expect_reads fun r => .pure ?_)
  intro rest hr hn u c hu hc hl
  exact closed_read (.keywordField hk hkw hmk hl hu hc hn hr)

theorem parseExprLen_reads (hexpr : Reads BareNames expr (IsExpr T)) {k : Token} (hk : k.kind = .kw)
    (hkw : k.keyword? = some .length) :
    Reads BareNames (parseExprLen expr) fun w e rest =>
      (w ++ rest).head? = some k → HasRead T .base w e rest := by
  refine next_reads (expect_reads fun l => enclosed_reads hexpr fun arg => .pure ?_)
  intro rest u d r hu hr hl
  exact closed_read (.length hk hkw hl hu hr)

theorem parseEnclosed_reads (hexpr : Reads BareNames expr (IsExpr T)) {l : Token}
    (hl : l.kind = .lparen) :
    Reads BareNames (parseEnclosed expr) fun w e rest =>
      (w ++ rest).head? = some l → HasRead T .base w e rest := by
  refine next_reads (enclosed_reads hexpr fun e => .pure ?_)
  intro rest u d r hu hr
  exact closed_read (.paren hl hu hr)

theorem parseExprCompoundLit_reads (hexpr : Reads BareNames expr (IsExpr T)) (m : Nat) :
    Reads BareNames (parseExprCompoundLit T expr m) (HasRead T .base) := by
  refine expect_reads fun l => .bind bareNames_infixClosed (initzerLoop_reads hexpr m []) fun is =>
    match_reads (by decide) (enclosedType_reads fun t => .pure ?_) (expect_reads fun r => .pure ?_)
  · rintro rest u r hu hr c hc w - ⟨is, rfl, hw⟩ hl
    exact closed_read (.compoundLitTyped hl hw hc hu hr)
  · rintro rest hr - w - ⟨is, rfl, hw⟩ hl
    exact closed_read (.compoundLit hl hw hr)

theorem parseExprIdent_reads (m : Nat) :
    Reads BareNames (parseExprIdent m : Parser (Expr τ)) (HasRead T .base) := by
  refine .bind bareNames_infixClosed (namespacedIdentLoop_reads (T := T) _ m []) fun ns => .pure ?_
  rintro rest w - ⟨ns, rfl, hw, hr⟩
  rw [List.append_nil]
  exact ⟨.name, .ident hw, hr, rfl, rfl⟩

theorem parseExprBase_reads (hexpr : Reads BareNames expr (IsExpr T)) (m : Nat) :
    Reads BareNames (parseExprBase T expr m) (HasRead T .base) := by
  refine Reads.of_head fun o => ?_
  unfold parseExprBaseOf
  split
  · exact .reject
  · rename_i t
    split
    · exact parseLiteral_reads (by simp only [literal?, *])
    · exact parseLiteral_reads (by simp only [literal?, *])
    · exact parseLiteral_reads (by simp only [literal?, *])
    · exact parseEnclosed_reads hexpr ‹_›
    · exact (parseExprCompoundLit_reads hexpr m).imp fun _ _ _ _ h _ => h
    · split
      · exact parseLiteral_reads (by simp only [literal?, *])
      · exact parseLiteral_reads (by simp only [literal?, *])
      · exact parseLiteral_reads (by simp only [literal?, *])
      · exact parseKeywordType_reads ‹_› ‹_› rfl
      · exact parseKeywordType_reads ‹_› ‹_› rfl
      · exact parseKeywordField_reads ‹_› ‹_› rfl
      · exact parseKeywordField_reads ‹_› ‹_› rfl
      · exact parseExprLen_reads hexpr ‹_› ‹_›
      · exact .reject
    · exact (parseExprIdent_reads m).imp fun _ _ _ _ h _ => h
    · exact .reject

/-! ### Postfix, prefix and infix operators -/

/-- A word of `expr_base_mod`, with what may not follow. -/
def ModRead (T : TypespecParser τ) (w : List Token) (e : Expr τ) (rest : List Token) : Prop :=
  ∃ d, Derives T w (.expr .mod e d) ∧ ¬ d.Continues T (tokenKind rest)

theorem closed_mod {w rest : List Token} {e : Expr τ} (h : Derives T w (.expr .mod e .closed)) :
    ModRead T w e rest := ⟨.closed, h, id⟩

theorem parseField_reads (hexpr : Reads BareNames expr (IsExpr T)) (e : Expr τ) :
    Reads BareNames (parseField expr e) fun w e' rest => ∀ w₀ o, ModRead T w₀ e (o :: w ++ rest) →
      o.kind = .dot → ModRead T (w₀ ++ o :: w) e' rest := by
  refine match_reads (by decide) (enclosed_reads hexpr fun i => .pure ?_)
    (expect_reads fun n => .pure ?_)
  · rintro rest u di r hu hr l hl w₀ o ⟨d, hw, -⟩ ho
    exact closed_mod (.fieldIndex hw ho hl hu hr)
  · rintro rest hn - w₀ o ⟨d, hw, -⟩ ho
    exact closed_mod (.field hw ho hn)

theorem parseIndex_reads (hexpr : Reads BareNames expr (IsExpr T)) (e : Expr τ) :
    Reads BareNames (parseIndex expr e) fun w e' rest => ∀ w₀ l, ModRead T w₀ e (l :: w ++ rest) →
      l.kind = .lbracket → ModRead T (w₀ ++ l :: w) e' rest := by
  refine enclosed_reads hexpr fun i => .pure ?_
  rintro rest u di r hu hr w₀ l ⟨d, hw, -⟩ hl
  exact closed_mod (.index hw hl hu hr)

theorem parseCall_reads (hexpr : Reads BareNames expr (IsExpr T)) (m : Nat) (e : Expr τ) :
    Reads BareNames (parseCall expr m e) fun w e' rest => ∀ w₀ l, ModRead T w₀ e (l :: w ++ rest) →
      l.kind = .lparen → ModRead T (w₀ ++ l :: w) e' rest := by
  refine .bind bareNames_infixClosed (argLoop_reads hexpr m []) fun as => expect_reads fun r =>
    .pure ?_
  rintro rest hr u - ⟨as, rfl, hu⟩ w₀ l ⟨d, hw, hd⟩ hl
  rw [List.cons_append, tokenKind_cons, hl] at hd
  exact closed_mod (.call hw hd hl hu hr)

theorem parseMod_reads (hexpr : Reads BareNames expr (IsExpr T)) (m : Nat) (e : Expr τ) :
    Reads BareNames (parseMod T expr m e) fun w e' rest => isMod (tokenKind (w ++ rest)) = true →
      ∀ w₀, ModRead T w₀ e (w ++ rest) → ModRead T (w₀ ++ w) e' rest := by
  refine match_reads (by decide) ((parseField_reads hexpr e).imp ?_) ?_
  · rintro w e' rest - h t ht - w₀ hw₀
    exact h w₀ t hw₀ ht
  refine match_reads (by decide) ((parseIndex_reads hexpr e).imp ?_) ?_
  · rintro w e' rest - h t ht - - w₀ hw₀
    exact h w₀ t hw₀ ht
  refine match_reads (by decide) ((parseCall_reads hexpr m e).imp ?_) ?_
  · rintro w e' rest - h t ht - - - w₀ hw₀
    exact h w₀ t hw₀ ht
  refine match_reads (by decide) ?_ ?_
  · refine .bind bareNames_infixClosed parseTypespec_reads fun t => .pure ?_
    rintro rest u - ⟨hu, hr⟩ c hc - - - - w₀ ⟨d, hw, -⟩
    rw [List.append_nil]
    exact ⟨.type u, .cast hw hc hu, hr⟩
  · refine .bind bareNames_infixClosed (matchToken_reads (by decide)) fun b =>
      .bind bareNames_infixClosed parseTypespec_reads fun t => .pure ?_
    rintro rest u - ⟨hu, hr⟩ c - hc h₁ h₂ h₃ h₄ hmod w₀ ⟨d, hw, -⟩
    rcases hc with ⟨-, c, rfl, hc⟩ | ⟨-, rfl, h₅⟩
    · rw [List.append_nil]
      exact ⟨.type u, .bitCast hw hc hu, hr⟩
    · simp only [List.append_nil, List.nil_append, isMod, Bool.or_eq_true, decide_eq_true_eq]
        at h₁ h₂ h₃ h₄ h₅ hmod
      simp_all

theorem baseModLoop_reads (hexpr : Reads BareNames expr (IsExpr T)) (m : Nat) (e : Expr τ) :
    Reads BareNames (baseModLoop T expr m e) fun w e' rest => ∀ w₀, ModRead T w₀ e (w ++ rest) →
      HasRead T .mod (w₀ ++ w) e' rest := by
  induction m generalizing e with
  | zero => exact .outOfFuel
  | succ m ih =>
    refine ite_reads (.bind bareNames_infixClosed (parseMod_reads hexpr m e) fun e' =>
      (ih e').imp ?_) (.pure ?_)
    · rintro w e'' rest - h u - hu hmod w₀ hw₀
      rw [List.append_assoc] at hmod hw₀
      rw [← List.append_assoc]
      exact h (w₀ ++ u) (hu hmod w₀ hw₀)
    · rintro rest hmod w₀ ⟨d, hw, hd⟩
      rw [List.append_nil]
      exact ⟨d, hw, hd, rfl, hmod⟩

theorem parseExprBaseMod_reads (hexpr : Reads BareNames expr (IsExpr T)) (m : Nat) :
    Reads BareNames (parseExprBaseMod T expr m) (HasRead T .mod) := by
  refine .bind bareNames_infixClosed (parseExprBase_reads hexpr m) fun e =>
    (baseModLoop_reads hexpr m e).imp ?_
  rintro w e' rest - h u - ⟨d, hu, hd, -⟩
  exact h u ⟨d, .operand (by decide) hu, hd⟩

/-- An operator, and what is read behind it. -/
theorem operator_reads {α : Type} {p : TokenKind → Bool} {f : Option Token → Parser α}
    {R : List Token → α → List Token → Prop} (hp : p .eof = false)
    (hf : ∀ o, Reads BareNames (f o) fun w a rest => ∀ t, o = some t → p t.kind = true →
      R (t :: w) a rest) :
    Reads BareNames (nextToken >>= f) fun w a rest => p (tokenKind (w ++ rest)) = true →
      R w a rest := by
  refine .bind bareNames_infixClosed nextToken_reads fun o => (hf o).imp ?_
  rintro w a rest - h u - ⟨ho, rfl⟩ hk
  rw [List.append_assoc] at hk
  cases o with
  | none =>
    rw [tokenKind, ← ho] at hk
    exact absurd (hk.symm.trans hp) (by decide)
  | some t => exact h t rfl hk

theorem parseExprUnary_reads (hexpr : Reads BareNames expr (IsExpr T)) (m : Nat) :
    Reads BareNames (parseExprUnary T expr m) (HasRead T .unary) := by
  induction m with
  | zero => exact .outOfFuel
  | succ m ih =>
    refine ite_reads (operator_reads (p := (·.hasProp .unary)) rfl fun o =>
      .bind bareNames_infixClosed ih fun e => .pure ?_)
      ((parseExprBaseMod_reads hexpr m).imp fun _ _ _ _ h _ => h.lift (by decide) nofun rfl)
    rintro rest w - ⟨d, hw, hd, hi, ht⟩ t rfl hp
    rw [List.append_nil]
    exact ⟨d, .unary hp hw, hd, hi, ht⟩

/-- The loop of a binary operator, behind a word of its nonterminal. -/
theorem binaryLoop_reads {p : TokenKindProp} {operand : Nat → Parser (Expr τ)}
    (hl : l.binary = some p) (hoperand : ∀ m, Reads BareNames (operand m) (HasRead T l.operand))
    (m : Nat) (e : Expr τ) :
    Reads BareNames (binaryLoop p operand m e) fun w e' rest => ∀ w₀ d₀,
      Derives T w₀ (.expr l e d₀) → ¬ d₀.Continues T (tokenKind (w ++ rest)) →
      l.inner (tokenKind (w ++ rest)) = false → HasRead T l (w₀ ++ w) e' rest := by
  induction m generalizing e with
  | zero => exact .outOfFuel
  | succ m ih =>
    refine ite_reads (operator_reads (p := (·.hasProp p)) ?_ fun o =>
      .bind bareNames_infixClosed (hoperand m) fun right => (ih _).imp ?_) (.pure ?_)
    · cases p <;> rfl
    · rintro w e' rest - h u - ⟨d, hu, hd, hi, ht⟩ o rfl ho w₀ d₀ hw₀ - -
      have hexpr : l ≠ .expr := by
        rintro rfl
        cases hl
      have hcons := h (w₀ ++ o :: u) d (.binary hl hw₀ ho hu) hd
        (inner_of_operand (fun he => absurd he hexpr) hi ht)
      rwa [List.append_assoc, List.cons_append] at hcons
    · rintro rest hstop w₀ d₀ hw₀ hd hi
      rw [List.append_nil]
      exact ⟨d₀, hw₀, hd, hi, (takes_binary hl _).trans hstop⟩

theorem parseBinary_reads {p : TokenKindProp} {operand : Nat → Parser (Expr τ)}
    (hl : l.binary = some p) (hoperand : ∀ m, Reads BareNames (operand m) (HasRead T l.operand))
    (m : Nat) : Reads BareNames (parseBinary p operand m) (HasRead T l) := by
  refine .bind bareNames_infixClosed (hoperand m) fun e => (binaryLoop_reads hl hoperand m e).imp ?_
  rintro w e' rest - h u - ⟨d, hu, hd, hi, ht⟩
  have hbase : l ≠ .base := by
    rintro rfl
    cases hl
  have hexpr : l ≠ .expr := by
    rintro rfl
    cases hl
  exact h u d (.operand hbase hu) hd (inner_of_operand (fun he => absurd he hexpr) hi ht)

theorem parseExprOr_reads (hexpr : Reads BareNames expr (IsExpr T)) (m : Nat) :
    Reads BareNames (parseExprOr T expr m) (HasRead T .or) := by
  have hmul := parseBinary_reads (l := .mul) rfl (parseExprUnary_reads hexpr)
  have hcmp := parseBinary_reads (l := .cmp) rfl (parseBinary_reads (l := .add) rfl hmul)
  exact parseBinary_reads (l := .or) rfl (parseBinary_reads (l := .and) rfl hcmp) m

/-! ### `parse_expr` -/

theorem parseExprTernary_reads (hexpr : Reads BareNames expr (IsExpr T)) (m : Nat) :
    Reads BareNames (parseExprTernary T expr m) (HasRead T .expr) := by
  induction m with
  | zero => exact .outOfFuel
  | succ m ih =>
    refine .bind bareNames_infixClosed (parseExprOr_reads hexpr m) fun e => match_reads (by decide)
      (.bind bareNames_infixClosed ih.attempt fun thenExpr => ?_) (.pure ?_)
    · -- A part that fails has reported an error.
      cases thenExpr with
      | none => exact .pure fun rest w _ ⟨_, h, _⟩ => nomatch h
      | some thenExpr =>
        refine .bind bareNames_infixClosed expectToken_reads.attempt fun c => ?_
        cases c with
        | none => exact .pure fun rest w _ ⟨_, h, _⟩ => nomatch h
        | some c =>
          refine .bind bareNames_infixClosed ih.attempt fun elseExpr => ?_
          cases elseExpr with
          | none => exact .pure fun rest w _ ⟨_, h, _⟩ => nomatch h
          | some elseExpr =>
            refine .pure ?_
            rintro rest v - ⟨_, ⟨⟩, d₃, hv, hd₃, hi₃, ht₃⟩ c - ⟨_, ⟨⟩, rfl, hc⟩ u -
              ⟨_, ⟨⟩, d₂, hu, -⟩ q hq w - ⟨d₁, hw, -⟩
            rw [List.append_nil]
            exact ⟨d₃, .ternary hw hq hu hc hv, hd₃, hi₃, ht₃⟩
    · rintro rest hq w - h
      rw [List.append_nil]
      exact h.lift (by decide) (fun _ => hq) rfl

theorem parseExpr_reads (n : Nat) : Reads BareNames (parseExpr T n) (IsExpr T) := by
  induction n with
  | zero => exact .outOfFuel
  | succ n ih => exact (parseExprTernary_reads ih n).imp fun _ _ _ _ h => h.isExpr

end

end Nibble.Front
