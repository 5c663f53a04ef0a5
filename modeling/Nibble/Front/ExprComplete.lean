import Nibble.Front.ExprGrammar

/-!
# Words of the grammar are parsed

By induction on a derivation: with enough fuel the procedure of a nonterminal
reads its word, whatever follows that does not make it longer. A procedure
with a loop leaves the word read and goes on with its loop, so that a word of a
left-associative nonterminal can be put together from the left.
-/

namespace Nibble.Front

open Nibble.Lib

variable {τ : Type} {T : TypespecParser τ} {errs : List ParseError} {rest : List Token}

/-! ### Primitives -/

section Primitives

variable {α : Type} {t : Token} {ts : List Token} {k : TokenKind}

theorem expectToken_yields {errorPrefix : Option String} (h : t.kind = k) :
    Yields (fun _ _ => expectToken k errorPrefix) ⟨t :: ts, errs⟩ t ⟨ts, errs⟩ :=
  .of_eq (if_pos h)

theorem matchToken_yields (h : t.kind = k) :
    Yields (fun _ _ => matchToken k) ⟨t :: ts, errs⟩ true ⟨ts, errs⟩ :=
  .of_eq (if_pos h)

theorem matchToken_yields_false (h : tokenKind rest ≠ k) :
    Yields (fun _ _ => matchToken k) ⟨rest, errs⟩ false ⟨rest, errs⟩ := by
  refine .of_eq ?_
  cases rest with
  | nil => rfl
  | cons t ts => exact if_neg h

theorem isToken_yields {p : TokenKind → Bool} :
    Yields (fun _ _ => isToken p) ⟨rest, errs⟩ (p (tokenKind rest)) ⟨rest, errs⟩ := .of_eq rfl

theorem nextToken_yields :
    Yields (fun _ _ => nextToken) ⟨t :: ts, errs⟩ (some t) ⟨ts, errs⟩ := .of_eq rfl

theorem parseTypespec_yields {u : List Token} {x : τ} (hu : T.Derives u x)
    (h : ¬ T.continues u (tokenKind rest)) :
    Yields (fun _ _ => parseTypespec T) ⟨u ++ rest, errs⟩ x ⟨rest, errs⟩ :=
  .of_eq (congrArg some ((T.exact ⟨u ++ rest, errs⟩ x rest).mpr ⟨u, rfl, hu, h⟩))

/-- A branch on the kind of the current token. -/
theorem ite_yields {x y : Nat → Nat → Parser α} {p : TokenKind → Bool} {a : α} {s' : ParserState}
    (h : p (tokenKind rest) = true) (hx : Yields x ⟨rest, errs⟩ a s') :
    Yields (fun n m => do if ← isToken p then x n m else y n m) ⟨rest, errs⟩ a s' := by
  refine .bind isToken_yields ?_
  simp only [h, if_true]
  exact hx

theorem ite_yields_false {x y : Nat → Nat → Parser α} {p : TokenKind → Bool} {a : α}
    {s' : ParserState} (h : p (tokenKind rest) = false) (hy : Yields y ⟨rest, errs⟩ a s') :
    Yields (fun n m => do if ← isToken p then x n m else y n m) ⟨rest, errs⟩ a s' := by
  refine .bind isToken_yields ?_
  simp only [h, Bool.false_eq_true, if_false]
  exact hy

/-- A branch on a token that is passed. -/
theorem match_yields {x y : Nat → Nat → Parser α} {a : α} {s' : ParserState} (h : t.kind = k)
    (hx : Yields x ⟨ts, errs⟩ a s') :
    Yields (fun n m => do if ← matchToken k then x n m else y n m) ⟨t :: ts, errs⟩ a s' := by
  refine .bind (matchToken_yields h) ?_
  simp only [if_true]
  exact hx

theorem match_yields_false {x y : Nat → Nat → Parser α} {a : α} {s' : ParserState}
    (h : tokenKind rest ≠ k) (hy : Yields y ⟨rest, errs⟩ a s') :
    Yields (fun n m => do if ← matchToken k then x n m else y n m) ⟨rest, errs⟩ a s' := by
  refine .bind (matchToken_yields_false h) ?_
  simp only [Bool.false_eq_true, if_false]
  exact hy

end Primitives

/-! ### Procedures and loops by nonterminal -/

section

variable (T)

/-- The procedure of a nonterminal. -/
def parseAt (l : Level) (expr : Parser (Expr τ)) (m : Nat) : Parser (Expr τ) :=
  match l with
  | .base => parseExprBase T expr m
  | .mod => parseExprBaseMod T expr m
  | .unary => parseExprUnary T expr m
  | .mul => parseExprMul T expr m
  | .add => parseExprAdd T expr m
  | .cmp => parseExprCmp T expr m
  | .and => parseExprAnd T expr m
  | .or => parseExprOr T expr m
  | .expr => parseExprTernary T expr m

/-- The loop that it ends with. -/
def loopAt (l : Level) (expr : Parser (Expr τ)) (m : Nat) (e : Expr τ) : Parser (Expr τ) :=
  match l with
  | .mod => baseModLoop T expr m e
  | l =>
    match l.binary with
    | some p => binaryLoop p (parseAt T l.operand expr) m e
    | none => pure e

/-- With enough fuel the procedure of `l` succeeds. -/
abbrev YieldsAt (l : Level) (s : ParserState) (e : Expr τ) (s' : ParserState) : Prop :=
  Yields (fun n m => parseAt T l (parseExpr T n) m) s e s'

abbrev YieldsLoop (l : Level) (e₀ : Expr τ) (s : ParserState) (e : Expr τ) (s' : ParserState) :
    Prop :=
  Yields (fun n m => loopAt T l (parseExpr T n) m e₀) s e s'

end

variable {l : Level} {e e₁ e₂ r : Expr τ} {s s' : ParserState}

theorem loopAt_binary {p : TokenKindProp} (hl : l.binary = some p) (expr : Parser (Expr τ))
    (m : Nat) (e : Expr τ) :
    loopAt T l expr m e = binaryLoop p (parseAt T l.operand expr) m e := by
  cases l <;> cases hl <;> rfl

theorem takes_binary {p : TokenKindProp} (hl : l.binary = some p) (k : TokenKind) :
    l.takes k = k.hasProp p := by
  cases l <;> cases hl <;> rfl

/-- The loop stops where nothing is left for it. -/
theorem yieldsLoop_stop (h : l.takes (tokenKind rest) = false) :
    YieldsLoop T l e ⟨rest, errs⟩ e ⟨rest, errs⟩ := by
  unfold YieldsLoop
  cases hp : l.binary with
  | some p =>
    simp only [loopAt_binary hp]
    rw [takes_binary hp] at h
    exact .loop (ite_yields_false h .pure) fun _ _ => rfl
  | none =>
    cases l with
    | mod => exact .loop (ite_yields_false h .pure) fun _ _ => rfl
    | base | unary | expr => exact .pure
    | mul | add | cmp | and | or => cases hp

/-- One round of a binary operator. -/
theorem yieldsLoop_binary {p : TokenKindProp} {o : Token} {u : List Token}
    (hl : l.binary = some p) (ho : o.kind.hasProp p = true)
    (hu : YieldsAt T l.operand ⟨u ++ rest, errs⟩ e₂ ⟨rest, errs⟩)
    (h : YieldsLoop T l (.binary o.kind e₁ e₂) ⟨rest, errs⟩ r s') :
    YieldsLoop T l e₁ ⟨o :: (u ++ rest), errs⟩ r s' := by
  unfold YieldsLoop at h ⊢
  simp only [loopAt_binary hl] at h ⊢
  exact .loop (ite_yields ho (.bind nextToken_yields (.bind hu h))) fun _ _ => rfl

/-- One round of `parse_expr_base_mod`. -/
theorem yieldsLoop_mod {t : Token} {ts : List Token} (ht : isMod t.kind = true)
    (hmod : Yields (fun n m => parseMod T (parseExpr T n) m e₁) ⟨t :: ts, errs⟩ e₂ s)
    (h : YieldsLoop T .mod e₂ s r s') : YieldsLoop T .mod e₁ ⟨t :: ts, errs⟩ r s' :=
  .loop (ite_yields ht (.bind hmod h)) fun _ _ => rfl

/-- A procedure with a loop is its operand and the loop. -/
theorem yieldsAt_of_operand (hl : l ≠ .base) (hu : l ≠ .unary) (hx : l ≠ .expr)
    (h : YieldsAt T l.operand s e s') {s'' : ParserState} (h' : YieldsLoop T l e s' r s'') :
    YieldsAt T l s r s'' := by
  cases l with
  | base => exact absurd rfl hl
  | unary => exact absurd rfl hu
  | expr => exact absurd rfl hx
  | mod | mul | add | cmp | and | or => exact .bind h h'

/-- The recursive call of `parse_expr`. -/
theorem yields_parseExpr (h : YieldsAt T .expr s e s') :
    Yields (fun n _ => parseExpr T n) s e s' := by
  obtain ⟨N, h⟩ := h
  refine ⟨N + 1, fun n hn m hm => ?_⟩
  obtain ⟨n, rfl⟩ : ∃ k, n = k + 1 := ⟨n - 1, by omega⟩
  exact h n (by omega) n (by omega)

/-! ### The procedures of the parts -/

section

variable {t k l : Token} {u ts : List Token} {e' : Expr τ} {d : End}

theorem tokenKind_cons (t : Token) (ts : List Token) : tokenKind (t :: ts) = t.kind := rfl

/-- An expression that a closing token follows. -/
abbrev ReadsExpr (T : TypespecParser τ) (u : List Token) (e : Expr τ) : Prop :=
  ∀ rest errs, closing (tokenKind rest) = true →
    Yields (fun n _ => parseExpr T n) ⟨u ++ rest, errs⟩ e ⟨rest, errs⟩

/-- `expr` and the token that closes it. -/
theorem enclosed_yields {c : Token} {kind : TokenKind} {errorPrefix : Option String} {α : Type}
    {f : Expr τ → Nat → Nat → Parser α} {a : α} {s' : ParserState} (hu : ReadsExpr T u e)
    (hc : c.kind = kind) (hk : closing kind = true) (hf : Yields (f e) ⟨rest, errs⟩ a s') :
    Yields (fun n m => do
      let e ← parseExpr T n
      let _ ← expectToken kind errorPrefix
      f e n m) ⟨u ++ c :: rest, errs⟩ a s' :=
  .bind (hu (c :: rest) errs (by rw [tokenKind_cons, hc]; exact hk))
    (.bind (expectToken_yields hc) hf)

/-- A type and the token that closes it. -/
theorem enclosedType_yields {c : Token} {kind : TokenKind} {errorPrefix : Option String} {α : Type}
    {x : τ} {f : τ → Nat → Nat → Parser α} {a : α} {s' : ParserState} (hu : T.Derives u x)
    (hc : c.kind = kind) (hk : closing kind = true) (hf : Yields (f x) ⟨rest, errs⟩ a s') :
    Yields (fun n m => do
      let x ← parseTypespec T
      let _ ← expectToken kind errorPrefix
      f x n m) ⟨u ++ c :: rest, errs⟩ a s' := by
  refine .bind (parseTypespec_yields hu ?_) (.bind (expectToken_yields hc) hf)
  rw [tokenKind_cons, hc]
  exact (closing_stops (T := T) hk (.type u)).1

theorem fieldIndex_yields {o l c : Token} (ho : o.kind = .dot) (hl : l.kind = .lbracket)
    (hu : ReadsExpr T u e') (hc : c.kind = .rbracket) :
    Yields (fun n m => parseMod T (parseExpr T n) m e) ⟨o :: l :: (u ++ c :: rest), errs⟩
      (.fieldIndex e e') ⟨rest, errs⟩ :=
  match_yields ho (match_yields hl (enclosed_yields hu hc rfl .pure))

theorem field_yields {o n : Token} (ho : o.kind = .dot) (hn : n.kind = .ident) :
    Yields (fun n m => parseMod T (parseExpr T n) m e) ⟨o :: n :: rest, errs⟩
      (.field e n.asIdent) ⟨rest, errs⟩ := by
  refine match_yields ho (match_yields_false ?_ (.bind (expectToken_yields hn) .pure))
  rw [tokenKind_cons, hn]
  decide

/-- The branches of `parseMod` before the one of a token. -/
theorem not_kind {kind kind' : TokenKind} (ht : t.kind = kind) (h : kind ≠ kind') :
    tokenKind (t :: ts) ≠ kind' := by
  rw [tokenKind_cons, ht]
  exact h

theorem index_yields {c : Token} (hl : l.kind = .lbracket) (hu : ReadsExpr T u e')
    (hc : c.kind = .rbracket) :
    Yields (fun n m => parseMod T (parseExpr T n) m e) ⟨l :: (u ++ c :: rest), errs⟩
      (.index e e') ⟨rest, errs⟩ :=
  match_yields_false (not_kind hl (by decide)) (match_yields hl (enclosed_yields hu hc rfl .pure))

theorem cast_yields {x : τ} (hl : l.kind = .cast) (hu : T.Derives u x)
    (hr : ¬ T.continues u (tokenKind rest)) :
    Yields (fun n m => parseMod T (parseExpr T n) m e) ⟨l :: (u ++ rest), errs⟩
      (.cast x e) ⟨rest, errs⟩ :=
  match_yields_false (not_kind hl (by decide)) (match_yields_false (not_kind hl (by decide))
    (match_yields_false (not_kind hl (by decide)) (match_yields hl
      (.bind (parseTypespec_yields hu hr) .pure))))

theorem bitCast_yields {x : τ} (hl : l.kind = .bitCast) (hu : T.Derives u x)
    (hr : ¬ T.continues u (tokenKind rest)) :
    Yields (fun n m => parseMod T (parseExpr T n) m e) ⟨l :: (u ++ rest), errs⟩
      (.bitCast x e) ⟨rest, errs⟩ :=
  match_yields_false (not_kind hl (by decide)) (match_yields_false (not_kind hl (by decide))
    (match_yields_false (not_kind hl (by decide)) (match_yields_false (not_kind hl (by decide))
      (.bind (matchToken_yields hl) (.bind (parseTypespec_yields hu hr) .pure)))))

/-- The arguments of a call that a parenthesis follows. -/
abbrev ReadsArgs (T : TypespecParser τ) (u : List Token) (as : List (ProcCallArg τ)) : Prop :=
  ∀ rest errs acc, tokenKind rest = .rparen →
    Yields (fun n m => argLoop (parseExpr T n) m acc) ⟨u ++ rest, errs⟩ (acc ++ as) ⟨rest, errs⟩

theorem call_yields {c : Token} {as : List (ProcCallArg τ)} (hl : l.kind = .lparen)
    (hu : ReadsArgs T u as) (hc : c.kind = .rparen) :
    Yields (fun n m => parseMod T (parseExpr T n) m e) ⟨l :: (u ++ c :: rest), errs⟩
      (.call e as) ⟨rest, errs⟩ :=
  match_yields_false (not_kind hl (by decide)) (match_yields_false (not_kind hl (by decide))
    (match_yields hl (.bind (hu (c :: rest) errs [] (by rw [tokenKind_cons, hc]))
      (.bind (expectToken_yields hc) .pure))))

/-- The initializers of a literal that a brace or a colon follows. -/
abbrev ReadsInitzers (T : TypespecParser τ) (u : List Token) (is : List (MemberInitializer τ)) :
    Prop :=
  ∀ rest errs acc, tokenKind rest = .rbrace ∨ tokenKind rest = .colon →
    Yields (fun n m => initzerLoop (parseExpr T n) m acc) ⟨u ++ rest, errs⟩ (acc ++ is)
      ⟨rest, errs⟩

/-! ### `parse_expr_base` -/

theorem literal_yields (h : literal? t = some e) :
    YieldsAt T .base ⟨t :: rest, errs⟩ e ⟨rest, errs⟩ := by
  have hlit : Yields (fun _ _ => parseLiteral e) ⟨t :: rest, errs⟩ e ⟨rest, errs⟩ :=
    .bind nextToken_yields .pure
  refine hlit.congr fun n m => ?_
  unfold literal? at h
  simp only [parseAt, parseExprBase, parseExprBaseOf, List.head?_cons]
  split at h
  · cases h; simp only [*]
  · cases h; simp only [*]
  · cases h; simp only [*]
  · split at h
    · cases h; simp only [*]
    · cases h; simp only [*]
    · cases h; simp only [*]
    · cases h
  · cases h

theorem paren_yields {c : Token} (hl : l.kind = .lparen) (hu : ReadsExpr T u e)
    (hc : c.kind = .rparen) :
    YieldsAt T .base ⟨l :: (u ++ c :: rest), errs⟩ e ⟨rest, errs⟩ := by
  have h : Yields (fun n _ => parseEnclosed (parseExpr T n)) ⟨l :: (u ++ c :: rest), errs⟩ e
      ⟨rest, errs⟩ := .bind nextToken_yields (enclosed_yields hu hc rfl .pure)
  exact h.congr fun n m => by
    simp only [parseAt, parseExprBase, parseExprBaseOf, List.head?_cons, hl]

theorem compoundLit_yields {c : Token} {is : List (MemberInitializer τ)} (hl : l.kind = .lbrace)
    (hu : ReadsInitzers T u is) (hc : c.kind = .rbrace) :
    YieldsAt T .base ⟨l :: (u ++ c :: rest), errs⟩ (.compoundLit none is) ⟨rest, errs⟩ := by
  have h : Yields (fun n m => parseExprCompoundLit T (parseExpr T n) m)
      ⟨l :: (u ++ c :: rest), errs⟩ (.compoundLit none is) ⟨rest, errs⟩ :=
    .bind (expectToken_yields hl) (.bind (hu (c :: rest) errs [] (.inl hc))
      (match_yields_false (not_kind hc (by decide)) (.bind (expectToken_yields hc) .pure)))
  exact h.congr fun n m => by
    simp only [parseAt, parseExprBase, parseExprBaseOf, List.head?_cons, hl]

theorem compoundLitTyped_yields {c q : Token} {v : List Token} {is : List (MemberInitializer τ)}
    {x : τ} (hl : l.kind = .lbrace) (hu : ReadsInitzers T u is) (hq : q.kind = .colon)
    (hv : T.Derives v x) (hc : c.kind = .rbrace) :
    YieldsAt T .base ⟨l :: (u ++ q :: (v ++ c :: rest)), errs⟩ (.compoundLit (some x) is)
      ⟨rest, errs⟩ := by
  have h : Yields (fun n m => parseExprCompoundLit T (parseExpr T n) m)
      ⟨l :: (u ++ q :: (v ++ c :: rest)), errs⟩ (.compoundLit (some x) is) ⟨rest, errs⟩ :=
    .bind (expectToken_yields hl) (.bind (hu (q :: (v ++ c :: rest)) errs [] (.inr hq))
      (match_yields hq (enclosedType_yields hv hc rfl .pure)))
  exact h.congr fun n m => by
    simp only [parseAt, parseExprBase, parseExprBaseOf, List.head?_cons, hl]

theorem keywordType_yields {c : Token} {kw : Keyword} {mk : τ → Expr τ} {x : τ}
    (hk : k.kind = .kw) (hkw : k.keyword? = some kw) (hmk : typeKeyword? kw = some mk)
    (hl : l.kind = .lparen) (hu : T.Derives u x) (hc : c.kind = .rparen) :
    YieldsAt T .base ⟨k :: l :: (u ++ c :: rest), errs⟩ (mk x) ⟨rest, errs⟩ := by
  have h : ∀ p, Yields (fun _ _ => parseKeywordType T p mk) ⟨k :: l :: (u ++ c :: rest), errs⟩
      (mk x) ⟨rest, errs⟩ := fun p =>
    .bind nextToken_yields (.bind (expectToken_yields hl) (enclosedType_yields hu hc rfl .pure))
  cases kw with
  | sizeof =>
    cases hmk
    exact (h _).congr fun n m => by
      simp only [parseAt, parseExprBase, parseExprBaseOf, List.head?_cons, hk, hkw]
      rfl
  | typeid =>
    cases hmk
    exact (h _).congr fun n m => by
      simp only [parseAt, parseExprBase, parseExprBaseOf, List.head?_cons, hk, hkw]
      rfl
  | _ => cases hmk

theorem keywordField_yields {c n r : Token} {kw : Keyword} {mk : τ → List Char → Expr τ} {x : τ}
    (hk : k.kind = .kw) (hkw : k.keyword? = some kw) (hmk : fieldKeyword? kw = some mk)
    (hl : l.kind = .lparen) (hu : T.Derives u x) (hc : c.kind = .comma) (hn : n.kind = .ident)
    (hr : r.kind = .rparen) :
    YieldsAt T .base ⟨k :: l :: (u ++ c :: n :: r :: rest), errs⟩ (mk x n.asIdent)
      ⟨rest, errs⟩ := by
  have h : ∀ p, Yields (fun _ _ => parseKeywordField T p mk)
      ⟨k :: l :: (u ++ c :: n :: r :: rest), errs⟩ (mk x n.asIdent) ⟨rest, errs⟩ := fun p =>
    .bind nextToken_yields (.bind (expectToken_yields hl) (enclosedType_yields hu hc rfl
      (.bind (expectToken_yields hn) (.bind (expectToken_yields hr) .pure))))
  cases kw with
  | offsetof =>
    cases hmk
    exact (h _).congr fun n m => by
      simp only [parseAt, parseExprBase, parseExprBaseOf, List.head?_cons, hk, hkw]
      rfl
  | indexof =>
    cases hmk
    exact (h _).congr fun n m => by
      simp only [parseAt, parseExprBase, parseExprBaseOf, List.head?_cons, hk, hkw]
      rfl
  | _ => cases hmk

theorem length_yields {c : Token} (hk : k.kind = .kw) (hkw : k.keyword? = some .length)
    (hl : l.kind = .lparen) (hu : ReadsExpr T u e) (hc : c.kind = .rparen) :
    YieldsAt T .base ⟨k :: l :: (u ++ c :: rest), errs⟩ (.length e) ⟨rest, errs⟩ := by
  have h : Yields (fun n _ => parseExprLen (parseExpr T n)) ⟨k :: l :: (u ++ c :: rest), errs⟩
      (.length e) ⟨rest, errs⟩ :=
    .bind nextToken_yields (.bind (expectToken_yields hl) (enclosed_yields hu hc rfl .pure))
  exact h.congr fun n m => by
    simp only [parseAt, parseExprBase, parseExprBaseOf, List.head?_cons, hk, hkw]

theorem ident_yields {ns : List (List Char)} (hhead : ∃ t ts, u = t :: ts ∧ t.kind = .ident)
    (h : ∀ p, Yields (fun _ m => namespacedIdentLoop p m []) ⟨u ++ rest, errs⟩ ns ⟨rest, errs⟩) :
    YieldsAt T .base ⟨u ++ rest, errs⟩ (.ident ns) ⟨rest, errs⟩ := by
  obtain ⟨t, ts, rfl, ht⟩ := hhead
  have h' : Yields (fun _ m => (parseExprIdent m : Parser (Expr τ))) ⟨t :: ts ++ rest, errs⟩
      (.ident ns) ⟨rest, errs⟩ := .bind (h _) .pure
  exact h'.congr fun n m => by
    simp only [parseAt, parseExprBase, parseExprBaseOf, List.cons_append, List.head?_cons, ht]

end

/-! ### Words are parsed -/

/-- The procedures read a word, whatever follows that does not make it longer. -/
def Complete (T : TypespecParser τ) (w : List Token) : Phrase τ → Prop
  | .idents ns => ∀ rest errs p acc, tokenKind rest ≠ .dblColon →
    Yields (fun _ m => namespacedIdentLoop p m acc) ⟨w ++ rest, errs⟩ (acc ++ ns) ⟨rest, errs⟩
  | .expr l e d => ∀ rest errs, ¬ d.Continues T (tokenKind rest) →
    l.inner (tokenKind rest) = false → ∀ r s', YieldsLoop T l e ⟨rest, errs⟩ r s' →
    YieldsAt T l ⟨w ++ rest, errs⟩ r s'
  | .initzer i => ∀ rest errs, closing (tokenKind rest) = true →
    Yields (fun n _ => parseMemberInitializer (parseExpr T n)) ⟨w ++ rest, errs⟩ i ⟨rest, errs⟩
  | .initzers is => ReadsInitzers T w is
  | .arg a => ∀ rest errs, closing (tokenKind rest) = true →
    Yields (fun n _ => parseProcCallArg (parseExpr T n)) ⟨w ++ rest, errs⟩ a ⟨rest, errs⟩
  | .args as => ReadsArgs T w as

section

variable {w : List Token} {d : End} {ns : List (List Char)}

/-- The word of an expression with its loop at an end. -/
theorem Complete.at (h : Complete T w (.expr l e d)) (hd : ¬ d.Continues T (tokenKind rest))
    (hi : l.inner (tokenKind rest) = false) (ht : l.takes (tokenKind rest) = false) :
    YieldsAt T l ⟨w ++ rest, errs⟩ e ⟨rest, errs⟩ :=
  h rest errs hd hi e _ (yieldsLoop_stop ht)

theorem Complete.readsExpr (h : Complete T w (.expr .expr e d)) : ReadsExpr T w e :=
  fun _ _ hk => yields_parseExpr (h.at (closing_stops hk d).1 (closing_stops (T := T) hk d).2 rfl)

theorem complete_idents (h : Derives T w (.idents ns)) : Complete T w (.idents ns) := by
  generalize hph : (Phrase.idents ns : Phrase τ) = ph at h
  induction h generalizing ns with
  | @identLast t ht =>
    cases hph
    intro rest errs p acc hr
    exact .loop (.bind (expectToken_yields ht) (match_yields_false hr .pure)) fun _ _ => rfl
  | @identCons t c w ns' ht hc _ ih =>
    cases hph
    intro rest errs p acc hr
    have hrec := ih rfl rest errs p (acc ++ [t.asIdent]) hr
    rw [List.append_assoc] at hrec
    exact .loop (.bind (expectToken_yields ht) (match_yields hc hrec)) fun _ _ => rfl
  | _ => cases hph

/-- The recursion of `parse_expr_unary`. -/
theorem unary_yields {o : Token} {ts : List Token} (ho : o.kind.hasProp .unary = true)
    (h : YieldsAt T .unary ⟨ts, errs⟩ e s') :
    YieldsAt T .unary ⟨o :: ts, errs⟩ (.unary o.kind e) s' :=
  .loop (ite_yields ho (.bind nextToken_yields (.bind h .pure))) fun _ _ => rfl

theorem unary_yields_mod (hhead : ∃ t ts, w = t :: ts ∧ startsBase t.kind = true)
    (h : YieldsAt T .mod ⟨w ++ rest, errs⟩ e s') : YieldsAt T .unary ⟨w ++ rest, errs⟩ e s' := by
  obtain ⟨t, ts, rfl, ht⟩ := hhead
  refine .loop (ite_yields_false ?_ h) fun _ _ => rfl
  rw [List.cons_append, tokenKind_cons]
  revert ht
  cases t.kind <;> decide

theorem ternary_yields {q c : Token} {u v : List Token} (hq : q.kind = .question)
    (hc : c.kind = .colon)
    (h₁ : YieldsAt T .or s e ⟨q :: (u ++ c :: v), errs⟩)
    (h₂ : YieldsAt T .expr ⟨u ++ c :: v, errs⟩ e₁ ⟨c :: v, errs⟩)
    (h₃ : YieldsAt T .expr ⟨v, errs⟩ e₂ s') :
    YieldsAt T .expr s (.ternary e e₁ e₂) s' :=
  .loop (.bind h₁ (match_yields hq (.bind h₂.attempt (.bind (expectToken_yields hc).attempt
    (.bind h₃.attempt .pure))))) fun _ _ => rfl

theorem expr_yields_or (h : YieldsAt T .or s e ⟨rest, errs⟩)
    (hq : tokenKind rest ≠ .question) : YieldsAt T .expr s e ⟨rest, errs⟩ :=
  .loop (.bind h (match_yields_false hq .pure)) fun _ _ => rfl

/-- A plain initializer is not followed by `=`. -/
theorem initzer_yields {t : Token} {ts : List Token} (ht : t.kind ≠ .lbracket)
    (h : Yields (fun n _ => parseExpr T n) ⟨t :: ts, errs⟩ e ⟨rest, errs⟩)
    (hr : tokenKind rest ≠ .assign) :
    Yields (fun n _ => parseMemberInitializer (parseExpr T n)) ⟨t :: ts, errs⟩ (.mk .none e)
      ⟨rest, errs⟩ :=
  ite_yields_false (decide_eq_false ht) (.bind h (match_yields_false hr .pure))

/-- The word of the operand of a nonterminal is one of the nonterminal. -/
theorem Complete.lift (hl : l ≠ .base)
    (hhead : l = .unary → ∃ t ts, w = t :: ts ∧ startsBase t.kind = true)
    (h : Complete T w (.expr l.operand e d)) : Complete T w (.expr l e d) := by
  intro rest errs hd hi r s' hloop
  obtain ⟨hin, htakes⟩ := inner_operand hl hi
  have hop : YieldsAt T l.operand ⟨w ++ rest, errs⟩ e ⟨rest, errs⟩ := h.at hd hin htakes
  cases l with
  | base => exact absurd rfl hl
  | unary => exact .direct (unary_yields_mod (hhead rfl) hop) hloop
  | expr =>
    refine .direct (expr_yields_or hop fun hq => ?_) hloop
    rw [hq] at hi
    exact absurd hi (by decide)
  | mod | mul | add | cmp | and | or =>
    exact yieldsAt_of_operand (by decide) (by decide) (by decide) hop hloop

/-- A word of `expr_base` is one of `expr`. -/
theorem Complete.of_base (hhead : ∃ t ts, w = t :: ts ∧ startsBase t.kind = true)
    (h : Complete T w (.expr .base e d)) : Complete T w (.expr .expr e d) := by
  have lift : ∀ {l : Level}, l ≠ .base → Complete T w (.expr l.operand e d) →
      Complete T w (.expr l e d) := fun hl h => h.lift hl fun _ => hhead
  have hmul := lift (l := .mul) (by decide) (lift (by decide) (lift (by decide) h))
  have hcmp := lift (l := .cmp) (by decide) (lift (by decide) hmul)
  exact lift (by decide) (lift (by decide) (lift (by decide) hcmp))

/-- A name is read as an expression first. -/
theorem complete_name {n : Token} (hn : n.kind = .ident) :
    Complete T [n] (.expr .expr (.ident [n.asIdent]) .name) := by
  refine .of_base ⟨n, [], rfl, by rw [hn]; rfl⟩ ?_
  intro rest errs hd _ r s' hloop
  exact .direct (ident_yields ⟨n, [], rfl, hn⟩ fun p =>
    complete_idents (T := T) (.identLast hn) rest errs p [] hd) hloop

theorem name_yields {n a : Token} {ts : List Token} (hn : n.kind = .ident) (ha : a.kind = .assign) :
    Yields (fun k _ => parseExpr T k) ⟨n :: a :: ts, errs⟩ (.ident [n.asIdent])
      ⟨a :: ts, errs⟩ := by
  have hk : tokenKind (a :: ts) = .assign := ha
  refine yields_parseExpr (complete_name hn (a :: ts) errs ?_ ?_ _ _ (yieldsLoop_stop rfl))
  · rw [hk]
    exact not_continues (by decide) _
  · rw [hk]
    decide

/-! ### Lists -/

theorem initzersNil_complete : ReadsInitzers T [] [] := by
  intro rest errs acc hr
  rw [List.append_nil, List.nil_append]
  refine .loop (ite_yields_false ?_ .pure) fun _ _ => rfl
  rcases hr with hr | hr <;> rw [hr] <;> rfl

/-- What begins an initializer does not end the list. -/
theorem initzer_goesOn {i : MemberInitializer τ} (hw : Derives T w (.initzer i)) :
    (tokenKind (w ++ rest) != .rbrace && tokenKind (w ++ rest) != .colon &&
      tokenKind (w ++ rest) != .eof) = true := by
  obtain ⟨t, ts, rfl, ht⟩ := hw.head
  rw [List.cons_append, tokenKind_cons]
  revert ht
  cases t.kind <;> decide

theorem arg_goesOn {a : ProcCallArg τ} (hw : Derives T w (.arg a)) :
    (tokenKind (w ++ rest) != .rparen && tokenKind (w ++ rest) != .eof) = true := by
  obtain ⟨t, ts, rfl, ht⟩ := hw.head
  rw [List.cons_append, tokenKind_cons]
  revert ht
  cases t.kind <;> decide

theorem initzersLast_complete {i : MemberInitializer τ} (hw : Derives T w (.initzer i))
    (h : Complete T w (.initzer i)) : ReadsInitzers T w [i] := by
  intro rest errs acc hr
  have hclose : closing (tokenKind rest) = true := by
    rcases hr with hr | hr <;> rw [hr] <;> rfl
  have hcomma : tokenKind rest ≠ .comma := by
    rcases hr with hr | hr <;> rw [hr] <;> decide
  exact .loop (ite_yields (initzer_goesOn hw) (.bind (h rest errs hclose)
    (match_yields_false hcomma .pure))) fun _ _ => rfl

theorem initzersCons_complete {i : MemberInitializer τ} {is : List (MemberInitializer τ)}
    {c : Token} {u : List Token} (hw : Derives T w (.initzer i)) (h : Complete T w (.initzer i))
    (hc : c.kind = .comma) (hu : ReadsInitzers T u is) :
    ReadsInitzers T (w ++ c :: u) (i :: is) := by
  intro rest errs acc hr
  have hrec := hu rest errs (acc ++ [i]) hr
  have hclose : closing (tokenKind (c :: (u ++ rest))) = true := by rw [tokenKind_cons, hc]; rfl
  rw [List.append_assoc, List.singleton_append] at hrec
  rw [List.append_assoc, List.cons_append]
  exact .loop (ite_yields (initzer_goesOn hw) (.bind (h (c :: (u ++ rest)) errs hclose)
    (match_yields hc hrec))) fun _ _ => rfl

theorem argsNil_complete : ReadsArgs T [] [] := by
  intro rest errs acc hr
  rw [List.append_nil, List.nil_append]
  refine .loop (ite_yields_false ?_ .pure) fun _ _ => rfl
  rw [hr]
  rfl

theorem argsLast_complete {a : ProcCallArg τ} (hw : Derives T w (.arg a))
    (h : Complete T w (.arg a)) : ReadsArgs T w [a] := by
  intro rest errs acc hr
  have hclose : closing (tokenKind rest) = true := by rw [hr]; rfl
  have hcomma : tokenKind rest ≠ .comma := by rw [hr]; decide
  exact .loop (ite_yields (arg_goesOn hw) (.bind (h rest errs hclose)
    (match_yields_false hcomma .pure))) fun _ _ => rfl

theorem argsCons_complete {a : ProcCallArg τ} {as : List (ProcCallArg τ)} {c : Token}
    {u : List Token} (hw : Derives T w (.arg a)) (h : Complete T w (.arg a))
    (hc : c.kind = .comma) (hu : ReadsArgs T u as) : ReadsArgs T (w ++ c :: u) (a :: as) := by
  intro rest errs acc hr
  have hrec := hu rest errs (acc ++ [a]) hr
  have hclose : closing (tokenKind (c :: (u ++ rest))) = true := by rw [tokenKind_cons, hc]; rfl
  rw [List.append_assoc, List.singleton_append] at hrec
  rw [List.append_assoc, List.cons_append]
  exact .loop (ite_yields (arg_goesOn hw) (.bind (h (c :: (u ++ rest)) errs hclose)
    (match_yields hc hrec))) fun _ _ => rfl

/-! ### The induction -/

/-- One round of `parse_expr_base_mod` behind a word that `t` does not make longer. -/
theorem Complete.mod {t : Token} {ts : List Token} (h : Complete T w (.expr .mod e d))
    (hd : ¬ d.Continues T t.kind) (ht : isMod t.kind = true)
    (hmod : Yields (fun n m => parseMod T (parseExpr T n) m e) ⟨t :: ts, errs⟩ e₁ ⟨rest, errs⟩)
    (hloop : YieldsLoop T .mod e₁ ⟨rest, errs⟩ r s') :
    YieldsAt T .mod ⟨w ++ t :: ts, errs⟩ r s' :=
  h (t :: ts) errs hd rfl r s' (yieldsLoop_mod ht hmod hloop)

theorem isMod_of_kind {t : Token} {k : TokenKind} (h : t.kind = k) (hk : isMod k = true) :
    isMod t.kind = true := by
  rw [h]
  exact hk

/-- An operator does not make its left operand longer. -/
theorem binary_stops {p : TokenKindProp} {k : TokenKind} (hl : l.binary = some p)
    (hk : k.hasProp p = true) (d : End) : ¬ d.Continues T k ∧ l.inner k = false := by
  cases l <;> cases hl <;> cases k <;> first
    | exact absurd hk (by decide)
    | exact ⟨not_continues (by decide) d, by decide⟩

theorem complete_of_derives {ph : Phrase τ} (h : Derives T w ph) : Complete T w ph := by
  induction h with
  | identLast ht => exact complete_idents (.identLast ht)
  | identCons ht hc hw _ => exact complete_idents (.identCons ht hc hw)
  | literal ht => exact fun rest errs _ _ r s' hloop => .direct (literal_yields ht) hloop
  | ident hw ih =>
    exact fun rest errs hd _ r s' hloop =>
      .direct (ident_yields (idents_head hw) fun p => ih rest errs p [] hd) hloop
  | paren hl _ hr ih =>
    intro rest errs _ _ r s' hloop
    rw [List.cons_append, List.append_assoc, List.singleton_append]
    exact .direct (paren_yields hl ih.readsExpr hr) hloop
  | compoundLit hl _ hr ih =>
    intro rest errs _ _ r s' hloop
    rw [List.cons_append, List.append_assoc, List.singleton_append]
    exact .direct (compoundLit_yields hl ih hr) hloop
  | compoundLitTyped hl _ hc hu hr ih =>
    intro rest errs _ _ r s' hloop
    simp only [List.cons_append, List.append_assoc, List.nil_append]
    exact .direct (compoundLitTyped_yields hl ih hc hu hr) hloop
  | keywordType hk hkw hmk hl hu hr =>
    intro rest errs _ _ r s' hloop
    simp only [List.cons_append, List.append_assoc, List.nil_append]
    exact .direct (keywordType_yields hk hkw hmk hl hu hr) hloop
  | keywordField hk hkw hmk hl hu hc hn hr =>
    intro rest errs _ _ r s' hloop
    simp only [List.cons_append, List.append_assoc, List.nil_append]
    exact .direct (keywordField_yields hk hkw hmk hl hu hc hn hr) hloop
  | length hk hkw hl _ hr ih =>
    intro rest errs _ _ r s' hloop
    simp only [List.cons_append, List.append_assoc, List.nil_append]
    exact .direct (length_yields hk hkw hl ih.readsExpr hr) hloop
  | field _ ho hn ih =>
    intro rest errs _ _ r s' hloop
    simp only [List.cons_append, List.append_assoc, List.nil_append]
    exact ih.mod (by rw [ho]; exact not_continues (by decide) _) (isMod_of_kind ho rfl)
      (field_yields ho hn) hloop
  | fieldIndex _ ho hl _ hr ih ihu =>
    intro rest errs _ _ r s' hloop
    simp only [List.cons_append, List.append_assoc, List.nil_append]
    exact ih.mod (by rw [ho]; exact not_continues (by decide) _) (isMod_of_kind ho rfl)
      (fieldIndex_yields ho hl ihu.readsExpr hr) hloop
  | index _ hl _ hr ih ihu =>
    intro rest errs _ _ r s' hloop
    simp only [List.cons_append, List.append_assoc, List.nil_append]
    exact ih.mod (by rw [hl]; exact not_continues (by decide) _) (isMod_of_kind hl rfl)
      (index_yields hl ihu.readsExpr hr) hloop
  | call _ hd hl _ hr ih ihu =>
    intro rest errs _ _ r s' hloop
    simp only [List.cons_append, List.append_assoc, List.nil_append]
    exact ih.mod (by rw [hl]; exact hd) (isMod_of_kind hl rfl) (call_yields hl ihu hr) hloop
  | cast _ hc hu ih =>
    intro rest errs hd _ r s' hloop
    rw [List.append_assoc, List.cons_append]
    exact ih.mod (by rw [hc]; exact not_continues (by decide) _) (isMod_of_kind hc rfl)
      (cast_yields hc hu hd) hloop
  | bitCast _ hc hu ih =>
    intro rest errs hd _ r s' hloop
    rw [List.append_assoc, List.cons_append]
    exact ih.mod (by rw [hc]; exact not_continues (by decide) _) (isMod_of_kind hc rfl)
      (bitCast_yields hc hu hd) hloop
  | unary ho _ ih =>
    exact fun rest errs hd hi r s' hloop =>
      .direct (unary_yields ho (ih.at hd hi rfl)) hloop
  | @binary l p w o u e₁ d₁ e₂ d₂ hl _ ho _ ih ihu =>
    intro rest errs hd hi r s' hloop
    have hbase : l ≠ .base := by
      rintro rfl
      cases hl
    obtain ⟨hin, htakes⟩ := inner_operand hbase hi
    obtain ⟨hcont, hinner⟩ := binary_stops (T := T) hl ho d₁
    rw [List.append_assoc, List.cons_append]
    exact ih (o :: (u ++ rest)) errs hcont hinner r s'
      (yieldsLoop_binary hl ho (ihu.at hd hin htakes) hloop)
  | ternary _ hq _ hc _ ih ihu ihv =>
    intro rest errs hd hi r s' hloop
    simp only [List.append_assoc, List.cons_append]
    refine .direct
      (ternary_yields hq hc (ih.at ?_ ?_ ?_) (ihu.at ?_ ?_ rfl) (ihv.at hd hi rfl)) hloop
    all_goals rw [tokenKind_cons]
    · rw [hq]
      exact not_continues (by decide) _
    · rw [hq]
      decide
    · rw [hq]
      decide
    · rw [hc]
      exact not_continues (by decide) _
    · rw [hc]
      decide
  | @operand l w e d hl hw ih =>
    refine ih.lift hl ?_
    rintro rfl
    obtain ⟨t, ts, rfl, ht | ⟨-, hm, -⟩⟩ := hw.head
    · exact ⟨t, ts, rfl, ht⟩
    · exact absurd rfl hm
  | initzer hw ih =>
    intro rest errs hk
    obtain ⟨t, ts, rfl, ht⟩ := hw.head
    have hbracket : t.kind ≠ .lbracket := by
      rintro hb
      rw [hb] at ht
      revert ht
      decide
    refine initzer_yields hbracket (ih.readsExpr rest errs hk) ?_
    rintro ha
    rw [ha] at hk
    cases hk
  | initzerName hn ha _ ih =>
    intro rest errs hk
    refine ite_yields_false (decide_eq_false ?_) (.bind (name_yields hn ha) (match_yields ha
      (.bind (ih.readsExpr rest errs hk) .pure)))
    rw [List.cons_append, tokenKind_cons, hn]
    decide
  | initzerIndex hl _ hr ha _ ih ihw =>
    intro rest errs hk
    simp only [List.append_assoc, List.cons_append]
    exact ite_yields (decide_eq_true hl) (.bind (expectToken_yields hl)
      (enclosed_yields ih.readsExpr hr rfl (.bind (expectToken_yields ha)
        (.bind (ihw.readsExpr rest errs hk) .pure))))
  | initzersNil => exact initzersNil_complete
  | initzersLast hw ih => exact initzersLast_complete hw ih
  | initzersCons hw hc _ ih ihu => exact initzersCons_complete hw ih hc ihu
  | arg hw ih =>
    intro rest errs hk
    refine .bind (ih.readsExpr rest errs hk) (match_yields_false ?_ .pure)
    rintro ha
    rw [ha] at hk
    cases hk
  | argName hn ha _ ih =>
    intro rest errs hk
    exact .bind (name_yields hn ha) (match_yields ha (.bind (ih.readsExpr rest errs hk) .pure))
  | argsNil => exact argsNil_complete
  | argsLast hw ih => exact argsLast_complete hw ih
  | argsCons hw hc _ ih ihu => exact argsCons_complete hw ih hc ihu

end

end Nibble.Front
