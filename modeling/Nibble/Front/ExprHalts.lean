import Nibble.Front.ExprComplete

/-!
# The expression parser terminates

By induction on the number of tokens: a procedure calls `parse_expr` behind a
token that it has passed, and each round of a loop passes one.
-/

namespace Nibble.Front

open Nibble.Lib

variable {τ : Type} {T : TypespecParser τ} {s : ParserState} {k : Nat}

/-! ### Primitives -/

section Primitives

variable {α : Type} {x y : Nat → Nat → Parser α}

/-- What is read behind a token that is expected. -/
theorem expect_halts {f : Token → Nat → Nat → Parser α} {kind : TokenKind}
    {errorPrefix : Option String} (hs : s.toks.length ≤ k)
    (hf : ∀ t s' j, j < k → s'.toks.length ≤ j → Halts j (f t) s') :
    Halts k (fun n m => expectToken kind errorPrefix >>= fun t => f t n m) s := by
  obtain ⟨_ | ⟨t, ts⟩, errs⟩ := s
  · exact .fails rfl hs
  · have hlt : ts.length < k := hs
    by_cases ht : t.kind = kind
    · exact .step (if_pos ht)
        ((hf t ⟨ts, errs⟩ ts.length hlt (Nat.le_refl _)).mono (Nat.le_of_lt hlt))
    · exact .fails (if_neg ht) hs

theorem expectToken_halts {kind : TokenKind} {errorPrefix : Option String}
    (hs : s.toks.length ≤ k) : Halts k (fun _ _ => expectToken kind errorPrefix) s := by
  obtain ⟨_ | ⟨t, ts⟩, errs⟩ := s
  · exact .of_eq rfl hs
  · by_cases ht : t.kind = kind
    · exact .of_eq (if_pos ht) (Nat.le_of_lt hs)
    · exact .of_eq (if_neg ht) hs

/-- What is read behind a token that is passed. -/
theorem next_halts {f : Option Token → Nat → Nat → Parser α} (hs : s.toks.length ≤ k)
    (hne : tokenKind s.toks ≠ .eof)
    (hf : ∀ o s' j, j < k → s'.toks.length ≤ j → Halts j (f o) s') :
    Halts k (fun n m => nextToken >>= fun o => f o n m) s := by
  obtain ⟨_ | ⟨t, ts⟩, errs⟩ := s
  · exact absurd rfl hne
  · have hlt : ts.length < k := hs
    exact .step rfl ((hf (some t) ⟨ts, errs⟩ ts.length hlt (Nat.le_refl _)).mono (Nat.le_of_lt hlt))

/-- A branch on the kind of the current token. -/
theorem ite_halts {p : TokenKind → Bool} (hx : p (tokenKind s.toks) = true → Halts k x s)
    (hy : p (tokenKind s.toks) = false → Halts k y s) :
    Halts k (fun n m => do if ← isToken p then x n m else y n m) s := by
  have hstep : isToken p s = some (some (p (tokenKind s.toks)), s) := rfl
  refine .step hstep ?_
  cases hp : p (tokenKind s.toks) with
  | true => exact hx hp
  | false => exact hy hp

/-- A branch on a token that is passed. -/
theorem match_halts {kind : TokenKind} (hkind : kind ≠ .eof)
    (hx : ∀ s', s'.toks.length < s.toks.length → Halts k x s')
    (hy : tokenKind s.toks ≠ kind → Halts k y s) :
    Halts k (fun n m => do if ← matchToken kind then x n m else y n m) s := by
  obtain ⟨_ | ⟨t, ts⟩, errs⟩ := s
  · exact .step rfl (hy hkind.symm)
  · by_cases ht : t.kind = kind
    · exact .step (if_pos ht) (hx ⟨ts, errs⟩ (Nat.lt_succ_self _))
    · exact .step (if_neg ht) (hy ht)

theorem parseTypespec_halts (hs : s.toks.length ≤ k) :
    Halts k (fun _ _ => parseTypespec T) s :=
  .of_eq rfl (Nat.le_trans (T.toks s) hs)

end Primitives

/-! ### Procedures -/

theorem namespacedIdentLoop_halts (errPrefix : String) (acc : List (List Char))
    (hs : s.toks.length ≤ k) :
    Halts k (fun _ m => namespacedIdentLoop errPrefix m acc) s := by
  induction k using Nat.strongRecOn generalizing s acc with
  | _ k ih =>
    refine .loop (expect_halts hs fun t s' j hj hs' => match_halts (by decide) ?_
      fun _ => .pure hs') fun _ _ => rfl
    exact fun s'' hs'' => ih j hj _ (by omega)

/-- `parse_expr` terminates on fewer than `k` tokens. -/
def HaltsBelow (T : TypespecParser τ) (k : Nat) : Prop :=
  ∀ j < k, ∀ s, s.toks.length ≤ j → Halts j (fun n _ => parseExpr T n) s

theorem HaltsBelow.mono {k' : Nat} (h : HaltsBelow T k) (hk : k' ≤ k) : HaltsBelow T k' :=
  fun j hj => h j (Nat.lt_of_lt_of_le hj hk)

/-- An expression, and a token that must follow it. -/
theorem enclosed_halts {kind : TokenKind} {errorPrefix : Option String} {α : Type}
    {f : Expr τ → Nat → Nat → Parser α} (H : HaltsBelow T k) {j : Nat} (hj : j < k)
    (hs : s.toks.length ≤ j) (hf : ∀ e s' i, i < j → s'.toks.length ≤ i → Halts i (f e) s') :
    Halts j (fun n m => do
      let e ← parseExpr T n
      let _ ← expectToken kind errorPrefix
      f e n m) s :=
  .bind (H j hj s hs) fun e _ hs' => expect_halts hs' fun _ => hf e

theorem enclosedType_halts {kind : TokenKind} {errorPrefix : Option String} {α : Type}
    {f : τ → Nat → Nat → Parser α} (hs : s.toks.length ≤ k)
    (hf : ∀ t s' i, i < k → s'.toks.length ≤ i → Halts i (f t) s') :
    Halts k (fun n m => do
      let t ← parseTypespec T
      let _ ← expectToken kind errorPrefix
      f t n m) s :=
  .bind (parseTypespec_halts hs) fun t _ hs' => expect_halts hs' fun _ => hf t

section

variable {j : Nat} {e : Expr τ}

theorem parseNonindexMemberInitializer_halts (H : HaltsBelow T k) (hj : j < k)
    (hs : s.toks.length ≤ j) :
    Halts j (fun n _ => parseNonindexMemberInitializer (parseExpr T n)) s := by
  refine .bind (H j hj s hs) fun e s' hs' => match_halts (by decide) (fun s'' hlt => ?_)
    fun _ => .pure hs'
  have hs'' : s''.toks.length ≤ j := by omega
  cases e with
  | ident idents =>
    by_cases hns : idents.length > 1
    · exact .congr (.reject hs'') fun _ _ => congrFun (if_pos hns) s''
    · exact .congr (.bind (H j hj s'' hs'') fun _ _ => .pure) fun _ _ =>
        congrFun (if_neg hns) s''
  | _ => exact .reject hs''

theorem parseIndexMemberInitializer_halts (H : HaltsBelow T k) (hj : j < k)
    (hs : s.toks.length ≤ j) :
    Halts j (fun n _ => parseIndexMemberInitializer (parseExpr T n)) s :=
  expect_halts hs fun _ _ i hi hs' => enclosed_halts H (Nat.lt_trans hi hj) hs'
    fun _ _ i' hi' hs'' => expect_halts hs'' fun _ s₃ i₃ hi₃ hs₃ =>
      .bind (H i₃ (by omega) s₃ hs₃) fun _ _ => .pure

theorem initzerLoop_halts (H : HaltsBelow T k) (hj : j < k) (hs : s.toks.length ≤ j)
    (acc : List (MemberInitializer τ)) :
    Halts j (fun n m => initzerLoop (parseExpr T n) m acc) s := by
  induction j using Nat.strongRecOn generalizing s acc with
  | _ j ih =>
    refine .loop (ite_halts (fun _ => .bind (ite_halts
      (fun _ => parseIndexMemberInitializer_halts H hj hs)
      fun _ => parseNonindexMemberInitializer_halts H hj hs) fun i s' hs' =>
        match_halts (by decide) (fun s'' hlt => ?_) fun _ => .pure hs') fun _ => .pure hs)
      fun _ _ => rfl
    exact (ih s''.toks.length (by omega) (by omega) (Nat.le_refl _) _).mono (by omega)

theorem parseProcCallArg_halts (H : HaltsBelow T k) (hj : j < k) (hs : s.toks.length ≤ j) :
    Halts j (fun n _ => parseProcCallArg (parseExpr T n)) s := by
  refine .bind (H j hj s hs) fun e s' hs' => match_halts (by decide) (fun s'' hlt => ?_)
    fun _ => .pure hs'
  have hs'' : s''.toks.length ≤ j := by omega
  cases e with
  | ident idents =>
    by_cases hns : idents.length > 1
    · exact .congr (.reject hs'') fun _ _ => congrFun (if_pos hns) s''
    · exact .congr (.bind (H j hj s'' hs'') fun _ _ => .pure) fun _ _ =>
        congrFun (if_neg hns) s''
  | _ => exact .reject hs''

theorem argLoop_halts (H : HaltsBelow T k) (hj : j < k) (hs : s.toks.length ≤ j)
    (acc : List (ProcCallArg τ)) :
    Halts j (fun n m => argLoop (parseExpr T n) m acc) s := by
  induction j using Nat.strongRecOn generalizing s acc with
  | _ j ih =>
    refine .loop (ite_halts (fun _ => .bind (parseProcCallArg_halts H hj hs) fun a s' hs' =>
      match_halts (by decide) (fun s'' hlt => ?_) fun _ => .pure hs') fun _ => .pure hs)
      fun _ _ => rfl
    exact (ih s''.toks.length (by omega) (by omega) (Nat.le_refl _) _).mono (by omega)

/-! ### `parse_expr_base` -/

variable {t : Token}

theorem parseLiteral_halts (hs : s.toks.length ≤ k) (hne : tokenKind s.toks ≠ .eof) :
    Halts k (fun _ _ => parseLiteral e) s :=
  next_halts hs hne fun _ _ _ _ => .pure

theorem parseKeywordType_halts (errorPrefix : String) (mk : τ → Expr τ) (hs : s.toks.length ≤ k)
    (hne : tokenKind s.toks ≠ .eof) :
    Halts k (fun _ _ => parseKeywordType T errorPrefix mk) s :=
  next_halts hs hne fun _ _ _ _ hs' => expect_halts hs' fun _ _ _ _ hs'' =>
    enclosedType_halts hs'' fun _ _ _ _ => .pure

theorem parseKeywordField_halts (errPrefix : String) (mk : τ → List Char → Expr τ)
    (hs : s.toks.length ≤ k) (hne : tokenKind s.toks ≠ .eof) :
    Halts k (fun _ _ => parseKeywordField T errPrefix mk) s :=
  next_halts hs hne fun _ _ _ _ hs' => expect_halts hs' fun _ _ _ _ hs'' =>
    enclosedType_halts hs'' fun _ _ _ _ hs₃ => expect_halts hs₃ fun _ _ _ _ hs₄ =>
      expect_halts hs₄ fun _ _ _ _ => .pure

theorem parseExprLen_halts (H : HaltsBelow T k) (hs : s.toks.length ≤ k)
    (hne : tokenKind s.toks ≠ .eof) : Halts k (fun n _ => parseExprLen (parseExpr T n)) s :=
  next_halts hs hne fun _ _ _ hj hs' => expect_halts hs' fun _ _ _ hi hs'' =>
    enclosed_halts H (Nat.lt_trans hi hj) hs'' fun _ _ _ _ => .pure

theorem parseEnclosed_halts (H : HaltsBelow T k) (hs : s.toks.length ≤ k)
    (hne : tokenKind s.toks ≠ .eof) : Halts k (fun n _ => parseEnclosed (parseExpr T n)) s :=
  next_halts hs hne fun _ _ _ hj hs' => enclosed_halts H hj hs' fun _ _ _ _ => .pure

theorem parseExprCompoundLit_halts (H : HaltsBelow T k) (hs : s.toks.length ≤ k) :
    Halts k (fun n m => parseExprCompoundLit T (parseExpr T n) m) s :=
  expect_halts hs fun _ _ _ hj hs' => .bind (initzerLoop_halts H hj hs' []) fun _ _ hs'' =>
    match_halts (by decide)
      (fun _ hlt => enclosedType_halts (by omega) fun _ _ _ _ => .pure)
      fun _ => expect_halts hs'' fun _ _ _ _ => .pure

theorem parseExprIdent_halts (hs : s.toks.length ≤ k) :
    Halts k (fun _ m => (parseExprIdent m : Parser (Expr τ))) s :=
  .bind (namespacedIdentLoop_halts _ [] hs) fun _ _ => .pure

theorem parseExprBaseOf_halts (H : HaltsBelow T k) (hs : s.toks.length ≤ k)
    (hne : tokenKind s.toks ≠ .eof) (t : Token) :
    Halts k (fun n m => parseExprBaseOf T (parseExpr T n) m (some t)) s := by
  have hreject : Halts k (fun _ _ =>
      (Parse.reject (unexpectedInExpr (some t)) : Parser (Expr τ))) s := .reject hs
  cases hk : t.kind with
  | int | float | str =>
    exact .congr (parseLiteral_halts hs hne) fun _ _ => by simp only [parseExprBaseOf, hk]; rfl
  | lparen =>
    exact .congr (parseEnclosed_halts H hs hne) fun _ _ => by simp only [parseExprBaseOf, hk]
  | lbrace =>
    exact .congr (parseExprCompoundLit_halts H hs) fun _ _ => by simp only [parseExprBaseOf, hk]
  | ident => exact .congr (parseExprIdent_halts hs) fun _ _ => by simp only [parseExprBaseOf, hk]
  | kw =>
    cases hkw : t.keyword? with
    | none => exact .congr hreject fun _ _ => by simp only [parseExprBaseOf, hk, hkw]
    | some kw =>
      cases kw with
      | true | false | null =>
        exact .congr (parseLiteral_halts hs hne) fun _ _ => by
          simp only [parseExprBaseOf, hk, hkw]; rfl
      | sizeof | typeid =>
        exact .congr (parseKeywordType_halts _ _ hs hne) fun _ _ => by
          simp only [parseExprBaseOf, hk, hkw, parseExprSizeof, parseExprTypeid]; rfl
      | offsetof | indexof =>
        exact .congr (parseKeywordField_halts _ _ hs hne) fun _ _ => by
          simp only [parseExprBaseOf, hk, hkw, parseExprOffsetof, parseExprIndexof]; rfl
      | length =>
        exact .congr (parseExprLen_halts H hs hne) fun _ _ => by
          simp only [parseExprBaseOf, hk, hkw]
  | _ => exact .congr hreject fun _ _ => by simp only [parseExprBaseOf, hk]

theorem parseExprBase_halts (H : HaltsBelow T k) (hs : s.toks.length ≤ k) :
    Halts k (fun n m => parseExprBase T (parseExpr T n) m) s := by
  obtain ⟨_ | ⟨t, ts⟩, errs⟩ := s
  · exact .of_eq rfl hs
  · by_cases hne : t.kind = .eof
    · refine .congr (.reject (e := unexpectedInExpr (some t)) hs) fun _ _ => ?_
      simp only [parseExprBase, List.head?_cons, parseExprBaseOf, hne]
    · exact .congr (parseExprBaseOf_halts H hs hne t) fun _ _ => rfl

/-! ### Postfix operators -/

theorem parseField_halts (H : HaltsBelow T k) (hj : j < k) (hs : s.toks.length ≤ j) (e : Expr τ) :
    Halts j (fun n _ => parseField (parseExpr T n) e) s :=
  match_halts (by decide)
    (fun _ hlt => enclosed_halts H hj (by omega) fun _ _ _ _ => .pure)
    fun _ => expect_halts hs fun _ _ _ _ => .pure

theorem parseIndex_halts (H : HaltsBelow T k) (hj : j < k) (hs : s.toks.length ≤ j) (e : Expr τ) :
    Halts j (fun n _ => parseIndex (parseExpr T n) e) s :=
  enclosed_halts H hj hs fun _ _ _ _ => .pure

theorem parseCall_halts (H : HaltsBelow T k) (hj : j < k) (hs : s.toks.length ≤ j) (e : Expr τ) :
    Halts j (fun n m => parseCall (parseExpr T n) m e) s :=
  .bind (argLoop_halts H hj hs []) fun _ _ hs' => expect_halts hs' fun _ _ _ _ => .pure

/-- A round passes a token. -/
theorem parseMod_halts (H : HaltsBelow T k) (hj : j < k) (hs : s.toks.length ≤ j + 1)
    (hmod : isMod (tokenKind s.toks) = true) (e : Expr τ) :
    Halts j (fun n m => parseMod T (parseExpr T n) m e) s := by
  refine match_halts (by decide) (fun _ hlt => parseField_halts H hj (by omega) e) fun h₁ => ?_
  refine match_halts (by decide) (fun _ hlt => parseIndex_halts H hj (by omega) e) fun h₂ => ?_
  refine match_halts (by decide) (fun _ hlt => parseCall_halts H hj (by omega) e) fun h₃ => ?_
  refine match_halts (by decide)
    (fun _ hlt => .bind (parseTypespec_halts (by omega)) fun _ _ => .pure) fun h₄ => ?_
  have h₅ : tokenKind s.toks = .bitCast := by
    simp only [isMod, Bool.or_eq_true, decide_eq_true_eq] at hmod
    simp_all
  obtain ⟨_ | ⟨t, ts⟩, errs⟩ := s
  · cases h₅
  · have hts : ts.length ≤ j := Nat.le_of_succ_le_succ hs
    have hpass : matchToken .bitCast ⟨t :: ts, errs⟩ = some (some true, ⟨ts, errs⟩) := if_pos h₅
    exact .step hpass (.bind (parseTypespec_halts hts) fun _ _ => .pure)

theorem baseModLoop_halts (H : HaltsBelow T k) (hs : s.toks.length ≤ k) (e : Expr τ) :
    Halts k (fun n m => baseModLoop T (parseExpr T n) m e) s := by
  induction k generalizing s e with
  | zero =>
    refine .loop (ite_halts (fun hmod => ?_) fun _ => .pure hs) fun _ _ => rfl
    rw [List.eq_nil_of_length_eq_zero (Nat.le_zero.mp hs)] at hmod
    cases hmod
  | succ j ih =>
    have hmono : HaltsBelow T j := H.mono (Nat.le_succ j)
    refine .loop (ite_halts (fun hmod => Halts.mono ?_ (Nat.le_succ j)) fun _ => .pure hs)
      fun _ _ => rfl
    exact .bind (parseMod_halts H (Nat.lt_succ_self j) hs hmod e) fun e' _ hs' => ih hmono hs' e'

theorem parseExprBaseMod_halts (H : HaltsBelow T k) (hs : s.toks.length ≤ k) :
    Halts k (fun n m => parseExprBaseMod T (parseExpr T n) m) s :=
  .bind (parseExprBase_halts H hs) fun e _ hs' => baseModLoop_halts H hs' e

/-! ### Prefix and infix operators -/

theorem ne_eof_of_hasProp {p : TokenKindProp} {kind : TokenKind} (h : kind.hasProp p = true) :
    kind ≠ .eof := by
  rintro rfl
  cases p <;> cases h

theorem parseExprUnary_halts (H : HaltsBelow T k) (hs : s.toks.length ≤ k) :
    Halts k (fun n m => parseExprUnary T (parseExpr T n) m) s := by
  induction k using Nat.strongRecOn generalizing s with
  | _ k ih =>
    refine .loop (ite_halts
      (fun hop => next_halts hs (ne_eof_of_hasProp hop) fun _ _ j hj hs' => ?_)
      fun _ => parseExprBaseMod_halts H hs) fun _ _ => rfl
    exact .bind (ih j hj (H.mono (Nat.le_of_lt hj)) hs') fun _ _ => .pure

/-- A procedure terminates on at most `k` tokens. -/
def HaltsUpTo (k : Nat) (x : Nat → Nat → Parser (Expr τ)) : Prop :=
  ∀ j ≤ k, ∀ s, s.toks.length ≤ j → Halts j x s

theorem binaryLoop_halts {p : TokenKindProp} {operand : Nat → Nat → Parser (Expr τ)}
    (hoperand : HaltsUpTo k operand) (hs : s.toks.length ≤ k) (e : Expr τ) :
    Halts k (fun n m => binaryLoop p (operand n) m e) s := by
  induction k using Nat.strongRecOn generalizing s e with
  | _ k ih =>
    refine .loop (ite_halts
      (fun hop => next_halts hs (ne_eof_of_hasProp hop) fun _ s' j hj hs' => ?_)
      fun _ => .pure hs) fun _ _ => rfl
    have hle : j ≤ k := Nat.le_of_lt hj
    exact .bind (hoperand j hle s' hs') fun _ _ hs'' =>
      ih j hj (fun i hi => hoperand i (Nat.le_trans hi hle)) hs'' _

theorem parseBinary_halts {p : TokenKindProp} {operand : Nat → Nat → Parser (Expr τ)}
    (hoperand : HaltsUpTo k operand) :
    HaltsUpTo k fun n m => parseBinary p (operand n) m :=
  fun j hj s hs => .bind (hoperand j hj s hs) fun e _ hs' =>
    binaryLoop_halts (fun i hi => hoperand i (Nat.le_trans hi hj)) hs' e

theorem parseExprOr_halts (H : HaltsBelow T k) (hs : s.toks.length ≤ k) :
    Halts k (fun n m => parseExprOr T (parseExpr T n) m) s := by
  have hunary : HaltsUpTo k fun n m => parseExprUnary T (parseExpr T n) m :=
    fun j hj s hs => parseExprUnary_halts (H.mono hj) hs
  have hcmp := parseBinary_halts (p := .cmp) (parseBinary_halts (p := .add)
    (parseBinary_halts (p := .mul) hunary))
  exact parseBinary_halts (p := .or) (parseBinary_halts (p := .and) hcmp) k (Nat.le_refl k) s hs

/-! ### `parse_expr` -/

theorem parseExprTernary_halts (H : HaltsBelow T k) (hs : s.toks.length ≤ k) :
    Halts k (fun n m => parseExprTernary T (parseExpr T n) m) s := by
  induction k using Nat.strongRecOn generalizing s with
  | _ k ih =>
    have hternary : ∀ j < k, ∀ s', s'.toks.length ≤ j →
        Halts j (fun n m => parseExprTernary T (parseExpr T n) m) s' := fun j hj _ =>
      ih j hj (H.mono (Nat.le_of_lt hj))
    refine .loop (.bind (parseExprOr_halts H hs) fun e s' hs' => match_halts (by decide)
      (fun s'' hlt => Halts.mono ?_ (Nat.le_of_lt (Nat.lt_of_lt_of_le hlt hs')))
      fun _ => .pure hs') fun _ _ => rfl
    have hlt : s''.toks.length < k := Nat.lt_of_lt_of_le hlt hs'
    refine .bind (hternary _ hlt s'' (Nat.le_refl _)).attempt fun thenExpr s₃ hs₃ => ?_
    cases thenExpr with
    | none => exact .pure hs₃
    | some thenExpr =>
      refine .bind ((expectToken_halts hs₃).attempt) fun c s₄ hs₄ => ?_
      cases c with
      | none => exact .pure hs₄
      | some c =>
        refine .bind (hternary _ hlt s₄ hs₄).attempt fun elseExpr s₅ hs₅ => ?_
        cases elseExpr with
        | none => exact .pure hs₅
        | some elseExpr => exact .pure hs₅

/-- `parse_expr` ends on every input. -/
theorem parseExpr_halts (hs : s.toks.length ≤ k) : Halts k (fun n _ => parseExpr T n) s := by
  induction k using Nat.strongRecOn generalizing s with
  | _ k ih =>
    obtain ⟨r, s', hl, N, h⟩ := parseExprTernary_halts (T := T) (fun j hj _ => ih j hj) hs
    refine ⟨r, s', hl, N + 1, fun n hn m hm => ?_⟩
    obtain ⟨n, rfl⟩ : ∃ i, n = i + 1 := ⟨n - 1, by omega⟩
    exact h n (by omega) n (by omega)

end

end Nibble.Front
