import Mathlib.Data.List.Chain
import Nibble.Front.ExprSound
import Nibble.Front.ExprHalts

/-!
# The parser and the grammar

`parse_expr` ends on every list of tokens, and what it accepts without an error
are the words of the grammar that what follows does not make longer. The list
has at most one such word. A name in parentheses in front of `=` is left out.
-/

namespace Nibble.Front

open Nibble.Lib

variable {τ : Type} {T : TypespecParser τ}

/-- With enough fuel `parse_expr` ends so. -/
def Parses (T : TypespecParser τ) (s : ParserState) (r : Option (Expr τ)) (s' : ParserState) :
    Prop :=
  ∃ N, ∀ n ≥ N, parseExpr T n s = some (r, s')

theorem Parses.unique {s s₁ s₂ : ParserState} {r₁ r₂ : Option (Expr τ)} (h₁ : Parses T s r₁ s₁)
    (h₂ : Parses T s r₂ s₂) : r₁ = r₂ ∧ s₁ = s₂ := by
  obtain ⟨N₁, h₁⟩ := h₁
  obtain ⟨N₂, h₂⟩ := h₂
  have he := (h₁ (max N₁ N₂) (by omega)).symm.trans (h₂ (max N₁ N₂) (by omega))
  simp only [Option.some.injEq, Prod.mk.injEq] at he
  exact he

/-! ### The words of the grammar -/

/-- No `=` follows a `)`, and none comes first. -/
def AssignsFollowNames (w : List Token) : Prop :=
  (w.map Token.kind).IsChain (fun a b => b = .assign → a ≠ .rparen) ∧ tokenKind w ≠ .assign

namespace AssignsFollowNames

variable {w u : List Token} {t n a : Token} {k : TokenKind}

theorem nil : AssignsFollowNames [] := ⟨.nil, nofun⟩

theorem append (hw : AssignsFollowNames w) (hu : AssignsFollowNames u) :
    AssignsFollowNames (w ++ u) := by
  refine ⟨?_, ?_⟩
  · rw [List.map_append, List.isChain_append]
    refine ⟨hw.1, hu.1, ?_⟩
    rintro x - y hy rfl
    cases u with
    | nil => cases hy
    | cons t ts => exact absurd (Option.some.inj hy) hu.2
  · cases w with
    | nil => exact hu.2
    | cons t ts => exact hw.2

theorem single (ht : t.kind ≠ .assign) : AssignsFollowNames [t] := ⟨.singleton _, ht⟩

/-- A token other than `=`. -/
theorem cons (ht : t.kind = k) (hw : AssignsFollowNames w) (hk : k ≠ .assign := by decide) :
    AssignsFollowNames (t :: w) :=
  (single (ht ▸ hk)).append hw

/-- A name or a bracket with its `=`. -/
theorem assign (hn : n.kind = k) (hw : AssignsFollowNames w)
    (hk : k ≠ .assign ∧ k ≠ .rparen := by decide) : AssignsFollowNames (n :: a :: w) := by
  have hpair : AssignsFollowNames [n, a] := by
    refine ⟨.cons_cons (fun _ => ?_) (.singleton _), ?_⟩
    · exact hn ▸ hk.2
    · exact fun h => hk.1 (hn.symm.trans h)
  exact hpair.append hw

end AssignsFollowNames

open AssignsFollowNames in
theorem Derives.assignsFollowNames {w : List Token} {ph : Phrase τ}
    (hT : ∀ u t, T.Derives u t → AssignsFollowNames u) (h : Derives T w ph) :
    AssignsFollowNames w := by
  induction h with
  | identLast ht => exact .cons ht .nil
  | identCons ht hc _ ih => exact .cons ht (.cons hc ih)
  | literal ht =>
    refine .single fun ha => ?_
    have hstart := literal?_startsBase ht
    rw [ha] at hstart
    cases hstart
  | ident _ ih | operand _ _ ih | initzer _ ih | initzersLast _ ih | arg _ ih
  | argsLast _ ih => exact ih
  | paren hl _ hr ih | compoundLit hl _ hr ih => exact .cons hl (ih.append (.cons hr .nil))
  | compoundLitTyped hl _ hc hu hr ih =>
    exact .cons hl (ih.append (.cons hc ((hT _ _ hu).append (.cons hr .nil))))
  | keywordType hk _ _ hl hu hr =>
    exact .cons hk (.cons hl ((hT _ _ hu).append (.cons hr .nil)))
  | keywordField hk _ _ hl hu hc hn hr =>
    exact .cons hk (.cons hl ((hT _ _ hu).append (.cons hc (.cons hn (.cons hr .nil)))))
  | length hk _ hl _ hr ih => exact .cons hk (.cons hl (ih.append (.cons hr .nil)))
  | field _ ho hn ih => exact ih.append (.cons ho (.cons hn .nil))
  | fieldIndex _ ho hl _ hr ih ihu =>
    exact ih.append (.cons ho (.cons hl (ihu.append (.cons hr .nil))))
  | index _ hl _ hr ih ihu | call _ _ hl _ hr ih ihu =>
    exact ih.append (.cons hl (ihu.append (.cons hr .nil)))
  | cast _ hc hu ih | bitCast _ hc hu ih => exact ih.append (.cons hc (hT _ _ hu))
  | unary ho _ ih =>
    refine .append (.single fun ha => ?_) ih
    rw [ha] at ho
    cases ho
  | @binary l p w o u _ _ _ _ hl _ ho _ ih ihu =>
    refine ih.append (.append (u := u) (.single fun ha => ?_) ihu)
    rw [ha] at ho
    cases l <;> cases hl <;> cases ho
  | ternary _ hq _ hc _ ih ihu ihv => exact ih.append (.cons hq (ihu.append (.cons hc ihv)))
  | initzerName hn _ _ ih | argName hn _ _ ih => exact .assign hn ih
  | initzerIndex hl _ hr _ _ ih ihw => exact .cons hl (ih.append (.assign hr ihw))
  | initzersNil | argsNil => exact .nil
  | initzersCons _ hc _ ih ihu | argsCons _ hc _ ih ihu => exact ih.append (.cons hc ihu)

theorem AssignsFollowNames.bareNames {w : List Token} (h : AssignsFollowNames w) : BareNames w := by
  rintro ⟨u, v, hw⟩
  have hpair := (hw ▸ h.1).left_of_append.right_of_append
  exact (List.isChain_cons_cons.mp hpair).1 rfl rfl

/-! ### The parser and the grammar -/

theorem parses_of_isExpr {w rest : List Token} {e : Expr τ} (h : IsExpr T w e rest)
    (errs : List ParseError) : Parses T ⟨w ++ rest, errs⟩ (some e) ⟨rest, errs⟩ := by
  obtain ⟨d, hw, hd, hi⟩ := h
  obtain ⟨N, hN⟩ := yields_parseExpr ((complete_of_derives hw).at hd hi rfl)
  exact ⟨N, fun n hn => hN n hn n hn⟩

theorem parseExpr_exact (T : TypespecParser τ) (toks : List Token) (errs : List ParseError) :
    (∃ r s', Parses T ⟨toks, errs⟩ r s') ∧
    (∀ w rest e, toks = w ++ rest → IsExpr T w e rest →
      Parses T ⟨toks, errs⟩ (some e) ⟨rest, errs⟩) ∧
    (∀ r rest, Parses T ⟨toks, errs⟩ r ⟨rest, errs⟩ →
      ∃ w e, r = some e ∧ toks = w ++ rest ∧ (BareNames w → IsExpr T w e rest)) ∧
    ∀ w rest e w' rest' e', toks = w ++ rest → IsExpr T w e rest → toks = w' ++ rest' →
      IsExpr T w' e' rest' → w = w' ∧ e = e' := by
  refine ⟨?_, ?_, ?_, ?_⟩
  · obtain ⟨r, s', -, N, h⟩ := parseExpr_halts (T := T) (s := ⟨toks, errs⟩) (Nat.le_refl _)
    exact ⟨r, s', N, fun n hn => h n hn n hn⟩
  · rintro w rest e rfl h
    exact parses_of_isExpr h errs
  · rintro r rest ⟨N, h⟩
    obtain ⟨w, e, hr, hw, hexpr⟩ := (parseExpr_reads N ⟨toks, errs⟩ r _ (h N (Nat.le_refl N))).2 rfl
    exact ⟨w, e, hr, hw, hexpr⟩
  · rintro w rest e w' rest' e' rfl h hw' h'
    obtain ⟨he, hs⟩ := (parses_of_isExpr h errs).unique (hw' ▸ parses_of_isExpr h' errs)
    cases he
    cases hs
    exact ⟨List.append_cancel_right hw', rfl⟩

/-! ### Two inputs -/

/-- Types that are names. -/
def nameTypes : TypespecParser (List Char) where
  parse s :=
    match s.toks with
    | t :: ts =>
      if t.kind = .ident then (some t.asIdent, { s with toks := ts })
      else (none, { s with errors := s.errors ++ [unexpectedToken .ident none (some t)] })
    | [] => (none, { s with errors := s.errors ++ [unexpectedToken .ident none none] })
  Derives w x := ∃ t, w = [t] ∧ t.kind = .ident ∧ t.asIdent = x
  continues _ _ := False
  errors s := by
    split
    · split
      · exact List.prefix_rfl
      · exact List.prefix_append _ _
    · exact List.prefix_append _ _
  toks s := by
    split
    · split
      · simp only [*, List.length_cons, Nat.le_succ]
      · exact Nat.le_refl _
    · exact Nat.le_refl _
  reports s h := by
    split at h
    · split at h
      · cases h
      · simp only [*, if_false]
        simp
    · simp only [*]
      simp
  exact s x rest := by
    obtain ⟨_ | ⟨t, ts⟩, errs⟩ := s
    · constructor
      · rintro ⟨⟩
      · rintro ⟨_, hw, ⟨t, rfl, -⟩, -⟩
        cases hw
    · by_cases ht : t.kind = .ident
      · simp only [ht, if_true]
        constructor
        · rintro ⟨⟩
          exact ⟨[t], rfl, ⟨t, rfl, ht, rfl⟩, not_false⟩
        · rintro ⟨_, hw, ⟨t', rfl, -, rfl⟩, -⟩
          cases hw
          rfl
      · simp only [ht, if_false]
        constructor
        · rintro ⟨⟩
        · rintro ⟨_, hw, ⟨t', rfl, ht', -⟩, -⟩
          cases hw
          exact absurd ht' ht
  follow _ _ h := h.elim

theorem nameTypes_words (u : List Token) (x : List Char) (h : nameTypes.Derives u x) :
    AssignsFollowNames u := by
  obtain ⟨t, rfl, ht, -⟩ := h
  exact .cons ht .nil

/-- The token of a kind that carries nothing. -/
def plainToken (kind : TokenKind) : Token := ⟨kind, ⟨0, 0⟩, .none⟩

def nameToken (name : List Char) : Token := ⟨.ident, ⟨0, 0⟩, .asIdent name⟩

def intToken (value : Nat) : Token := ⟨.int, ⟨0, 0⟩, .asInt ⟨value, .dec, .none⟩⟩

theorem Derives.of_base {T : TypespecParser τ} {w : List Token} {e : Expr τ} {d : End}
    (h : Derives T w (.expr .base e d)) (l : Level) : Derives T w (.expr l e d) := by
  have hunary : Derives T w (.expr .unary e d) :=
    .operand (by decide) (.operand (by decide) h)
  have hcmp : Derives T w (.expr .cmp e d) :=
    .operand (by decide) (.operand (by decide) (.operand (by decide) hunary))
  have hor : Derives T w (.expr .or e d) := .operand (by decide) (.operand (by decide) hcmp)
  cases l with
  | base => exact h
  | mod => exact .operand (by decide) h
  | unary => exact hunary
  | mul => exact .operand (by decide) hunary
  | add => exact .operand (by decide) (.operand (by decide) hunary)
  | cmp => exact hcmp
  | and => exact .operand (by decide) hcmp
  | or => exact hor
  | expr => exact .operand (by decide) hor

theorem derives_nameToken {T : TypespecParser τ} (l : Level) (x : List Char) :
    Derives T [nameToken x] (.expr l (.ident [x]) .name) :=
  .of_base (.ident (.identLast rfl)) l

/-- `x + y` is read to its end. -/
theorem parseExpr_exact_sum :
    Parses nameTypes ⟨[nameToken ['x'], plainToken .plus, nameToken ['y']], []⟩
      (some (.binary .plus (.ident [['x']]) (.ident [['y']]))) ⟨[], []⟩ := by
  refine (parseExpr_exact nameTypes _ []).2.1 _ [] _ (List.append_nil _).symm
    ⟨.name, ?_, nofun, rfl⟩
  have hadd : Derives nameTypes [nameToken ['x'], plainToken .plus, nameToken ['y']]
      (.expr .add (.binary .plus (.ident [['x']]) (.ident [['y']])) .name) :=
    .binary (w := [_]) rfl (derives_nameToken .add _) rfl (derives_nameToken .mul _)
  exact .operand (by decide) (.operand (by decide) (.operand (by decide) (.operand (by decide) hadd)))

/-- A name in parentheses, in the place of a designator. -/
theorem parenName_yields (x : List Char) (v : Nat) (rest : List Token)
    (errs : List ParseError) (hr : closing (tokenKind rest) = true) :
    Yields (fun n _ => parseMemberInitializer (parseExpr nameTypes n))
      ⟨plainToken .lparen :: nameToken x :: plainToken .rparen :: plainToken .assign ::
        intToken v :: rest, errs⟩
      (.mk (.name x) (.int ⟨v, .dec, .none⟩)) ⟨rest, errs⟩ := by
  have hparen : Derives nameTypes [plainToken .lparen, nameToken x, plainToken .rparen]
      (.expr .expr (.ident [x]) .closed) :=
    .of_base (.paren (w := [_]) rfl (derives_nameToken .expr x) rfl) .expr
  have hint : Derives nameTypes [intToken v] (.expr .expr (.int ⟨v, .dec, .none⟩) .closed) :=
    .of_base (.literal rfl) .expr
  have hname : Yields (fun n _ => parseExpr nameTypes n)
      ⟨plainToken .lparen :: nameToken x :: plainToken .rparen :: plainToken .assign ::
        intToken v :: rest, errs⟩
      (.ident [x]) ⟨plainToken .assign :: intToken v :: rest, errs⟩ :=
    yields_parseExpr ((complete_of_derives hparen).at id rfl rfl)
  have hinit := (complete_of_derives hint).readsExpr rest errs hr
  exact ite_yields_false rfl (.bind hname (match_yields rfl (.bind hinit .pure)))

/-- `{ (x) = 1 }`. -/
def parenNameLit : List Token :=
  [plainToken .lbrace, plainToken .lparen, nameToken ['x'], plainToken .rparen,
    plainToken .assign, intToken 1, plainToken .rbrace]

theorem parses_parenNameLit : Parses nameTypes ⟨parenNameLit, []⟩
    (some (.compoundLit none [.mk (.name ['x']) (.int ⟨1, .dec, .none⟩)])) ⟨[], []⟩ := by
  have hinitzers : ReadsInitzers nameTypes
      [plainToken .lparen, nameToken ['x'], plainToken .rparen, plainToken .assign, intToken 1]
      [.mk (.name ['x']) (.int ⟨1, .dec, .none⟩)] := by
    intro rest errs acc hr
    have hclose : closing (tokenKind rest) = true := by
      rcases hr with hr | hr <;> rw [hr] <;> rfl
    have hcomma : tokenKind rest ≠ .comma := by
      rcases hr with hr | hr <;> rw [hr] <;> decide
    exact .loop (ite_yields rfl (.bind (parenName_yields ['x'] 1 rest errs hclose)
      (match_yields_false hcomma .pure))) fun _ _ => rfl
  have hlit : Complete nameTypes parenNameLit
      (.expr .base (.compoundLit none [.mk (.name ['x']) (.int ⟨1, .dec, .none⟩)]) .closed) :=
    fun rest errs _ _ r s' hloop => .direct (compoundLit_yields rfl hinitzers rfl) hloop
  have hexpr : YieldsAt nameTypes .expr ⟨parenNameLit ++ [], []⟩
      (.compoundLit none [.mk (.name ['x']) (.int ⟨1, .dec, .none⟩)]) ⟨[], []⟩ :=
    (Complete.of_base ⟨_, _, rfl, rfl⟩ hlit).at id rfl rfl
  obtain ⟨N, hN⟩ := yields_parseExpr hexpr
  exact ⟨N, fun n hn => hN n hn n hn⟩

/-- `x` is an expression in front of `::`, but not what is read of `x :: y`; and `{ (x) = 1 }` is
read, but nothing of it is an expression. -/
theorem not_parses_qualified_name :
    (Derives nameTypes [nameToken ['x']] (.expr .expr (.ident [['x']]) .name) ∧
      Level.expr.inner (tokenKind [plainToken .dblColon, nameToken ['y']]) = false ∧
      ¬ Parses nameTypes ⟨[nameToken ['x'], plainToken .dblColon, nameToken ['y']], []⟩
        (some (.ident [['x']])) ⟨[plainToken .dblColon, nameToken ['y']], []⟩) ∧
    (∃ e, Parses nameTypes ⟨parenNameLit, []⟩ (some e) ⟨[], []⟩) ∧
    ¬ ∃ w rest e, parenNameLit = w ++ rest ∧ IsExpr nameTypes w e rest := by
  refine ⟨⟨derives_nameToken .expr _, rfl, fun h => ?_⟩, ⟨_, parses_parenNameLit⟩, ?_⟩
  · have hqualified : IsExpr nameTypes [nameToken ['x'], plainToken .dblColon, nameToken ['y']]
        (.ident [['x'], ['y']]) [] :=
      ⟨.name, .of_base (.ident (.identCons rfl rfl (.identLast rfl))) .expr, nofun, rfl⟩
    have he := (h.unique (parses_of_isExpr hqualified [])).2
    cases he
  · rintro ⟨w, rest, e, hw, hexpr⟩
    have hall := (parses_parenNameLit.unique (hw ▸ parses_of_isExpr hexpr [])).2
    cases hall
    rw [List.append_nil] at hw
    obtain ⟨d, hd, -⟩ := hexpr
    refine (hd.assignsFollowNames nameTypes_words).bareNames ?_
    rw [← hw]
    decide

end Nibble.Front
