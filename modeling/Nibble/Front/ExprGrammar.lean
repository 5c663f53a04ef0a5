import Nibble.Front.ExprParser

/-!
# The expression grammar

The words of expressions, with their trees, as the comments of
`parser/exprs.c` give them. `Level` is the nonterminal of an expression. A word
of names or of a type may go on with tokens that no expression goes on with;
`End` is what a word ends in, and a call is the one place inside an expression
where it matters.
-/

namespace Nibble.Front

variable {τ : Type}

/-- The nonterminals `expr_base`, `expr_base_mod`, and so on to `expr`. -/
inductive Level where
  | base | mod | unary | mul | add | cmp | and | or | expr
  deriving DecidableEq, Repr

namespace Level

/-- The nonterminal of the operands. -/
def operand : Level → Level
  | base | mod => base
  | unary => mod
  | mul => unary
  | add => mul
  | cmp => add
  | and => cmp
  | or => and
  | expr => or

/-- The operators of a nonterminal of left-associative operators. -/
def binary : Level → Option TokenKindProp
  | mul => some .mul
  | add => some .add
  | cmp => some .cmp
  | and => some .and
  | or => some .or
  | _ => none

/-- The tokens behind which the loop of this nonterminal goes on. -/
def takes : Level → TokenKind → Bool
  | mod, k => isMod k
  | l, k => l.binary.any k.hasProp

/-- The tokens that may not follow: an operand would take them. -/
def inner : Level → TokenKind → Bool
  | base, _ | mod, _ => false
  | unary, k => mod.takes k
  | mul, k => mod.takes k
  | add, k => mod.takes k || mul.takes k
  | cmp, k => mod.takes k || mul.takes k || add.takes k
  | and, k => mod.takes k || mul.takes k || add.takes k || cmp.takes k
  | or, k => mod.takes k || mul.takes k || add.takes k || cmp.takes k || and.takes k
  | expr, k => mod.takes k || mul.takes k || add.takes k || cmp.takes k || and.takes k ||
    or.takes k || k = .question

end Level

/-- What a word ends in. -/
inductive End where
  | closed
  | name
  | type (w : List Token)

/-- The tokens that make the last part of a word longer. -/
def End.Continues (T : TypespecParser τ) : End → TokenKind → Prop
  | closed, _ => False
  | name, k => k = .dblColon
  | type w, k => T.continues w k

/-- The nonterminals, with their trees. -/
inductive Phrase (τ : Type) where
  | idents (ns : List (List Char))
  | expr (l : Level) (e : Expr τ) (d : End)
  | initzer (i : MemberInitializer τ)
  | initzers (is : List (MemberInitializer τ))
  | arg (a : ProcCallArg τ)
  | args (as : List (ProcCallArg τ))

/-- The literals of one token. -/
def literal? (t : Token) : Option (Expr τ) :=
  match t.kind with
  | .int => some (.int t.asInt)
  | .float => some (.float t.asFloat)
  | .str => some (.str t.asStr)
  | .kw =>
    match t.keyword? with
    | some .true => some (.boolLit true)
    | some .false => some (.boolLit false)
    | some .null => some .nullLit
    | _ => none
  | _ => none

/-- The keywords that a type in parentheses follows. -/
def typeKeyword? : Keyword → Option (τ → Expr τ)
  | .sizeof => some .sizeof
  | .typeid => some .typeid
  | _ => none

/-- The keywords that a type and the name of a field in parentheses follow. -/
def fieldKeyword? : Keyword → Option (τ → List Char → Expr τ)
  | .offsetof => some .offsetof
  | .indexof => some .indexof
  | _ => none

/-- The words of the grammar. -/
inductive Derives (T : TypespecParser τ) : List Token → Phrase τ → Prop
  | identLast {t} : t.kind = .ident → Derives T [t] (.idents [t.asIdent])
  | identCons {t c w ns} : t.kind = .ident → c.kind = .dblColon → Derives T w (.idents ns) →
    Derives T (t :: c :: w) (.idents (t.asIdent :: ns))
  | literal {t e} : literal? t = some e → Derives T [t] (.expr .base e .closed)
  | ident {w ns} : Derives T w (.idents ns) → Derives T w (.expr .base (.ident ns) .name)
  | paren {l w r e d} : l.kind = .lparen → Derives T w (.expr .expr e d) → r.kind = .rparen →
    Derives T (l :: (w ++ [r])) (.expr .base e .closed)
  | compoundLit {l w r is} : l.kind = .lbrace → Derives T w (.initzers is) → r.kind = .rbrace →
    Derives T (l :: (w ++ [r])) (.expr .base (.compoundLit none is) .closed)
  | compoundLitTyped {l w c u r is t} : l.kind = .lbrace → Derives T w (.initzers is) →
    c.kind = .colon → T.Derives u t → r.kind = .rbrace →
    Derives T (l :: (w ++ c :: (u ++ [r]))) (.expr .base (.compoundLit (some t) is) .closed)
  | keywordType {k kw mk l u r t} : k.kind = .kw → k.keyword? = some kw →
    typeKeyword? kw = some mk → l.kind = .lparen → T.Derives u t → r.kind = .rparen →
    Derives T (k :: l :: (u ++ [r])) (.expr .base (mk t) .closed)
  | keywordField {k kw mk l u c n r t} : k.kind = .kw → k.keyword? = some kw →
    fieldKeyword? kw = some mk → l.kind = .lparen → T.Derives u t → c.kind = .comma →
    n.kind = .ident → r.kind = .rparen →
    Derives T (k :: l :: (u ++ [c, n, r])) (.expr .base (mk t n.asIdent) .closed)
  | length {k l w r e d} : k.kind = .kw → k.keyword? = some .length → l.kind = .lparen →
    Derives T w (.expr .expr e d) → r.kind = .rparen →
    Derives T (k :: l :: (w ++ [r])) (.expr .base (.length e) .closed)
  | field {w o n e d} : Derives T w (.expr .mod e d) → o.kind = .dot → n.kind = .ident →
    Derives T (w ++ [o, n]) (.expr .mod (.field e n.asIdent) .closed)
  | fieldIndex {w o l u r e d i di} : Derives T w (.expr .mod e d) → o.kind = .dot →
    l.kind = .lbracket → Derives T u (.expr .expr i di) → r.kind = .rbracket →
    Derives T (w ++ o :: l :: (u ++ [r])) (.expr .mod (.fieldIndex e i) .closed)
  | index {w l u r e d i di} : Derives T w (.expr .mod e d) → l.kind = .lbracket →
    Derives T u (.expr .expr i di) → r.kind = .rbracket →
    Derives T (w ++ l :: (u ++ [r])) (.expr .mod (.index e i) .closed)
  | call {w l u r e d as} : Derives T w (.expr .mod e d) → ¬ d.Continues T .lparen →
    l.kind = .lparen → Derives T u (.args as) → r.kind = .rparen →
    Derives T (w ++ l :: (u ++ [r])) (.expr .mod (.call e as) .closed)
  | cast {w c u e d t} : Derives T w (.expr .mod e d) → c.kind = .cast → T.Derives u t →
    Derives T (w ++ c :: u) (.expr .mod (.cast t e) (.type u))
  | bitCast {w c u e d t} : Derives T w (.expr .mod e d) → c.kind = .bitCast → T.Derives u t →
    Derives T (w ++ c :: u) (.expr .mod (.bitCast t e) (.type u))
  | unary {o w e d} : o.kind.hasProp .unary = true → Derives T w (.expr .unary e d) →
    Derives T (o :: w) (.expr .unary (.unary o.kind e) d)
  | binary {l p w o u e₁ d₁ e₂ d₂} : l.binary = some p → Derives T w (.expr l e₁ d₁) →
    o.kind.hasProp p = true → Derives T u (.expr l.operand e₂ d₂) →
    Derives T (w ++ o :: u) (.expr l (.binary o.kind e₁ e₂) d₂)
  | ternary {w q u c v e₁ d₁ e₂ d₂ e₃ d₃} : Derives T w (.expr .or e₁ d₁) → q.kind = .question →
    Derives T u (.expr .expr e₂ d₂) → c.kind = .colon → Derives T v (.expr .expr e₃ d₃) →
    Derives T (w ++ q :: (u ++ c :: v)) (.expr .expr (.ternary e₁ e₂ e₃) d₃)
  | operand {l w e d} : l ≠ .base → Derives T w (.expr l.operand e d) → Derives T w (.expr l e d)
  | initzer {w e d} : Derives T w (.expr .expr e d) → Derives T w (.initzer (.mk .none e))
  | initzerName {n a w e d} : n.kind = .ident → a.kind = .assign → Derives T w (.expr .expr e d) →
    Derives T (n :: a :: w) (.initzer (.mk (.name n.asIdent) e))
  | initzerIndex {l u r a w i di e d} : l.kind = .lbracket → Derives T u (.expr .expr i di) →
    r.kind = .rbracket → a.kind = .assign → Derives T w (.expr .expr e d) →
    Derives T (l :: (u ++ r :: a :: w)) (.initzer (.mk (.index i) e))
  | initzersNil : Derives T [] (.initzers [])
  | initzersLast {w i} : Derives T w (.initzer i) → Derives T w (.initzers [i])
  | initzersCons {w c u i is} : Derives T w (.initzer i) → c.kind = .comma →
    Derives T u (.initzers is) → Derives T (w ++ c :: u) (.initzers (i :: is))
  | arg {w e d} : Derives T w (.expr .expr e d) → Derives T w (.arg (.mk none e))
  | argName {n a w e d} : n.kind = .ident → a.kind = .assign → Derives T w (.expr .expr e d) →
    Derives T (n :: a :: w) (.arg (.mk (some n.asIdent) e))
  | argsNil : Derives T [] (.args [])
  | argsLast {w a} : Derives T w (.arg a) → Derives T w (.args [a])
  | argsCons {w c u a as} : Derives T w (.arg a) → c.kind = .comma → Derives T u (.args as) →
    Derives T (w ++ c :: u) (.args (a :: as))

/-- `w` is an expression with tree `e`, and `rest` does not make it longer. -/
def IsExpr (T : TypespecParser τ) (w : List Token) (e : Expr τ) (rest : List Token) : Prop :=
  ∃ d, Derives T w (.expr .expr e d) ∧ ¬ d.Continues T (tokenKind rest) ∧
    Level.expr.inner (tokenKind rest) = false

/-! ### Facts about words -/

section

variable {T : TypespecParser τ} {w : List Token} {k : TokenKind} {d : End} {l : Level}

theorem inner_operand (hl : l ≠ .base) (h : l.inner k = false) :
    l.operand.inner k = false ∧ l.operand.takes k = false := by
  cases l <;> simp_all [Level.inner, Level.operand, Level.takes, Level.binary]

/-- The tokens that end an expression in brackets. -/
def closing (k : TokenKind) : Bool :=
  k = .comma || k = .colon || k = .rparen || k = .rbrace || k = .rbracket

theorem not_continues (h : k ≠ .dblColon ∧ k ≠ .arrow ∧ k ≠ .lparen) (d : End) :
    ¬ d.Continues T k := by
  cases d with
  | closed => exact id
  | name => exact h.1
  | type w =>
    intro hc
    rcases T.follow w k hc with rfl | rfl | rfl
    · exact h.1 rfl
    · exact h.2.1 rfl
    · exact h.2.2 rfl

theorem closing_stops (h : closing k = true) (d : End) :
    ¬ d.Continues T k ∧ Level.expr.inner k = false := by
  cases k <;> first
    | exact absurd h (by decide)
    | exact ⟨not_continues (by decide) d, by decide⟩

/-- The kinds of tokens that `expr_base` begins with. -/
def startsBase (k : TokenKind) : Bool :=
  [TokenKind.int, .float, .str, .lparen, .lbrace, .kw, .ident].contains k

/-- The first token of a word. -/
def HeadOk (w : List Token) : Phrase τ → Prop
  | .expr l _ _ => ∃ t ts, w = t :: ts ∧
    (startsBase t.kind = true ∨ l ≠ .base ∧ l ≠ .mod ∧ t.kind.hasProp .unary = true)
  | .initzer _ | .arg _ => ∃ t ts, w = t :: ts ∧
    (startsBase t.kind = true ∨ t.kind.hasProp .unary = true ∨ t.kind = .lbracket)
  | _ => True

theorem head_append {P : Token → Prop} {u v : List Token} (h : ∃ t ts, u = t :: ts ∧ P t) :
    ∃ t ts, u ++ v = t :: ts ∧ P t := by
  obtain ⟨t, ts, rfl, ht⟩ := h
  exact ⟨t, ts ++ v, rfl, ht⟩

theorem literal?_startsBase {t : Token} {e : Expr τ} (h : literal? t = some e) :
    startsBase t.kind = true := by
  unfold literal? at h
  split at h
  all_goals first
    | (cases h; done)
    | (simp only [*]; rfl)

theorem idents_head {ns : List (List Char)} (h : Derives T w (.idents ns)) :
    ∃ t ts, w = t :: ts ∧ t.kind = .ident := by
  cases h with
  | identLast ht => exact ⟨_, _, rfl, ht⟩
  | identCons ht _ _ => exact ⟨_, _, rfl, ht⟩

theorem Derives.head {ph : Phrase τ} (h : Derives T w ph) : HeadOk w ph := by
  induction h with
  | identLast | identCons | initzersNil | initzersLast | initzersCons | argsNil | argsLast
  | argsCons => trivial
  | literal ht => exact ⟨_, _, rfl, .inl (literal?_startsBase ht)⟩
  | ident h =>
    obtain ⟨t, ts, rfl, ht⟩ := idents_head h
    exact ⟨t, ts, rfl, .inl (by rw [ht]; rfl)⟩
  | paren hl | compoundLit hl | compoundLitTyped hl | keywordType hl | keywordField hl
  | length hl => exact ⟨_, _, rfl, .inl (by rw [hl]; rfl)⟩
  | field _ _ _ ih | fieldIndex _ _ _ _ _ ih | index _ _ _ _ ih | call _ _ _ _ _ ih
  | cast _ _ _ ih | bitCast _ _ _ ih => exact head_append ih
  | unary ho => exact ⟨_, _, rfl, .inr ⟨by decide, by decide, ho⟩⟩
  | binary _ _ _ _ ih => exact head_append ih
  | ternary _ _ _ _ _ ih =>
    obtain ⟨t, ts, rfl, ht⟩ := ih
    exact ⟨t, _, rfl, ht.imp_right fun h => ⟨by decide, by decide, h.2.2⟩⟩
  | @operand l w e d hl _ ih =>
    obtain ⟨t, ts, rfl, ht | ⟨h₁, h₂, ht⟩⟩ := ih
    · exact ⟨t, ts, rfl, .inl ht⟩
    · exact ⟨t, ts, rfl, .inr ⟨hl, by rintro rfl; exact h₁ rfl, ht⟩⟩
  | initzer _ ih | arg _ ih =>
    obtain ⟨t, ts, rfl, ht | ⟨-, -, ht⟩⟩ := ih
    · exact ⟨t, ts, rfl, .inl ht⟩
    · exact ⟨t, ts, rfl, .inr (.inl ht)⟩
  | initzerName hn | argName hn => exact ⟨_, _, rfl, .inl (by rw [hn]; rfl)⟩
  | initzerIndex hl => exact ⟨_, _, rfl, .inr (.inr hl)⟩

end

end Nibble.Front
