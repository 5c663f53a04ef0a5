import Nibble.Front.Token
import Nibble.Lib.Descent

/-!
# The expression parser

`parser/exprs.c` and what it uses of `parser/common.c`. The current token is
the head of the list, and the end of the list is `TKN_EOF`, which the lexer
gives forever. A procedure that returns `NULL` fails. Types are parsed by
`parse_typespec`, a parameter. Ranges are left out: nothing is decided by them.

`parse_expr` calls itself through its operands, so each procedure takes that
call as an argument and `parseExpr` ties the knot with fuel.
-/

namespace Nibble.Front

open Nibble.Lib (Input Parse)

/-! ### Keywords and operators -/

/-- The keywords that begin an expression. -/
inductive Keyword where
  | true | false | null | sizeof | typeid | offsetof | indexof | length
  deriving DecidableEq, Repr

/-- `keyword_names`. -/
def Keyword.name : Keyword → String
  | .true => "true"
  | .false => "false"
  | .null => "null"
  | .sizeof => "#sizeof"
  | .typeid => "#typeid"
  | .offsetof => "#offsetof"
  | .indexof => "#indexof"
  | .length => "#length"

inductive TokenKindProp where
  | ternary | or | and | cmp | add | mul | unary | assign
  deriving DecidableEq, Repr

/-- `token_kind_props`. -/
def tokenKindProps : TokenKind → List TokenKindProp
  | .question => [.ternary]
  | .logicOr => [.or]
  | .logicAnd => [.and]
  | .eq | .noteq | .gt | .gteq | .lt | .lteq => [.cmp]
  | .plus | .minus | .caret => [.add, .unary]
  | .or => [.add]
  | .asterisk => [.mul, .unary]
  | .div | .mod | .divmod | .and | .lshift | .rshift => [.mul]
  | .neg | .not => [.unary]
  | .assign | .addAssign | .subAssign | .mulAssign | .divAssign | .andAssign | .orAssign
  | .xorAssign | .modAssign | .rshiftAssign | .lshiftAssign => [.assign]
  | _ => []

/-- `is_token_prop_kind`, for the kind of the current token. -/
def TokenKind.hasProp (k : TokenKind) (p : TokenKindProp) : Bool := (tokenKindProps k).contains p

namespace Token

/-- `token.as_int`. -/
def asInt (t : Token) : TokenInt :=
  match t.value with
  | .asInt v => v
  | _ => ⟨0, .dec, .none⟩

/-- `token.as_float`. -/
def asFloat (t : Token) : TokenFloat :=
  match t.value with
  | .asFloat v => v
  | _ => ⟨.f64, 0⟩

/-- `token.as_str.str_lit`. -/
def asStr (t : Token) : List Char :=
  match t.value with
  | .asStr v => v
  | _ => []

/-- `token.as_ident.ident`. -/
def asIdent (t : Token) : List Char :=
  match t.value with
  | .asIdent v => v
  | _ => []

/-- `token.as_kw.ident->kw`, among the keywords of expressions. -/
def keyword? (t : Token) : Option Keyword :=
  match t.value with
  | .asKw v =>
    [.true, .false, .null, .sizeof, .typeid, .offsetof, .indexof, .length].find?
      fun kw : Keyword => kw.name.toList == v
  | _ => none

end Token

/-! ### Trees -/

variable {τ : Type}

mutual

/-- The expressions of `ast/module.h` that the parser builds, over the types of type expressions. -/
inductive Expr (τ : Type) where
  | int (v : TokenInt)
  | float (v : TokenFloat)
  | str (s : List Char)
  | boolLit (v : Bool)
  | nullLit
  | ident (idents : List (List Char))
  | compoundLit (typespec : Option τ) (initzers : List (MemberInitializer τ))
  | sizeof (typespec : τ)
  | typeid (typespec : τ)
  | offsetof (objTs : τ) (field : List Char)
  | indexof (objTs : τ) (field : List Char)
  | length (arg : Expr τ)
  | fieldIndex (object index : Expr τ)
  | field (object : Expr τ) (field : List Char)
  | index (array index : Expr τ)
  | call (proc : Expr τ) (args : List (ProcCallArg τ))
  | cast (typespec : τ) (expr : Expr τ)
  | bitCast (typespec : τ) (expr : Expr τ)
  | unary (op : TokenKind) (expr : Expr τ)
  | binary (op : TokenKind) (left right : Expr τ)
  | ternary (cond thenExpr elseExpr : Expr τ)

inductive MemberInitializer (τ : Type) where
  | mk (designator : Designator τ) (init : Expr τ)

inductive Designator (τ : Type) where
  | none
  | name (name : List Char)
  | index (index : Expr τ)

inductive ProcCallArg (τ : Type) where
  | mk (name : Option (List Char)) (expr : Expr τ)

end

/-! ### Tokens -/

inductive ErrorArg where
  | text (s : String)
  | kindName (k : TokenKind)
  | token (t : Option Token)
  deriving DecidableEq, Repr

/-- An error of the parser: the format of its text and what stands in it. -/
structure ParseError where
  format : String
  args : List ErrorArg
  deriving DecidableEq, Repr

abbrev ParserState := Input Token ParseError
abbrev Parser (α : Type) := Parse Token ParseError α

/-- The kind of the current token. -/
def tokenKind (toks : List Token) : TokenKind := (toks.head?.map Token.kind).getD .eof

/-- `is_token_kind`, `is_token_prop_kind` and the like. -/
def isToken (p : TokenKind → Bool) : Parser Bool := fun s => some (some (p (tokenKind s.toks)), s)

/-- `next_token`, with the token that it passes. -/
def nextToken : Parser (Option Token) := fun s =>
  some (some s.toks.head?, { s with toks := s.toks.tail })

/-- `match_token`. -/
def matchToken (kind : TokenKind) : Parser Bool := fun s =>
  match s.toks with
  | t :: ts =>
    if t.kind = kind then some (some true, { s with toks := ts }) else some (some false, s)
  | [] => some (some false, s)

/-- `parser_unexpected_token`. -/
def unexpectedToken (expected : TokenKind) (errorPrefix : Option String) (got : Option Token) :
    ParseError :=
  ⟨"%s: wanted token `%s`, but got token `%s`.",
    [.text (errorPrefix.getD "Unexpected token"), .kindName expected, .token got]⟩

/-- `expect_token`, with the token that it passes, `parser->ptoken`. -/
def expectToken (kind : TokenKind) (errorPrefix : Option String) : Parser Token := fun s =>
  match s.toks with
  | t :: ts =>
    if t.kind = kind then some (some t, { s with toks := ts })
    else Parse.reject (unexpectedToken kind errorPrefix (some t)) s
  | [] => Parse.reject (unexpectedToken kind errorPrefix none) s

/-- `parse_typespec`: the procedure, the types it accepts with their words, and the tokens that may
make such a word longer. It takes a type as far as it goes. -/
structure TypespecParser (τ : Type) where
  parse : ParserState → Option τ × ParserState
  Derives : List Token → τ → Prop
  continues : List Token → TokenKind → Prop
  errors : ∀ s, s.errors <+: (parse s).2.errors
  toks : ∀ s, (parse s).2.toks.length ≤ s.toks.length
  reports : ∀ s, (parse s).1 = none → (parse s).2.errors ≠ s.errors
  exact : ∀ s t rest, parse s = (some t, ⟨rest, s.errors⟩) ↔
    ∃ w, s.toks = w ++ rest ∧ Derives w t ∧ ¬ continues w (tokenKind rest)
  follow : ∀ w k, continues w k → k = .dblColon ∨ k = .arrow ∨ k = .lparen

/-! ### The procedures -/

section

variable (T : TypespecParser τ) (expr : Parser (Expr τ))

def parseTypespec : Parser τ := fun s => some (T.parse s)

/-- The loop of `parse_namespaced_ident`. -/
def namespacedIdentLoop (errPrefix : String) : Nat → List (List Char) → Parser (List (List Char))
  | 0, _ => Parse.outOfFuel
  | m + 1, idents => do
    let t ← expectToken .ident (some errPrefix)
    if ← matchToken .dblColon then namespacedIdentLoop errPrefix m (idents ++ [t.asIdent])
    else pure (idents ++ [t.asIdent])

/-- `parse_namespaced_ident`. -/
def parseNamespacedIdent (errPrefix : String) (m : Nat) : Parser (List (List Char)) :=
  namespacedIdentLoop errPrefix m []

/-- `parse_nonindex_member_initializer`. -/
def parseNonindexMemberInitializer : Parser (MemberInitializer τ) := do
  let e ← expr
  -- If we find a `=` token, then we mistakenly parsed a name as an expression.
  if ← matchToken .assign then
    match e with
    | .ident idents =>
      if idents.length > 1 then
        Parse.reject ⟨"Initializer designator name cannot be prefixed by a namespace.", []⟩
      else do
        let init ← expr
        pure (.mk (.name (idents.getLast?.getD [])) init)
    | _ => Parse.reject ⟨"Initializer designator name must be alphanumeric", []⟩
  else pure (.mk .none e)

/-- `parse_index_member_initializer`. -/
def parseIndexMemberInitializer : Parser (MemberInitializer τ) := do
  let errPrefix := some "Failed to parse indexed initializer expression"
  let _ ← expectToken .lbracket errPrefix
  let index ← expr
  let _ ← expectToken .rbracket errPrefix
  let _ ← expectToken .assign errPrefix
  let init ← expr
  pure (.mk (.index index) init)

/-- `parse_member_initializer`. -/
def parseMemberInitializer : Parser (MemberInitializer τ) := do
  if ← isToken (· = .lbracket) then parseIndexMemberInitializer expr
  else parseNonindexMemberInitializer expr

/-- The loop of `parse_expr_compound_lit`. -/
def initzerLoop : Nat → List (MemberInitializer τ) → Parser (List (MemberInitializer τ))
  | 0, _ => Parse.outOfFuel
  | m + 1, initzers => do
    if ← isToken fun k => k != .rbrace && k != .colon && k != .eof then
      let initzer ← parseMemberInitializer expr
      if ← matchToken .comma then initzerLoop m (initzers ++ [initzer])
      else pure (initzers ++ [initzer])
    else pure initzers

/-- `parse_expr_compound_lit`. -/
def parseExprCompoundLit (m : Nat) : Parser (Expr τ) := do
  let errorPrefix := some "Failed to parse compound literal expression"
  let _ ← expectToken .lbrace errorPrefix
  let initzers ← initzerLoop expr m []
  if ← matchToken .colon then
    let typespec ← parseTypespec T
    let _ ← expectToken .rbrace errorPrefix
    pure (.compoundLit (some typespec) initzers)
  else
    let _ ← expectToken .rbrace errorPrefix
    pure (.compoundLit none initzers)

/-- `parse_expr_sizeof` and `parse_expr_typeid`: a keyword and a type in parentheses. -/
def parseKeywordType (errorPrefix : String) (mk : τ → Expr τ) : Parser (Expr τ) := do
  let _ ← nextToken
  let _ ← expectToken .lparen (some errorPrefix)
  let typespec ← parseTypespec T
  let _ ← expectToken .rparen (some errorPrefix)
  pure (mk typespec)

def parseExprSizeof : Parser (Expr τ) :=
  parseKeywordType T "Failed to parse #sizeof expression" .sizeof

def parseExprTypeid : Parser (Expr τ) :=
  parseKeywordType T "Failed to parse #typeid expression" .typeid

/-- `parse_expr_offsetof` and `parse_expr_indexof`: a keyword, and a type and the name of a field in
parentheses. -/
def parseKeywordField (errPrefix : String) (mk : τ → List Char → Expr τ) : Parser (Expr τ) := do
  let _ ← nextToken
  let _ ← expectToken .lparen (some errPrefix)
  let objTs ← parseTypespec T
  let _ ← expectToken .comma (some errPrefix)
  let field ← expectToken .ident (some errPrefix)
  let _ ← expectToken .rparen (some errPrefix)
  pure (mk objTs field.asIdent)

def parseExprOffsetof : Parser (Expr τ) :=
  parseKeywordField T "Failed to parse #offsetof expression" .offsetof

def parseExprIndexof : Parser (Expr τ) :=
  parseKeywordField T "Failed to parse #indexof expression" .indexof

/-- `parse_expr_len`. -/
def parseExprLen : Parser (Expr τ) := do
  let errPrefix := some "Failed to parse #len expression"
  let _ ← nextToken
  let _ ← expectToken .lparen errPrefix
  let arg ← expr
  let _ ← expectToken .rparen errPrefix
  pure (.length arg)

/-- `parse_expr_ident`. -/
def parseExprIdent (m : Nat) : Parser (Expr τ) := do
  let nsIdent ← parseNamespacedIdent "Failed to parse expression identifier" m
  pure (.ident nsIdent)

/-- The literals of one token. -/
def parseLiteral (mk : Expr τ) : Parser (Expr τ) := do
  let _ ← nextToken
  pure mk

/-- The branch of `parse_expr_base` for a parenthesis. -/
def parseEnclosed : Parser (Expr τ) := do
  let _ ← nextToken
  let enclosed ← expr
  let _ ← expectToken .rparen none
  pure enclosed

/-- The error of `parse_expr_base`. -/
def unexpectedInExpr (t : Option Token) : ParseError :=
  ⟨"Unexpected token `%s` in expression", [.token t]⟩

/-- The branch of `parse_expr_base` for a token. -/
def parseExprBaseOf (m : Nat) : Option Token → Parser (Expr τ)
  | none => Parse.reject (unexpectedInExpr none)
  | some t =>
    match t.kind with
    | .int => parseLiteral (.int t.asInt)
    | .float => parseLiteral (.float t.asFloat)
    | .str => parseLiteral (.str t.asStr)
    | .lparen => parseEnclosed expr
    | .lbrace => parseExprCompoundLit T expr m
    | .kw =>
      match t.keyword? with
      | some .true => parseLiteral (.boolLit true)
      | some .false => parseLiteral (.boolLit false)
      | some .null => parseLiteral .nullLit
      | some .sizeof => parseExprSizeof T
      | some .typeid => parseExprTypeid T
      | some .offsetof => parseExprOffsetof T
      | some .indexof => parseExprIndexof T
      | some .length => parseExprLen expr
      | none => Parse.reject (unexpectedInExpr (some t))
    | .ident => parseExprIdent m
    | _ => Parse.reject (unexpectedInExpr (some t))

/-- `parse_expr_base`. -/
def parseExprBase (m : Nat) : Parser (Expr τ) := fun s => parseExprBaseOf T expr m s.toks.head? s

/-- `parse_proc_call_arg`. -/
def parseProcCallArg : Parser (ProcCallArg τ) := do
  let e ← expr
  if ← matchToken .assign then
    match e with
    | .ident idents =>
      if idents.length > 1 then
        Parse.reject ⟨"Argument's name cannot be prefixed by a namespace.", []⟩
      else do
        let arg ← expr
        pure (.mk (some (idents.getLast?.getD [])) arg)
    | _ => Parse.reject ⟨"Argument's name must be an alphanumeric identifier", []⟩
  else pure (.mk none e)

/-- The loop over the arguments of a call. -/
def argLoop : Nat → List (ProcCallArg τ) → Parser (List (ProcCallArg τ))
  | 0, _ => Parse.outOfFuel
  | m + 1, args => do
    if ← isToken fun k => k != .rparen && k != .eof then
      let arg ← parseProcCallArg expr
      if ← matchToken .comma then argLoop m (args ++ [arg]) else pure (args ++ [arg])
    else pure args

/-- The tokens behind which `parse_expr_base_mod` goes on. -/
def isMod (k : TokenKind) : Bool :=
  k = .dot || k = .lbracket || k = .lparen || k = .cast || k = .bitCast

/-- What follows a `.`. -/
def parseField (e : Expr τ) : Parser (Expr τ) := do
  if ← matchToken .lbracket then
    let index ← expr
    let _ ← expectToken .rbracket (some "Failed to parse indexed field access")
    pure (.fieldIndex e index)
  else
    let field ← expectToken .ident (some "Failed to parse field access")
    pure (.field e field.asIdent)

/-- What follows a `[`. -/
def parseIndex (e : Expr τ) : Parser (Expr τ) := do
  let index ← expr
  let _ ← expectToken .rbracket (some "Failed to parse array access")
  pure (.index e index)

/-- What follows the `(` of a call. -/
def parseCall (m : Nat) (e : Expr τ) : Parser (Expr τ) := do
  let args ← argLoop expr m []
  let _ ← expectToken .rparen (some "Failed to parse procedure call")
  pure (.call e args)

/-- One round of `parse_expr_base_mod`, behind a token of `isMod`. -/
def parseMod (m : Nat) (e : Expr τ) : Parser (Expr τ) := do
  if ← matchToken .dot then parseField expr e
  else if ← matchToken .lbracket then parseIndex expr e
  else if ← matchToken .lparen then parseCall expr m e
  else if ← matchToken .cast then
    let typespec ← parseTypespec T
    pure (.cast typespec e)
  else
    let _ ← matchToken .bitCast
    let typespec ← parseTypespec T
    pure (.bitCast typespec e)

/-- The loop of `parse_expr_base_mod`. -/
def baseModLoop : Nat → Expr τ → Parser (Expr τ)
  | 0, _ => Parse.outOfFuel
  | m + 1, e => do
    if ← isToken isMod then
      let e' ← parseMod T expr m e
      baseModLoop m e'
    else pure e

/-- `parse_expr_base_mod`. -/
def parseExprBaseMod (m : Nat) : Parser (Expr τ) := do
  let e ← parseExprBase T expr m
  baseModLoop T expr m e

/-- `parse_expr_unary`. -/
def parseExprUnary : Nat → Parser (Expr τ)
  | 0 => Parse.outOfFuel
  | m + 1 => do
    if ← isToken (·.hasProp .unary) then
      let op ← nextToken
      let e ← parseExprUnary m
      pure (.unary (tokenKind op.toList) e)
    else parseExprBaseMod T expr m

/-- The loop of a left-associative binary operator. -/
def binaryLoop (prop : TokenKindProp) (operand : Nat → Parser (Expr τ)) :
    Nat → Expr τ → Parser (Expr τ)
  | 0, _ => Parse.outOfFuel
  | m + 1, left => do
    if ← isToken (·.hasProp prop) then
      let op ← nextToken
      let right ← operand m
      binaryLoop prop operand m (.binary (tokenKind op.toList) left right)
    else pure left

/-- An operand and the loop that follows it. -/
def parseBinary (prop : TokenKindProp) (operand : Nat → Parser (Expr τ)) (m : Nat) :
    Parser (Expr τ) := do
  let e ← operand m
  binaryLoop prop operand m e

def parseExprMul : Nat → Parser (Expr τ) := parseBinary .mul (parseExprUnary T expr)

def parseExprAdd : Nat → Parser (Expr τ) := parseBinary .add (parseExprMul T expr)

def parseExprCmp : Nat → Parser (Expr τ) := parseBinary .cmp (parseExprAdd T expr)

/-- `parse_expr_and`. The tokens with the property are those of kind `TKN_LOGIC_AND`. -/
def parseExprAnd : Nat → Parser (Expr τ) := parseBinary .and (parseExprCmp T expr)

/-- `parse_expr_or`. The tokens with the property are those of kind `TKN_LOGIC_OR`. -/
def parseExprOr : Nat → Parser (Expr τ) := parseBinary .or (parseExprAnd T expr)

/-- `parse_expr_ternary`. Behind a condition a failure leaves the condition as the result. -/
def parseExprTernary : Nat → Parser (Expr τ)
  | 0 => Parse.outOfFuel
  | m + 1 => do
    let e ← parseExprOr T expr m
    if ← matchToken .question then
      match ← Parse.attempt (parseExprTernary m) with
      | none => pure e
      | some thenExpr =>
        let errorPrefix := some "Failed to parse ternary operator expression"
        match ← Parse.attempt (expectToken .colon errorPrefix) with
        | none => pure e
        | some _ =>
          match ← Parse.attempt (parseExprTernary m) with
          | none => pure e
          | some elseExpr => pure (.ternary e thenExpr elseExpr)
    else pure e

/-- `parse_expr`. -/
def parseExpr : Nat → Parser (Expr τ)
  | 0 => Parse.outOfFuel
  | n + 1 => parseExprTernary T (parseExpr n) n

end

end Nibble.Front
