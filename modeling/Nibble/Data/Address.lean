import Nibble.Data.Image

/-!
# Addresses in initial values

The constant that is emitted with 32-bit displacements is the one with 64-bit
displacements, each cut to its low half. The entities it refers to are those
that the initializer mentions, and only variables and string literals have a
displacement.
-/

namespace Nibble.Data

open Nibble.IR (SymId)
open Nibble.X64 (ConstAddr SymKind)
open Nibble.Ast (TypeAggregateField)

/-- Induction over an initializer with its members as a whole. -/
theorem GlobalExpr.induction {P : GlobalExpr → Prop} (imm : ∀ t v, P (.imm t v))
    (ident : ∀ t s, P (.ident t s)) (cast : ∀ t e, P e → P (.cast t e))
    (addrOf : ∀ t e, P e → P (.addrOf t e))
    (ternary : ∀ c e₁ e₂, P e₁ → P e₂ → P (.ternary c e₁ e₂))
    (plus : ∀ l r, P l → P r → P (.plus l r)) (minus : ∀ l r, P l → P r → P (.minus l r))
    (arrayLit : ∀ t ts is, (∀ p ∈ is, P p.2) → P (.arrayLit t ts is))
    (structLit : ∀ t ts is, (∀ p ∈ is, P p.2) → P (.structLit t ts is))
    (unionLit : ∀ t ts is, (∀ p ∈ is, P p.2) → P (.unionLit t ts is))
    (str : ∀ t id s, P (.str t id s)) (other : ∀ k, P (.other k)) (e : GlobalExpr) : P e :=
  @GlobalExpr.rec P (fun is => ∀ p ∈ is, P p.2) (fun p => P p.2) imm ident cast addrOf ternary plus
    minus arrayLit structLit unionLit str other (by simp)
    (fun _ _ h ht p hp => by
      rcases List.mem_cons.mp hp with rfl | hp
      · exact h
      · exact ht p hp) (fun _ _ h => h) e

/-! ## Cutting the displacement -/

def DataAddr.trunc (a : DataAddr 64) : DataAddr 32 := ⟨a.entity, a.disp.setWidth 32⟩

mutual

def ConstExpr.trunc : ConstExpr 64 → ConstExpr 32
  | .none t => .none t
  | .imm t v => .imm t v
  | .memAddr t a => .memAddr t a.trunc
  | .derefAddr t a => .derefAddr t a.trunc
  | .arrayInit t is => .arrayInit t (truncMembers is)
  | .structInit t is => .structInit t (truncMembers is)
  | .unionInit t is => .unionInit t (truncMembers is)
  | .var t s => .var t s
  | .proc t s => .proc t s
  | .strLit t id s => .strLit t id s
  | .floatLit t k v => .floatLit t k v

def truncMembers : List (Nat × ConstExpr 64) → List (Nat × ConstExpr 32)
  | [] => []
  | (i, e) :: rest => (i, e.trunc) :: truncMembers rest

end

@[simp] theorem ConstExpr.trunc_type (e : ConstExpr 64) : e.trunc.type = e.type := by
  cases e <;> rfl

theorem truncMembers_eq (l : List (Nat × ConstExpr 64)) :
    truncMembers l = l.map fun p => (p.1, p.2.trunc) := by
  induction l with
  | nil => rfl
  | cons p l ih => simp [truncMembers, ih]

theorem trunc_add (d s : BitVec 64) :
    ((d.setWidth 32).setWidth 64 + s).setWidth 32 = (d + s).setWidth 32 := by
  apply BitVec.eq_of_toNat_eq
  simp only [BitVec.toNat_setWidth, BitVec.toNat_add]
  omega

theorem trunc_sub (d s : BitVec 64) :
    ((d.setWidth 32).setWidth 64 - s).setWidth 32 = (d - s).setWidth 32 := by
  apply BitVec.eq_of_toNat_eq
  simp only [BitVec.toNat_setWidth, BitVec.toNat_sub]
  omega

theorem emitGlobalExprCast_trunc (t : DataType) (src : ConstExpr 64) :
    emitGlobalExprCast t src.trunc = (emitGlobalExprCast t src).map ConstExpr.trunc := by
  unfold emitGlobalExprCast
  rw [ConstExpr.trunc_type]
  split
  · cases src <;> rfl
  · rfl

theorem emitGlobalExprUnary_trunc (t : DataType) (src : ConstExpr 64) :
    emitGlobalExprUnary t src.trunc = (emitGlobalExprUnary t src).map ConstExpr.trunc := by
  cases src <;> rfl

theorem emitGlobalPtrIntAdd_trunc (add : Bool) (l r : ConstExpr 64) :
    emitGlobalPtrIntAdd add l.trunc r.trunc =
      (emitGlobalPtrIntAdd add l r).map ConstExpr.trunc := by
  cases l with
  | memAddr t a =>
    cases t with
    | ptr n =>
      cases r with
      | imm t' v =>
        simp only [ConstExpr.trunc, emitGlobalPtrIntAdd, Option.map_some, DataAddr.trunc,
          BitVec.setWidth_eq]
        cases add with
        | true => simp only [if_true, trunc_add]
        | false => simp only [Bool.false_eq_true, if_false, trunc_sub]
      | _ => rfl
    | _ => cases r <;> rfl
  | _ => cases r <;> rfl

section

variable {symKind : SymId → SymKind}

theorem emitArrayInitzers_trunc {is : List (Designator × GlobalExpr)}
    (h : ∀ p ∈ is, emitGlobalExpr 32 symKind p.2 =
      (emitGlobalExpr 64 symKind p.2).map ConstExpr.trunc) (i : BitVec 64) :
    emitArrayInitzers 32 symKind is i = (emitArrayInitzers 64 symKind is i).map truncMembers := by
  induction is generalizing i with
  | nil => rfl
  | cons p is ih =>
    obtain ⟨d, e⟩ := p
    have he := h _ List.mem_cons_self
    have hrest := fun i => ih (fun p hp => h p (List.mem_cons_of_mem _ hp)) i
    simp only [emitArrayInitzers, hrest]
    rw [he]
    cases arrayElem i d with
    | none => rfl
    | some j =>
      cases emitGlobalExpr 64 symKind e with
      | none => rfl
      | some c =>
        simp only [Option.bind_eq_bind, Option.bind_some, Option.map_some]
        cases emitArrayInitzers 64 symKind is (j + 1) <;> rfl

theorem emitStructInitzers_trunc {fields : List (TypeAggregateField DataType)}
    {is : List (Designator × GlobalExpr)}
    (h : ∀ p ∈ is, emitGlobalExpr 32 symKind p.2 =
      (emitGlobalExpr 64 symKind p.2).map ConstExpr.trunc) (i : Nat) :
    emitStructInitzers 32 symKind fields is i =
      (emitStructInitzers 64 symKind fields is i).map truncMembers := by
  induction is generalizing i with
  | nil => rfl
  | cons p is ih =>
    obtain ⟨d, e⟩ := p
    have he := h _ List.mem_cons_self
    have hrest := fun i => ih (fun p hp => h p (List.mem_cons_of_mem _ hp)) i
    simp only [emitStructInitzers, hrest]
    rw [he]
    cases structField fields i d with
    | none => rfl
    | some j =>
      cases emitGlobalExpr 64 symKind e with
      | none => rfl
      | some c =>
        simp only [Option.bind_eq_bind, Option.bind_some, Option.map_some]
        cases emitStructInitzers 64 symKind fields is j.2 <;> rfl

theorem emitUnionInitzer_trunc {fields : List (TypeAggregateField DataType)}
    {is : List (Designator × GlobalExpr)}
    (h : ∀ p ∈ is, emitGlobalExpr 32 symKind p.2 =
      (emitGlobalExpr 64 symKind p.2).map ConstExpr.trunc) :
    emitUnionInitzer 32 symKind fields is =
      (emitUnionInitzer 64 symKind fields is).map truncMembers := by
  cases is with
  | nil => rfl
  | cons p is =>
    obtain ⟨d, e⟩ := p
    have he := h _ List.mem_cons_self
    simp only [emitUnionInitzer]
    rw [he]
    cases unionField fields d with
    | none => rfl
    | some j => cases emitGlobalExpr 64 symKind e <;> rfl

/-- The code's constant is the one with 64-bit displacements, cut. -/
theorem emitGlobalExpr_trunc (e : GlobalExpr) :
    emitGlobalExpr 32 symKind e = (emitGlobalExpr 64 symKind e).map ConstExpr.trunc := by
  induction e using GlobalExpr.induction with
  | imm t v => cases t <;> rfl
  | ident t s =>
    simp only [emitGlobalExpr, constExprFromSym, Option.map_some]
    cases symKind s <;> rfl
  | cast t e ih =>
    simp only [emitGlobalExpr, ih]
    cases emitGlobalExpr 64 symKind e with
    | none => rfl
    | some c => exact emitGlobalExprCast_trunc t c
  | addrOf t e ih =>
    simp only [emitGlobalExpr, ih]
    cases emitGlobalExpr 64 symKind e with
    | none => rfl
    | some c => exact emitGlobalExprUnary_trunc t c
  | ternary c e₁ e₂ ih₁ ih₂ =>
    simp only [emitGlobalExpr, ih₁, ih₂]
    cases c with
    | none => rfl
    | some c => simp only [apply_ite (Option.map ConstExpr.trunc)]
  | plus l r ihl ihr =>
    simp only [emitGlobalExpr, ihl, ihr]
    cases emitGlobalExpr 64 symKind l with
    | none => rfl
    | some cl =>
      cases emitGlobalExpr 64 symKind r with
      | none => rfl
      | some cr =>
        simp only [Option.map_some, Option.bind_eq_bind, Option.bind_some, ConstExpr.trunc_type]
        split
        · exact emitGlobalPtrIntAdd_trunc true cl cr
        · exact emitGlobalPtrIntAdd_trunc true cr cl
  | minus l r ihl ihr =>
    simp only [emitGlobalExpr, ihl, ihr]
    cases emitGlobalExpr 64 symKind l with
    | none => rfl
    | some cl =>
      cases emitGlobalExpr 64 symKind r with
      | none => rfl
      | some cr => exact emitGlobalPtrIntAdd_trunc false cl cr
  | arrayLit t ts is ih =>
    simp only [emitGlobalExpr, emitArrayInitzers_trunc ih]
    split
    · simp only [Option.map_map]
      rfl
    · rfl
  | structLit t ts is ih =>
    simp only [emitGlobalExpr]
    cases t with
    | struct fields size align =>
      cases ts with
      | true => rfl
      | false =>
        simp only [emitStructInitzers_trunc ih, Bool.false_eq_true, if_false, Option.map_map]
        rfl
    | _ => rfl
  | unionLit t ts is ih =>
    simp only [emitGlobalExpr]
    cases t with
    | union fields size align =>
      cases ts with
      | true => rfl
      | false =>
        simp only [emitUnionInitzer_trunc ih, Bool.false_eq_true, if_false, Option.map_map]
        rfl
    | _ => rfl
  | str t id s => rfl
  | other k => rfl

theorem buildVar_trunc (v : GlobalVar) :
    buildVar 32 symKind v = (buildVar 64 symKind v).map ConstExpr.trunc := by
  unfold buildVar
  cases v.init with
  | none => rfl
  | some e => exact emitGlobalExpr_trunc e

end

theorem initVals_truncMembers (l : List (Nat × ConstExpr 64)) (i : Nat) :
    initVals (truncMembers l) i = (initVals l i).map ConstExpr.trunc := by
  rw [truncMembers_eq, initVals_map]

theorem ConstExpr.SlotAt.trunc {e : ConstExpr 64} {o : Nat} {a : DataAddr 64} (h : e.SlotAt o a) :
    e.trunc.SlotAt o a.trunc := by
  induction h with
  | memAddr => exact .memAddr
  | proc => exact .proc
  | elem hi he _ ih => exact .elem hi (by rw [initVals_truncMembers, he]; rfl) ih
  | field hf he _ ih => exact .field hf (by rw [initVals_truncMembers, he]; rfl) ih
  | unionField _ ih => exact .unionField ih

/-- The addresses of the code's constant are cut ones. -/
theorem ConstExpr.SlotAt.of_trunc {e : ConstExpr 64} {o : Nat} {a : DataAddr 32}
    (h : e.trunc.SlotAt o a) : ∃ a', e.SlotAt o a' ∧ a = a'.trunc := by
  generalize hc : e.trunc = c at h
  induction h generalizing e with
  | memAddr =>
    cases e <;> cases hc
    exact ⟨_, .memAddr, rfl⟩
  | proc =>
    cases e <;> cases hc
    exact ⟨_, .proc, rfl⟩
  | elem hi he _ ih =>
    cases e <;> cases hc
    rw [initVals_truncMembers] at he
    obtain ⟨e', he', rfl⟩ := Option.map_eq_some_iff.mp he
    obtain ⟨a', ha', rfl⟩ := ih rfl
    exact ⟨a', .elem hi he' ha', rfl⟩
  | field hf he _ ih =>
    cases e <;> cases hc
    rw [initVals_truncMembers] at he
    obtain ⟨e', he', rfl⟩ := Option.map_eq_some_iff.mp he
    obtain ⟨a', ha', rfl⟩ := ih rfl
    exact ⟨a', .field hf he' ha', rfl⟩
  | unionField _ ih =>
    cases e <;> try cases hc
    rename_i is
    rw [ConstExpr.trunc, truncMembers_eq] at hc
    obtain ⟨rfl, hl⟩ := ConstExpr.unionInit.inj hc
    obtain ⟨p, rfl, hp⟩ := List.map_eq_singleton_iff.mp hl
    cases hp
    obtain ⟨a', ha', rfl⟩ := ih rfl
    exact ⟨a', .unionField ha', rfl⟩

theorem ConstExpr.Typed.trunc {e : ConstExpr 64} (h : e.Typed) : e.trunc.Typed := by
  have hmem : ∀ {l : List (Nat × ConstExpr 64)} {Q : Nat × ConstExpr 32 → Prop},
      (∀ p ∈ l, Q (p.1, p.2.trunc)) → ∀ p ∈ truncMembers l, Q p := by
    intro l Q hl p hp
    rw [truncMembers_eq] at hp
    obtain ⟨q, hq, rfl⟩ := List.mem_map.mp hp
    exact hl q hq
  induction h with
  | none h => exact .none h
  | int h => exact .int h
  | ptr => exact .ptr
  | procImm => exact .procImm
  | memAddr => exact .memAddr
  | strLit => exact .strLit
  | floatLit => exact .floatLit
  | proc => exact .proc
  | arrayInit hl ht _ ih =>
    exact .arrayInit hl (hmem fun p hp => by rw [trunc_type]; exact ht p hp) (hmem ih)
  | structInit hl ht _ ih =>
    exact .structInit hl (hmem fun p hp => by rw [trunc_type]; exact ht p hp) (hmem ih)
  | unionZero hl => exact .unionZero hl
  | unionInit hl hf ht _ ih => exact .unionInit hl hf (by rw [trunc_type]; exact ht) ih

/-! ## The entities -/

/-- The initializer mentions an entity. -/
inductive GlobalExpr.Mentions : GlobalExpr → ConstAddr → Prop
  | ident {t : DataType} {s : SymId} : Mentions (.ident t s) (.sym s)
  | str {t : DataType} {id : Nat} {s : List UInt8} : Mentions (.str t id s) (.strLit id)
  | cast {t : DataType} {e : GlobalExpr} {a : ConstAddr} : Mentions e a → Mentions (.cast t e) a
  | addrOf {t : DataType} {e : GlobalExpr} {a : ConstAddr} : Mentions e a → Mentions (.addrOf t e) a
  | thenExpr {c : Option (BitVec 64)} {e₁ e₂ : GlobalExpr} {a : ConstAddr} : Mentions e₁ a →
    Mentions (.ternary c e₁ e₂) a
  | elseExpr {c : Option (BitVec 64)} {e₁ e₂ : GlobalExpr} {a : ConstAddr} : Mentions e₂ a →
    Mentions (.ternary c e₁ e₂) a
  | plusLeft {l r : GlobalExpr} {a : ConstAddr} : Mentions l a → Mentions (.plus l r) a
  | plusRight {l r : GlobalExpr} {a : ConstAddr} : Mentions r a → Mentions (.plus l r) a
  | minus {l r : GlobalExpr} {a : ConstAddr} : Mentions l a → Mentions (.minus l r) a
  | arrayLit {t : DataType} {ts : Bool} {is : List (Designator × GlobalExpr)}
    {p : Designator × GlobalExpr} {a : ConstAddr} : p ∈ is → Mentions p.2 a →
      Mentions (.arrayLit t ts is) a
  | structLit {t : DataType} {ts : Bool} {is : List (Designator × GlobalExpr)}
    {p : Designator × GlobalExpr} {a : ConstAddr} : p ∈ is → Mentions p.2 a →
      Mentions (.structLit t ts is) a
  | unionLit {t : DataType} {ts : Bool} {is : List (Designator × GlobalExpr)}
    {p : Designator × GlobalExpr} {a : ConstAddr} : p ∈ is → Mentions p.2 a →
      Mentions (.unionLit t ts is) a

section

variable {w : Nat} (symKind : SymId → SymKind) (M : ConstAddr → Prop)

/-- What an address in memory may be relative to. -/
def AddrOk : ConstAddr → Prop
  | .sym s => M (.sym s) ∧ symKind s = .var
  | .strLit i => M (.strLit i)
  | .floatLit _ => False

/-- The constant refers to entities of `M` only. -/
inductive ConstExpr.Refers : ConstExpr w → Prop
  | none {t : DataType} : Refers (.none t)
  | imm {t : DataType} {v : BitVec 64} : Refers (.imm t v)
  | memAddr {t : DataType} {a : DataAddr w} : AddrOk symKind M a.entity → Refers (.memAddr t a)
  | arrayInit {t : DataType} {l : List (Nat × ConstExpr w)} : (∀ p ∈ l, Refers p.2) →
    Refers (.arrayInit t l)
  | structInit {t : DataType} {l : List (Nat × ConstExpr w)} : (∀ p ∈ l, Refers p.2) →
    Refers (.structInit t l)
  | unionInit {t : DataType} {l : List (Nat × ConstExpr w)} : (∀ p ∈ l, Refers p.2) →
    Refers (.unionInit t l)
  | var {t : DataType} {s : SymId} : M (.sym s) → symKind s = .var → Refers (.var t s)
  | proc {t : DataType} {s : SymId} : M (.sym s) → symKind s ≠ .var → Refers (.proc t s)
  | strLit {t : DataType} {id : Nat} {s : List UInt8} : M (.strLit id) → Refers (.strLit t id s)
  | floatLit {t : DataType} {k : FloatKind} {v : BitVec 64} : Refers (.floatLit t k v)

end

section

variable {w : Nat} {symKind : SymId → SymKind} {M N : ConstAddr → Prop}

theorem AddrOk.mono (hMN : ∀ a, M a → N a) {a : ConstAddr} (h : AddrOk symKind M a) :
    AddrOk symKind N a := by
  cases a with
  | sym s => exact ⟨hMN _ h.1, h.2⟩
  | strLit i => exact hMN _ h
  | floatLit i => exact h

theorem ConstExpr.Refers.mono (hMN : ∀ a, M a → N a) {c : ConstExpr w}
    (h : c.Refers symKind M) : c.Refers symKind N := by
  induction h with
  | none => exact .none
  | imm => exact .imm
  | memAddr h => exact .memAddr (h.mono hMN)
  | arrayInit _ ih => exact .arrayInit ih
  | structInit _ ih => exact .structInit ih
  | unionInit _ ih => exact .unionInit ih
  | var h hk => exact .var (hMN _ h) hk
  | proc h hk => exact .proc (hMN _ h) hk
  | strLit h => exact .strLit (hMN _ h)
  | floatLit => exact .floatLit

theorem emitGlobalExprCast_refers {t : DataType} {src c : ConstExpr w}
    (hsrc : src.Refers symKind M) (h : emitGlobalExprCast t src = some c) :
    c.Refers symKind M := by
  unfold emitGlobalExprCast at h
  split at h
  · cases hsrc with
    | var hs hk =>
      cases h
      exact .memAddr ⟨hs, hk⟩
    | strLit hs =>
      cases h
      exact .memAddr hs
    | _ => cases h
  · cases h

theorem emitGlobalExprUnary_refers {t : DataType} {src c : ConstExpr w}
    (hsrc : src.Refers symKind M) (h : emitGlobalExprUnary t src = some c) :
    c.Refers symKind M := by
  cases hsrc with
  | var hs hk =>
    cases h
    exact .memAddr ⟨hs, hk⟩
  | _ => cases h

theorem emitGlobalPtrIntAdd_refers {add : Bool} {l r c : ConstExpr w}
    (hl : l.Refers symKind M) (h : emitGlobalPtrIntAdd add l r = some c) :
    c.Refers symKind M := by
  unfold emitGlobalPtrIntAdd at h
  split at h
  · cases h
    cases hl with
    | memAddr ha => exact .memAddr ha
  · cases h

theorem emitArrayInitzers_refers {is : List (Designator × GlobalExpr)}
    (his : ∀ p ∈ is, ∀ c : ConstExpr w, emitGlobalExpr w symKind p.2 = some c →
      c.Refers symKind M) {i : BitVec 64} {l : List (Nat × ConstExpr w)}
    (h : emitArrayInitzers w symKind is i = some l) : ∀ p ∈ l, p.2.Refers symKind M := by
  induction is generalizing i l with
  | nil =>
    cases h
    simp
  | cons p is ih =>
    obtain ⟨d, e⟩ := p
    simp only [emitArrayInitzers, Option.bind_eq_bind, Option.bind_eq_some_iff] at h
    obtain ⟨j, -, c, hc, l', hl', h⟩ := h
    cases h
    refine List.forall_mem_cons.mpr ⟨his _ List.mem_cons_self c hc, ?_⟩
    exact ih (fun p hp => his p (List.mem_cons_of_mem _ hp)) hl'

theorem emitStructInitzers_refers {fields : List (TypeAggregateField DataType)}
    {is : List (Designator × GlobalExpr)}
    (his : ∀ p ∈ is, ∀ c : ConstExpr w, emitGlobalExpr w symKind p.2 = some c →
      c.Refers symKind M) {i : Nat} {l : List (Nat × ConstExpr w)}
    (h : emitStructInitzers w symKind fields is i = some l) : ∀ p ∈ l, p.2.Refers symKind M := by
  induction is generalizing i l with
  | nil =>
    cases h
    simp
  | cons p is ih =>
    obtain ⟨d, e⟩ := p
    simp only [emitStructInitzers, Option.bind_eq_bind, Option.bind_eq_some_iff] at h
    obtain ⟨j, -, c, hc, l', hl', h⟩ := h
    cases h
    refine List.forall_mem_cons.mpr ⟨his _ List.mem_cons_self c hc, ?_⟩
    exact ih (fun p hp => his p (List.mem_cons_of_mem _ hp)) hl'

theorem emitUnionInitzer_refers {fields : List (TypeAggregateField DataType)}
    {is : List (Designator × GlobalExpr)}
    (his : ∀ p ∈ is, ∀ c : ConstExpr w, emitGlobalExpr w symKind p.2 = some c →
      c.Refers symKind M) {l : List (Nat × ConstExpr w)}
    (h : emitUnionInitzer w symKind fields is = some l) : ∀ p ∈ l, p.2.Refers symKind M := by
  cases is with
  | nil =>
    cases h
    simp
  | cons p is =>
    obtain ⟨d, e⟩ := p
    simp only [emitUnionInitzer, Option.bind_eq_bind, Option.bind_eq_some_iff] at h
    obtain ⟨j, -, c, hc, h⟩ := h
    cases h
    intro p hp
    obtain rfl := List.mem_singleton.mp hp
    exact his _ List.mem_cons_self c hc

/-- A constant refers to what its initializer mentions. -/
theorem emitGlobalExpr_refers (e : GlobalExpr) : ∀ {c : ConstExpr w},
    emitGlobalExpr w symKind e = some c → c.Refers symKind e.Mentions := by
  induction e using GlobalExpr.induction with
  | imm t v =>
    intro c h
    cases t <;> cases h <;> first | exact .imm | exact .floatLit
  | ident t s =>
    intro c h
    cases hk : symKind s <;> simp only [emitGlobalExpr, constExprFromSym, hk] at h <;> cases h
    · exact .var .ident hk
    all_goals exact .proc .ident (by simp [hk])
  | cast t e ih =>
    intro c h
    simp only [emitGlobalExpr, Option.bind_eq_bind, Option.bind_eq_some_iff] at h
    obtain ⟨src, hsrc, h⟩ := h
    exact (emitGlobalExprCast_refers (ih hsrc) h).mono fun _ => .cast
  | addrOf t e ih =>
    intro c h
    simp only [emitGlobalExpr, Option.bind_eq_bind, Option.bind_eq_some_iff] at h
    obtain ⟨src, hsrc, h⟩ := h
    exact (emitGlobalExprUnary_refers (ih hsrc) h).mono fun _ => .addrOf
  | ternary cond e₁ e₂ ih₁ ih₂ =>
    intro c h
    cases cond with
    | none => exact (ih₁ h).mono fun _ => .thenExpr
    | some v =>
      simp only [emitGlobalExpr] at h
      split at h
      · exact (ih₁ h).mono fun _ => .thenExpr
      · exact (ih₂ h).mono fun _ => .elseExpr
  | plus l r ihl ihr =>
    intro c h
    simp only [emitGlobalExpr, Option.bind_eq_bind, Option.bind_eq_some_iff] at h
    obtain ⟨cl, hl, cr, hr, h⟩ := h
    split at h
    · exact (emitGlobalPtrIntAdd_refers (ihl hl) h).mono fun _ => .plusLeft
    · exact (emitGlobalPtrIntAdd_refers (ihr hr) h).mono fun _ => .plusRight
  | minus l r ihl ihr =>
    intro c h
    simp only [emitGlobalExpr, Option.bind_eq_bind, Option.bind_eq_some_iff] at h
    obtain ⟨cl, hl, cr, hr, h⟩ := h
    exact (emitGlobalPtrIntAdd_refers (ihl hl) h).mono fun _ => .minus
  | arrayLit t ts is ih =>
    intro c h
    simp only [emitGlobalExpr] at h
    split at h
    · obtain ⟨l, hl, rfl⟩ := Option.map_eq_some_iff.mp h
      refine .arrayInit (emitArrayInitzers_refers (fun p hp c hc => ?_) hl)
      exact (ih p hp hc).mono fun _ => .arrayLit hp
    · cases h
  | structLit t ts is ih =>
    intro c h
    simp only [emitGlobalExpr] at h
    split at h
    · split at h
      · cases h
      · obtain ⟨l, hl, rfl⟩ := Option.map_eq_some_iff.mp h
        refine .structInit (emitStructInitzers_refers (fun p hp c hc => ?_) hl)
        exact (ih p hp hc).mono fun _ => .structLit hp
    · cases h
  | unionLit t ts is ih =>
    intro c h
    simp only [emitGlobalExpr] at h
    split at h
    · split at h
      · cases h
      · obtain ⟨l, hl, rfl⟩ := Option.map_eq_some_iff.mp h
        refine .unionInit (emitUnionInitzer_refers (fun p hp c hc => ?_) hl)
        exact (ih p hp hc).mono fun _ => .unionLit hp
    · cases h
  | str t id s =>
    intro c h
    cases h
    exact .strLit .str
  | other k =>
    intro c h
    cases h

/-- An address is relative to a variable or a literal, or is a procedure's. -/
theorem ConstExpr.Refers.slot {c : ConstExpr w} (h : c.Refers symKind M) {o : Nat} {a : DataAddr w}
    (ha : c.SlotAt o a) : AddrOk symKind M a.entity ∨
      ∃ s, a = ⟨.sym s, 0⟩ ∧ M (.sym s) ∧ symKind s ≠ .var := by
  induction ha with
  | memAddr =>
    cases h with
    | memAddr h => exact .inl h
  | proc =>
    cases h with
    | proc h hk => exact .inr ⟨_, rfl, h, hk⟩
  | elem _ he _ ih =>
    cases h with
    | arrayInit h => exact ih (h _ (mem_of_initVals he))
  | field _ he _ ih =>
    cases h with
    | structInit h => exact ih (h _ (mem_of_initVals he))
  | unionField _ ih =>
    cases h with
    | unionInit h => exact ih (h _ (List.mem_singleton.mpr rfl))

end

end Nibble.Data
