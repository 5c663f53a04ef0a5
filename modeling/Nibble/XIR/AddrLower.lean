import Nibble.Lib.Triple
import Nibble.XIR.Chain

/-!
# How a chain is lowered

What `XIR_get_addr` makes of the chain of an address. There are four outcomes
(`SibdForm`): the index of the innermost address stays an index, or is computed
into its own register, or is merged with the indices around it; without an
innermost index the indices around it are dropped.
-/

namespace Nibble.XIR

open Nibble.IR Nibble.Lib

variable {fr : Frame} {objs : List MemObj} {X X' X'' : XBuilder} {src : MemAddr} {c : Chain}
  {l l' : List XInstr} {a : Sibd} {env : Env} {regs : Reg → Word} {v : XReg → Word}

/-! ## Builders -/

/-- IR registers keep the virtual registers they have. -/
structure Ext (X X' : XBuilder) : Prop where
  vreg : ∀ r x, X.vreg r = some x → X'.vreg r = some x
  rbp : X'.lregRbp = X.lregRbp

theorem Ext.refl (X : XBuilder) : Ext X X := ⟨fun _ _ h => h, rfl⟩

theorem Ext.trans (h : Ext X X') (h' : Ext X' X'') : Ext X X'' :=
  ⟨fun r x hx => h'.vreg r x (h.vreg r x hx), h'.rbp.trans h.rbp⟩

/-- Different IR registers have different virtual registers, none of which is `rbp`. -/
structure Distinct (X : XBuilder) : Prop where
  inj : ∀ r s x, X.vreg r = some x → X.vreg s = some x → r = s
  rbp : ∀ r, X.vreg r ≠ some X.lregRbp

theorem vreg_lt {r : Reg} {x : XReg} (h : X.vreg r = some x) : X.numRegs > x := by
  unfold XBuilder.vreg at h
  obtain ⟨y, hy, rfl⟩ := Option.map_eq_some_iff.mp h
  exact X.alias_lt y (X.map_lt r y hy)

theorem vreg_mapFresh_self (r : Reg) : (X.mapFresh r).vreg r = some X.numRegs := by
  simp [XBuilder.vreg, XBuilder.mapFresh]

theorem vreg_mapFresh_other {r s : Reg} (h : s ≠ r) : (X.mapFresh r).vreg s = X.vreg s := by
  unfold XBuilder.vreg XBuilder.mapFresh
  simp only [Function.update_of_ne h]
  cases hs : X.regMap s with
  | none => rfl
  | some x =>
    have hne : x ≠ X.numRegs := Nat.ne_of_lt (X.map_lt s x hs)
    simp [Function.update_of_ne hne]

/-- What lowering has done between two builders: it emitted `l`. -/
structure Lowering (X : XBuilder) (l : List XInstr) (X' : XBuilder) : Prop where
  ext : Ext X X'
  code : X'.code = X.code ++ l
  distinct : Distinct X → Distinct X'

theorem Lowering.refl (X : XBuilder) : Lowering X [] X := ⟨.refl X, by simp, id⟩

theorem Lowering.trans (h : Lowering X l X') (h' : Lowering X' l' X'') :
    Lowering X (l ++ l') X'' :=
  ⟨h.ext.trans h'.ext, by rw [h'.code, h.code, List.append_assoc], fun hd => h'.distinct (h.distinct hd)⟩

theorem getReg_lowering {r : Reg} : ∃ x X', getReg r X = some (x, X') ∧ X'.vreg r = some x ∧
    Lowering X [] X' := by
  unfold getReg
  cases hr : X.regMap r with
  | some y => exact ⟨X.findAlias y, X, rfl, by simp [XBuilder.vreg, hr], .refl X⟩
  | none =>
    have hnone : X.vreg r = none := by simp [XBuilder.vreg, hr]
    refine ⟨X.numRegs, X.mapFresh r, rfl, vreg_mapFresh_self r, ⟨fun s x hs => ?_, rfl⟩,
      by simp [XBuilder.mapFresh], fun hd => ⟨fun s t x hs ht => ?_, fun s hs => ?_⟩⟩
    · rw [vreg_mapFresh_other]
      · exact hs
      · rintro rfl
        rw [hnone] at hs
        cases hs
    · by_cases e : s = r <;> by_cases e' : t = r
      · rw [e, e']
      · subst e
        rw [vreg_mapFresh_self] at hs
        rw [vreg_mapFresh_other e'] at ht
        cases hs
        exact absurd (vreg_lt ht) (Nat.lt_irrefl _)
      · subst e'
        rw [vreg_mapFresh_self] at ht
        rw [vreg_mapFresh_other e] at hs
        cases ht
        exact absurd (vreg_lt hs) (Nat.lt_irrefl _)
      · rw [vreg_mapFresh_other e] at hs
        rw [vreg_mapFresh_other e'] at ht
        exact hd.inj s t x hs ht
    · by_cases e : s = r
      · subst e
        rw [vreg_mapFresh_self] at hs
        have : X.numRegs = X.lregRbp := Option.some.inj hs
        exact absurd X.rbp_lt (by rw [this]; exact Nat.lt_irrefl _)
      · rw [vreg_mapFresh_other e] at hs
        exact hd.rbp s hs

theorem getIndex_lowering (src : MemAddr) : ∃ i X', getIndex src X = some (i, X') ∧
    Lowering X [] X' ∧ (hasIndex src = none → i = none) ∧
    ∀ r, hasIndex src = some r → ∃ x, X'.vreg r = some x ∧ i = some x := by
  unfold getIndex
  cases h : hasIndex src with
  | none => exact ⟨none, X, rfl, .refl X, fun _ => rfl, fun _ hr => (by cases hr)⟩
  | some r =>
    obtain ⟨x, X', hrun, hx, hl⟩ := getReg_lowering (X := X) (r := r)
    refine ⟨some x, X', ?_, hl, fun hn => (by cases hn), fun s hs => ?_⟩
    · show (getReg r >>= fun x => pure (some x)) X = _
      simp only [bind, StateT.bind, hrun, Option.bind]
      rfl
    · cases hs
      exact ⟨x, hx, rfl⟩

/-- The code of `XIR_lea_sib`. -/
def leaSibCode (index : XReg) (scale : BitVec 8) (base : Option XReg) : List XInstr :=
  .imulRI index (scale.signExtend 64) :: (base.map (XInstr.addRR index)).toList

theorem leaSib_lowering {i b : Option XReg} {s : BitVec 8} {r : XReg}
    (h : leaSib i s b X = some (r, X')) : i = some r ∧ Lowering X (leaSibCode r s b) X' := by
  unfold leaSib at h
  obtain ⟨_, X₁, h₁, hrest⟩ := bind_eq_some h
  have hs : X₁ = X := by
    unfold assert at h₁
    split at h₁ <;> cases h₁
    rfl
  rw [hs] at hrest
  cases i with
  | none => cases hrest
  | some x =>
    cases b with
    | none =>
      cases hrest
      exact ⟨rfl, ⟨fun _ _ h => h, rfl⟩, rfl, fun h => ⟨h.inj, h.rbp⟩⟩
    | some y =>
      cases hrest
      refine ⟨rfl, ⟨fun _ _ h => h, rfl⟩, ?_, fun h => ⟨h.inj, h.rbp⟩⟩
      show (X.code ++ [_]) ++ [_] = _
      rw [List.append_assoc]
      rfl

/-! ## Outcomes -/

/-- `y` is the register of the base. -/
def BaseReg (X : XBuilder) (b : ChainBase) (y : Option XReg) : Prop :=
  match b with
  | .none => y = none
  | .reg r => ∃ x, X.vreg r = some x ∧ y = some x
  | .sym _ | .anonObj _ => y = some X.lregRbp
  | .strLit _ | .floatLit _ => False

theorem BaseReg.ext {b : ChainBase} {y : Option XReg} (h : BaseReg X b y) (he : Ext X X') :
    BaseReg X' b y := by
  cases b with
  | none => exact h
  | reg r =>
    obtain ⟨x, hx, hy⟩ := h
    exact ⟨x, he.vreg r x hx, hy⟩
  | sym | anonObj =>
    unfold BaseReg at h ⊢
    rw [he.rbp]
    exact h
  | strLit | floatLit => exact h

/-- What the index of the innermost address has become. -/
inductive IndexForm (X : XBuilder) (c : Chain) (a : Sibd) (l : List XInstr) : Prop where
  /-- There is none, and the indices around it have been dropped. -/
  | dropped (index : c.index = none) (base : c.base ≠ .none) (baseReg : BaseReg X c.base a.baseReg)
      (indexReg : a.indexReg = none) (code : l = [])
  /-- The scale is not one of x64: the address is computed into the register of the index. -/
  | consolidated (r : Reg) (s : BitVec 8) (x : XReg) (b : Option XReg) (index : c.index = some (r, s))
      (invalid : validScale s = false) (nonzero : s ≠ 0) (vreg : X.vreg r = some x)
      (baseReg : BaseReg X c.base b) (indexReg : a.indexReg = none) (code : l = leaSibCode x s b)
  /-- It is the index of the result, after the indices around it have been added to it. -/
  | kept (r : Reg) (s : BitVec 8) (x : XReg) (index : c.index = some (r, s)) (nonzero : s ≠ 0)
      (vreg : X.vreg r = some x) (baseReg : BaseReg X c.base a.baseReg)
      (indexReg : a.indexReg = some x)
      (merged : c.outer = [] ∧ validScale s = true ∧ a.scale = s ∧ l = [] ∨
        c.outer ≠ [] ∧ a.scale = 1)

structure SibdForm (fr : Frame) (X : XBuilder) (c : Chain) (a : Sibd) (l : List XInstr) : Prop where
  inReg : c.base.inReg fr = true
  disp : a.disp = (c.offsets fr).sum
  index : IndexForm X c a l

/-- A label: index and displacement are ignored. -/
structure LabelForm (fr : Frame) (c : Chain) (dst : XMemAddr) (l : List XInstr) : Prop where
  inReg : c.base.inReg fr = false
  outer : c.outer = []
  disps : ∃ d, c.disps = [d]
  code : l = []
  notSibd : ∀ a, dst ≠ .sibd a
  eval : ∀ env v regs, dst.eval env v = c.base.eval env regs

inductive AddrForm (fr : Frame) (X : XBuilder) (c : Chain) (l : List XInstr) : XMemAddr → Prop where
  | sibd (a : Sibd) (form : SibdForm fr X c a l) : AddrForm fr X c l (.sibd a)
  | label (dst : XMemAddr) (form : LabelForm fr c dst l) : AddrForm fr X c l dst

theorem IndexForm.ext (h : IndexForm X c a l) (he : Ext X X') : IndexForm X' c a l := by
  cases h with
  | dropped hi hb hr hx hl => exact .dropped hi hb (hr.ext he) hx hl
  | consolidated r s x b hi hv hs hx hb hn hl =>
    exact .consolidated r s x b hi hv hs (he.vreg r x hx) (hb.ext he) hn hl
  | kept r s x hi hs hx hb hn hm => exact .kept r s x hi hs (he.vreg r x hx) (hb.ext he) hn hm

theorem AddrForm.ext {dst : XMemAddr} (h : AddrForm fr X c l dst) (he : Ext X X') :
    AddrForm fr X' c l dst := by
  cases h with
  | sibd a form => exact .sibd a ⟨form.inReg, form.disp, form.index.ext he⟩
  | label dst form => exact .label dst form

theorem fixScale_cases {hi : Bool} {dst d : Sibd} (h : fixScale hi dst X = some (d, X')) :
    (d = dst ∧ X' = X ∧ (hi = true → validScale dst.scale = true)) ∨
    (hi = true ∧ validScale dst.scale = false ∧ ∃ r, dst.indexReg = some r ∧
      d = { dst with baseReg := some r, indexReg := none, scale := 0 } ∧
      Lowering X (leaSibCode r dst.scale dst.baseReg) X') := by
  unfold fixScale at h
  split at h
  case isTrue hc =>
    obtain ⟨r, X₁, h₁, h₂⟩ := bind_eq_some h
    cases h₂
    obtain ⟨hr, hl⟩ := leaSib_lowering h₁
    simp only [Bool.and_eq_true, Bool.or_eq_true, Bool.not_eq_true', decide_eq_true_eq] at hc
    refine .inr ⟨hc.1, ?_, r, hr, rfl, hl⟩
    unfold validScale
    rcases hc.2 with hp | hm
    · simp [hp]
    · simp [hm]
  case isFalse hc =>
    cases h
    refine .inl ⟨rfl, rfl, fun hi => ?_⟩
    simp only [hi, Bool.true_and, Bool.or_eq_true, Bool.not_eq_true', decide_eq_true_eq] at hc
    unfold validScale
    simpa using hc

theorem hasIndex_ne {r : Reg} (h : hasIndex src = some r) : src.scale ≠ 0 := by
  unfold hasIndex at h
  split at h
  · cases h
  · assumption

/-- The innermost address. -/
theorem inner_form {b : ChainBase} {y i : Option XReg} {d : BitVec 32} {dst : Sibd}
    (hreg : b.inReg fr = true) (hb : BaseReg X b y) (hnone : b = .none → hasIndex src ≠ none)
    (hd : d = (Chain.offsets fr ⟨b, indexOf src, [], [src.disp]⟩).sum)
    (hi : hasIndex src = none → i = none)
    (hi' : ∀ r, hasIndex src = some r → ∃ x, X.vreg r = some x ∧ i = some x)
    (h : fixScale (hasIndex src).isSome ⟨y, i, d, src.scale⟩ X = some (dst, X')) :
    ∃ l, Lowering X l X' ∧ SibdForm fr X' ⟨b, indexOf src, [], [src.disp]⟩ dst l := by
  rcases fixScale_cases h with ⟨rfl, rfl, hv⟩ | ⟨hs, hv, x, hx, rfl, hl⟩
  · refine ⟨[], .refl _, hreg, hd, ?_⟩
    cases hidx : hasIndex src with
    | none =>
      refine .dropped (by simp [indexOf, hidx]) (fun e => hnone e hidx) hb (hi hidx) rfl
    | some r =>
      obtain ⟨x, hx, hix⟩ := hi' r hidx
      refine .kept r src.scale x (by simp [indexOf, hidx]) (hasIndex_ne hidx) hx hb hix
        (.inl ⟨rfl, hv (by rw [hidx]; rfl), rfl, rfl⟩)
  · refine ⟨_, hl, hreg, hd, ?_⟩
    obtain ⟨r, hidx⟩ := Option.isSome_iff_exists.mp hs
    obtain ⟨x', hx', hix⟩ := hi' r hidx
    obtain rfl : x' = x := Option.some.inj (hix.symm.trans hx)
    exact .consolidated r src.scale x' y (by simp [indexOf, hidx]) hv (hasIndex_ne hidx)
      (hl.ext.vreg r x' hx') (hb.ext hl.ext) rfl rfl

/-- The chain of `src` around an address with the chain `c`. -/
def Chain.around (c : Chain) (src : MemAddr) : Chain :=
  { c with outer := c.outer ++ (indexOf src).toList, disps := c.disps ++ [src.disp] }

theorem sum_offsets_around : ((c.around src).offsets fr).sum = src.disp + (c.offsets fr).sum := by
  unfold Chain.offsets Chain.around
  cases c.base <;> simp <;> ring

theorem mergeIndex_cases {i j : Option XReg} {s t : BitVec 8}
    (h : mergeIndex i s a X = some ((j, t), X')) :
    (j = a.indexReg ∧ t = a.scale ∧ X' = X ∧ (i = none ∨ a.scale = 0 ∨ a.indexReg = none)) ∨
    (∃ l, Lowering X l X' ∧ j = a.indexReg ∧ t = 1 ∧ i ≠ none ∧ a.indexReg ≠ none) := by
  unfold mergeIndex at h
  split at h
  case isTrue hc =>
    obtain ⟨x, X₁, h₁, h₂⟩ := bind_eq_some h
    obtain ⟨y, X₂, h₃, h₄⟩ := bind_eq_some h₂
    cases h₄
    obtain ⟨hx, hl₁⟩ := leaSib_lowering h₁
    obtain ⟨hy, hl₂⟩ := leaSib_lowering h₃
    exact .inr ⟨_, hl₁.trans hl₂, hy.symm, rfl, by simp [hx], by simp [hy]⟩
  case isFalse hc =>
    cases h
    refine .inl ⟨rfl, rfl, rfl, ?_⟩
    cases i with
    | none => exact .inl rfl
    | some x =>
      cases ha : a.indexReg with
      | none => exact .inr (.inr rfl)
      | some y => exact .inr (.inl (by simpa [ha] using hc))

/-- An address around another one. -/
theorem outer_form {i j : Option XReg} {t : BitVec 8} {dst : Sibd} {X₁ : XBuilder}
    (hf : SibdForm fr X c a l) (hi : hasIndex src = none → i = none)
    (hi' : ∀ r, hasIndex src = some r → ∃ x, X.vreg r = some x ∧ i = some x)
    (hm : mergeIndex i src.scale a X = some ((j, t), X₁))
    (h : fixScale (hasIndex src).isSome ⟨a.baseReg, j, src.disp + a.disp, t⟩ X₁ = some (dst, X')) :
    ∃ l', Lowering X l' X' ∧ SibdForm fr X' (c.around src) dst (l ++ l') := by
  have hdisp : src.disp + a.disp = ((c.around src).offsets fr).sum := by
    rw [hf.disp, sum_offsets_around]
  cases hidx : hasIndex src with
  | none =>
    -- nothing is added
    have houter : (c.around src).outer = c.outer := by simp [Chain.around, indexOf, hidx]
    rw [hi hidx] at hm
    rw [hidx] at h
    rcases mergeIndex_cases hm with ⟨rfl, rfl, rfl, -⟩ | ⟨l', -, -, -, hne, -⟩
    · rcases fixScale_cases h with ⟨rfl, rfl, -⟩ | ⟨hs, -⟩
      · refine ⟨[], .refl _, hf.inReg, hdisp, ?_⟩
        rw [List.append_nil]
        cases hf.index with
        | dropped h1 h2 h3 h4 h5 => exact .dropped h1 h2 h3 h4 h5
        | consolidated r s x b h1 h2 h3 h4 h5 h6 h7 =>
          exact .consolidated r s x b h1 h2 h3 h4 h5 h6 h7
        | kept r s x h1 h2 h3 h4 h5 h6 =>
          refine .kept r s x h1 h2 h3 h4 h5 ?_
          rw [houter]
          exact h6
      · cases hs
    · exact absurd rfl hne
  | some r₀ =>
    obtain ⟨x₀, -, hx₀⟩ := hi' r₀ hidx
    have houter : (c.around src).outer ≠ [] := by simp [Chain.around, indexOf, hidx]
    rw [hidx] at h
    cases hf.index with
    | dropped h1 h2 h3 h4 h5 =>
      rcases mergeIndex_cases hm with ⟨rfl, rfl, rfl, -⟩ | ⟨l', -, -, -, -, hne⟩
      · rcases fixScale_cases h with ⟨rfl, rfl, -⟩ | ⟨-, -, x, hx, -⟩
        · exact ⟨[], .refl _, hf.inReg, hdisp, .dropped h1 h2 h3 h4 (by rw [h5]; rfl)⟩
        · simp only [h4] at hx
          cases hx
      · exact absurd h4 hne
    | consolidated r s x b h1 h2 h3 h4 h5 h6 h7 =>
      rcases mergeIndex_cases hm with ⟨rfl, rfl, rfl, -⟩ | ⟨l', -, -, -, -, hne⟩
      · rcases fixScale_cases h with ⟨rfl, rfl, -⟩ | ⟨-, -, y, hy, -⟩
        · refine ⟨[], .refl _, hf.inReg, hdisp, ?_⟩
          rw [List.append_nil]
          exact .consolidated r s x b h1 h2 h3 h4 h5 h6 h7
        · simp only [h6] at hy
          cases hy
      · exact absurd h6 hne
    | kept r s x h1 h2 h3 h4 h5 h6 =>
      rcases mergeIndex_cases hm with ⟨-, -, -, hno⟩ | ⟨l', hl, rfl, rfl, -, -⟩
      · exfalso
        rcases hno with hno | hno | hno
        · rw [hx₀] at hno
          cases hno
        · rcases h6 with ⟨-, -, hs, -⟩ | ⟨-, hs⟩
          · exact h2 (hs.symm.trans hno)
          · rw [hs] at hno
            cases hno
        · rw [h5] at hno
          cases hno
      · rcases fixScale_cases h with ⟨rfl, rfl, -⟩ | ⟨-, hv, -⟩
        · exact ⟨l', hl, hf.inReg, hdisp, .kept r s x h1 h2 (hl.ext.vreg r x h3) (h4.ext hl.ext) h5
            (.inr ⟨houter, rfl⟩)⟩
        · exact absurd (show validScale 1 = false from hv) (by decide)

/-! ## The whole chain -/

/-- What lowering makes of an object. -/
def ObjForm (fr : Frame) (X : XBuilder) (l : List XInstr) : ObjChain → ObjBase → Prop
  | .base b, .rbp off => l = [] ∧ b.inReg fr = true ∧ BaseReg X b (some X.lregRbp) ∧
      b ≠ .none ∧ ∀ i o d, Chain.offsets fr ⟨b, i, o, d⟩ = off :: d
  | .base b, .globalSym s => l = [] ∧ b = .sym s ∧ fr.isLocal s = false
  | .addr c, .addr a => SibdForm fr X c a l
  | _, _ => False

theorem getAddrWith_form {getO : MemObjId → XBuild ObjBase} {obj : MemObjId → Option ObjChain}
    (hobj : ∀ o oc X ob X', obj o = some oc → getO o X = some (ob, X') →
      ∃ l, Lowering X l X' ∧ ObjForm fr X' l oc ob) {dst : XMemAddr}
    (hc : chainWith obj src = some c) (h : getAddrWith getO src X = some (dst, X')) :
    ∃ l, Lowering X l X' ∧ AddrForm fr X' c l dst := by
  obtain ⟨i, X₁, hi, hl₁, hi₁, hi₁'⟩ := getIndex_lowering (X := X) src
  unfold chainWith at hc
  unfold getAddrWith at h
  cases hb : src.base with
  | strLit k | floatLit k =>
    simp only [hb] at hc h
    cases hc
    cases h
    refine ⟨[], .refl X, .label _ ⟨rfl, rfl, ⟨_, rfl⟩, rfl, by simp, fun _ _ _ => rfl⟩⟩
  | none =>
    simp only [hb] at hc h
    cases hc
    obtain ⟨_, X₀, h₀, h₁⟩ := bind_eq_some h
    obtain ⟨hs, hX⟩ : (hasIndex src).isSome = true ∧ X₀ = X := by
      unfold assert at h₀
      split at h₀ <;> cases h₀
      exact ⟨by assumption, rfl⟩
    rw [hX] at h₁
    obtain ⟨i', X₁', h₂, h₃⟩ := bind_eq_some h₁
    cases hi.symm.trans h₂
    obtain ⟨d, X₂, h₄, h₅⟩ := bind_eq_some h₃
    cases h₅
    rw [← hs] at h₄
    obtain ⟨l, hl, hf⟩ := inner_form (b := .none) rfl rfl
      (fun _ hn => by rw [hn] at hs; cases hs) (by simp [Chain.offsets]) hi₁ hi₁' h₄
    exact ⟨l, hl₁.trans hl, .sibd _ hf⟩
  | reg r =>
    simp only [hb] at hc h
    cases hc
    obtain ⟨i', X₁', h₂, h₃⟩ := bind_eq_some h
    cases hi.symm.trans h₂
    obtain ⟨x, X₂, h₄, h₅⟩ := bind_eq_some h₃
    obtain ⟨x', X₂', hrun, hx, hl₂⟩ := getReg_lowering (X := X₁) (r := r)
    cases hrun.symm.trans h₄
    obtain ⟨d, X₃, h₆, h₇⟩ := bind_eq_some h₅
    cases h₇
    obtain ⟨l, hl, hf⟩ := inner_form (b := .reg r) rfl ⟨x, hx, rfl⟩ (fun e => by cases e)
      (by simp [Chain.offsets]) hi₁ (fun s hs => by
        obtain ⟨y, hy, hiy⟩ := hi₁' s hs
        exact ⟨y, hl₂.ext.vreg s y hy, hiy⟩) h₆
    exact ⟨l, (hl₁.trans hl₂).trans hl, .sibd _ hf⟩
  | obj o =>
    simp only [hb] at hc h
    obtain ⟨i', X₁', h₂, h₃⟩ := bind_eq_some h
    cases hi.symm.trans h₂
    obtain ⟨ob, X₂, h₄, h₅⟩ := bind_eq_some h₃
    cases hoc : obj o with
    | none =>
      rw [hoc] at hc
      cases hc
    | some oc =>
      obtain ⟨l, hl, hf⟩ := hobj o oc X₁ ob X₂ hoc h₄
      have hi₂ : ∀ s, hasIndex src = some s → ∃ y, X₂.vreg s = some y ∧ i = some y := by
        intro s hs
        obtain ⟨y, hy, hiy⟩ := hi₁' s hs
        exact ⟨y, hl.ext.vreg s y hy, hiy⟩
      rw [hoc] at hc
      cases oc with
      | base b =>
        cases hc
        cases ob with
        | addr a => exact hf.elim
        | globalSym s =>
          obtain ⟨rfl, rfl, hg⟩ := hf
          cases h₅
          exact ⟨[], hl₁.trans hl, .label _ ⟨hg, rfl, ⟨_, rfl⟩, rfl, by simp, fun _ _ _ => rfl⟩⟩
        | rbp off =>
          obtain ⟨rfl, hr, hbr, hne, hoff⟩ := hf
          obtain ⟨Y, Y', hY, h₆⟩ := bind_eq_some h₅
          cases hY
          obtain ⟨d, X₃, h₇, h₈⟩ := bind_eq_some h₆
          cases h₈
          obtain ⟨l', hl', hf'⟩ := inner_form (b := b) hr hbr (fun e => absurd e hne)
            (by rw [hoff]; simp [BitVec.add_comm]) hi₁ hi₂ h₇
          exact ⟨l', (hl₁.trans hl).trans hl', .sibd _ hf'⟩
      | addr c' =>
        cases hc
        cases ob with
        | globalSym | rbp => exact hf.elim
        | addr a =>
          obtain ⟨⟨j, t⟩, X₃, h₆, h₇⟩ := bind_eq_some h₅
          obtain ⟨d, X₄, h₈, h₉⟩ := bind_eq_some h₇
          cases h₉
          obtain ⟨l', hl', hf'⟩ := outer_form hf hi₁ hi₂ h₆ h₈
          exact ⟨l ++ l', (hl₁.trans hl).trans hl', .sibd _ hf'⟩

theorem getObj_form (n : Nat) (o : MemObjId) (oc : ObjChain) (X : XBuilder) (ob : ObjBase)
    (X' : XBuilder) (hc : objChain objs n o = some oc) (h : getObj fr objs n o X = some (ob, X')) :
    ∃ l, Lowering X l X' ∧ ObjForm fr X' l oc ob := by
  induction n generalizing o oc X ob X' with
  | zero => cases hc
  | succ n ih =>
    unfold objChain at hc
    unfold getObj at h
    cases ho : objs[o]? with
    | none =>
      rw [ho] at hc
      cases hc
    | some m =>
      simp only [ho] at hc h
      match m, hc, h with
      | .alias o', hc, h => exact ih o' oc X ob X' hc h
      | .sym s, hc, h =>
        cases hc
        by_cases hs : fr.isLocal s = true
        · simp only [if_pos hs] at h
          cases h
          exact ⟨[], .refl X, rfl, hs, rfl, by simp, fun _ _ _ => rfl⟩
        · simp only [if_neg hs] at h
          cases h
          exact ⟨[], .refl X, rfl, rfl, by simpa using hs⟩
      | .anonObj k, hc, h =>
        cases hc
        cases h
        exact ⟨[], .refl X, rfl, rfl, rfl, by simp, fun _ _ _ => rfl⟩
      | .addr a, hc, h =>
        obtain ⟨c, hca, rfl⟩ := Option.map_eq_some_iff.mp hc
        obtain ⟨dst, X₁, h₁, h₂⟩ := bind_eq_some h
        obtain ⟨l, hl, hf⟩ := getAddrWith_form ih hca h₁
        cases hf with
        | sibd s form =>
          cases h₂
          exact ⟨l, hl, form⟩
        | label dst form =>
          cases dst with
          | sibd s => exact absurd rfl (form.notSibd s)
          | globalSym | strLit | floatLit => cases h₂

theorem getAddr_form {dst : XMemAddr} (hc : chain objs src = some c)
    (h : getAddr fr objs src X = some (dst, X')) :
    ∃ l, Lowering X l X' ∧ AddrForm fr X' c l dst :=
  getAddrWith_form (fun o oc X ob X' => getObj_form _ o oc X ob X') hc h

end Nibble.XIR
