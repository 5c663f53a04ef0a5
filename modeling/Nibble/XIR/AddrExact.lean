import Nibble.XIR.AddrLower

/-!
# When an address is lowered correctly

`XIR_get_addr` is right exactly for the addresses with `lowers`: at most one
index in the whole chain, with a scale of x64, on a base that is not a label,
and displacements that add up in 32 bits. The other direction looks at register
contents in which a single register is one and all others are zero.
-/

namespace Nibble.XIR

open Nibble.IR Nibble.Lib

variable {fr : Frame} {objs : List MemObj} {X X' X'' : XBuilder} {src : MemAddr} {c : Chain}
  {l : List XInstr} {a : Sibd} {env : Env} {regs : Reg → Word} {v : XReg → Word}

/-! ## Lowering succeeds -/

/-- What `Chain.lowers` asks of an inner address. -/
def Chain.plain (fr : Frame) (c : Chain) : Bool :=
  c.base.inReg fr && c.outer = [] && c.index.all (validScale ·.2) &&
    (c.base ≠ .none || c.index.isSome)

def ObjChain.plain (fr : Frame) : ObjChain → Bool
  | .base _ => true
  | .addr c => c.plain fr

theorem fixScale_run {hi : Bool} {dst : Sibd} (h : hi = true → validScale dst.scale = true) :
    fixScale hi dst X = some (dst, X) := by
  unfold fixScale
  rw [if_neg]
  · rfl
  · intro hc
    simp only [Bool.and_eq_true, Bool.or_eq_true, Bool.not_eq_true', decide_eq_true_eq] at hc
    have hv := h hc.1
    unfold validScale at hv
    rcases hc.2 with hp | hm
    · rw [hp] at hv
      cases hv
    · simp [hm] at hv

theorem indexOf_eq_none (h : indexOf src = none) : hasIndex src = none := by
  unfold indexOf at h
  cases hi : hasIndex src with
  | none => rfl
  | some r =>
    rw [hi] at h
    cases h

theorem validScale_of_all (h : (indexOf src).all (validScale ·.2) = true)
    (hs : (hasIndex src).isSome = true) : validScale src.scale = true := by
  obtain ⟨r, hr⟩ := Option.isSome_iff_exists.mp hs
  simpa [indexOf, hr] using h

theorem bind_eq {α β : Type} {x : XBuild α} {f : α → XBuild β} {r : α} (h : x X = some (r, X')) :
    (x >>= f) X = f r X' := by
  simp only [bind, StateT.bind, h, Option.bind]

theorem getAddrWith_succeeds {getO : MemObjId → XBuild ObjBase} {obj : MemObjId → Option ObjChain}
    (hobj : ∀ o oc X, obj o = some oc → oc.plain fr = true → ∃ ob X', getO o X = some (ob, X'))
    (hform : ∀ o oc X ob X', obj o = some oc → getO o X = some (ob, X') →
      ∃ l, Lowering X l X' ∧ ObjForm fr X' l oc ob)
    (hdisps : ∀ o c', obj o = some (.addr c') → c'.disps ≠ []) (hc : chainWith obj src = some c)
    (hp : c.plain fr = true ∨ c.base.inReg fr = false ∧ ∃ d, c.disps = [d]) :
    ∃ dst X', getAddrWith getO src X = some (dst, X') := by
  obtain ⟨i, X₁, hi, hl₁, -, hi₁⟩ := getIndex_lowering (X := X) src
  unfold chainWith at hc
  unfold getAddrWith
  cases hb : src.base with
  | strLit k => exact ⟨_, _, rfl⟩
  | floatLit k => exact ⟨_, _, rfl⟩
  | none =>
    simp only [hb, Option.some.injEq] at hc ⊢
    subst hc
    obtain hp | ⟨hp, -⟩ := hp
    · simp only [Chain.plain, Bool.and_eq_true, ne_eq, not_true_eq_false, decide_false,
        Bool.false_or] at hp
      have hs : (hasIndex src).isSome = true := by simpa [indexOf] using hp.2
      have h₀ : assert (hasIndex src).isSome X = some ((), X) := by
        rw [hs]
        rfl
      rw [bind_eq h₀, bind_eq hi, bind_eq (fixScale_run fun _ => validScale_of_all hp.1.2 hs)]
      exact ⟨_, _, rfl⟩
    · cases hp
  | reg r =>
    simp only [hb, Option.some.injEq] at hc ⊢
    subst hc
    obtain hp | ⟨hp, -⟩ := hp
    · simp only [Chain.plain, Bool.and_eq_true] at hp
      obtain ⟨x, X₂, hrun, -, -⟩ := getReg_lowering (X := X₁) (r := r)
      rw [bind_eq hi, bind_eq hrun, bind_eq (fixScale_run (validScale_of_all hp.1.2))]
      exact ⟨_, _, rfl⟩
    · cases hp
  | obj o =>
    simp only [hb] at hc ⊢
    rw [bind_eq hi]
    cases hoc : obj o with
    | none =>
      rw [hoc] at hc
      cases hc
    | some oc =>
      rw [hoc] at hc
      cases oc with
      | base b =>
        obtain ⟨ob, X₂, hrun⟩ := hobj o _ X₁ hoc rfl
        obtain ⟨l, -, hf⟩ := hform o _ X₁ ob X₂ hoc hrun
        rw [bind_eq hrun]
        cases ob with
        | addr a => exact hf.elim
        | globalSym s => exact ⟨_, _, rfl⟩
        | rbp off =>
          cases hc
          obtain hp | ⟨hp, -⟩ := hp
          · simp only [Chain.plain, Bool.and_eq_true] at hp
            have hget : (get : XBuild XBuilder) X₂ = some (X₂, X₂) := rfl
            simp only
            rw [bind_eq hget, bind_eq (fixScale_run (validScale_of_all hp.1.2))]
            exact ⟨_, _, rfl⟩
          · rw [hf.2.1] at hp
            cases hp
      | addr c' =>
        cases hc
        -- the inner address is plain, and there is no index around it
        have hp' : c'.plain fr = true ∧ indexOf src = none := by
          obtain hp | ⟨-, d, hd⟩ := hp
          · simp only [Chain.plain, Bool.and_eq_true, decide_eq_true_eq, List.append_eq_nil_iff] at hp
            obtain ⟨⟨⟨h1, h2, h3⟩, h4⟩, h5⟩ := hp
            refine ⟨by simp only [Chain.plain, Bool.and_eq_true, decide_eq_true_eq]; exact ⟨⟨⟨h1, h2⟩, h4⟩, h5⟩, ?_⟩
            cases hidx : indexOf src with
            | none => rfl
            | some p => simp [hidx] at h3
          · have hlen := congrArg List.length hd
            simp only [List.length_append, List.length_singleton, Nat.add_eq_right,
              List.length_eq_zero_iff] at hlen
            exact absurd hlen (hdisps o c' hoc)
        obtain ⟨ob, X₂, hrun⟩ := hobj o _ X₁ hoc hp'.1
        obtain ⟨l, -, hf⟩ := hform o _ X₁ ob X₂ hoc hrun
        have hidx := indexOf_eq_none hp'.2
        rw [bind_eq hrun]
        cases ob with
        | globalSym | rbp => exact hf.elim
        | addr a =>
          have hinone : i = none := by
            unfold getIndex at hi
            rw [hidx] at hi
            cases hi
            rfl
          have hm : mergeIndex i src.scale a X₂ = some ((a.indexReg, a.scale), X₂) := by
            rw [hinone]
            rfl
          simp only
          rw [bind_eq hm, hidx, bind_eq (fixScale_run (by simp))]
          exact ⟨_, _, rfl⟩

theorem getObj_succeeds (n : Nat) (o : MemObjId) (oc : ObjChain) (X : XBuilder)
    (hc : objChain objs n o = some oc) (hp : oc.plain fr = true) :
    ∃ ob X', getObj fr objs n o X = some (ob, X') := by
  induction n generalizing o oc X with
  | zero => cases hc
  | succ n ih =>
    unfold objChain at hc
    unfold getObj
    split at hc
    case h_1 o' ho => simpa [ho] using ih o' oc X hc hp
    case h_2 s ho => exact ⟨_, _, by simp only [ho]; rfl⟩
    case h_3 k ho => exact ⟨_, _, by simp only [ho]; rfl⟩
    case h_4 a ho =>
      obtain ⟨c, hca, heq⟩ := Option.map_eq_some_iff.mp hc
      subst heq
      obtain ⟨dst, X₁, hrun⟩ := getAddrWith_succeeds (X := X) ih (fun o oc X ob X' => getObj_form n o oc X ob X')
        (fun o c' h => (objChain_wf h).disps) hca (.inl hp)
      obtain ⟨l, -, hf⟩ := getAddrWith_form (fun o oc X ob X' => getObj_form n o oc X ob X') hca hrun
      simp only [ho]
      rw [bind_eq hrun]
      cases hf with
      | sibd s form => exact ⟨_, _, rfl⟩
      | label dst form =>
        simp only [ObjChain.plain, Chain.plain, form.inReg] at hp
        cases hp
    case h_5 => cases hc

theorem getAddr_succeeds (hc : chain objs src = some c)
    (hp : c.plain fr = true ∨ c.base.inReg fr = false ∧ ∃ d, c.disps = [d]) :
    ∃ dst X', getAddr fr objs src X = some (dst, X') :=
  getAddrWith_succeeds (getObj_succeeds _) (fun o oc X ob X' => getObj_form _ o oc X ob X')
    (fun _ _ h => (objChain_wf h).disps) hc hp

/-! ## The lowered address -/

/-- The base register of a lowered address. -/
def baseVal (v : XReg → Word) (y : Option XReg) : Word :=
  match y with
  | some r => v r
  | none => 0

theorem eval_noIndex (h : a.indexReg = none) :
    a.eval v = baseVal v a.baseReg + a.disp.signExtend 64 := by
  show baseVal v a.baseReg + (match a.indexReg with | some r => _ | none => 0) + _ = _
  rw [h]
  simp

theorem eval_index {x : XReg} (h : a.indexReg = some x) :
    a.eval v = baseVal v a.baseReg + v x * a.scale.setWidth 64 + a.disp.signExtend 64 := by
  show baseVal v a.baseReg + (match a.indexReg with | some r => v r * _ | none => 0) + _ = _
  rw [h]

/-- The displacements in the frame belong to the address of the object. -/
theorem base_eval {y : Option XReg} (hr : c.base.inReg fr = true) (hb : BaseReg X c.base y)
    (ha : Agree fr X env regs v) :
    c.base.eval env regs + evalDisps c.disps = baseVal v y + evalDisps (c.offsets fr) := by
  unfold Chain.offsets
  cases hcb : c.base with
  | none =>
    rw [hcb] at hb
    have hy : y = none := hb
    rw [hy]
    rfl
  | reg r =>
    rw [hcb] at hb
    obtain ⟨x, hx, rfl⟩ := hb
    show regs r + _ = v x + _
    rw [ha.regs r x hx]
  | sym s =>
    rw [hcb] at hb hr
    have hy : y = some X.lregRbp := hb
    subst hy
    show env.symAddr s + _ = v X.lregRbp + evalDisps (fr.symOffset s :: c.disps)
    rw [ha.locals s hr, evalDisps, evalDisps, List.map_cons, List.sum_cons, add_assoc]
  | anonObj k =>
    rw [hcb] at hb
    have hy : y = some X.lregRbp := hb
    subst hy
    show env.anonAddr k + _ = v X.lregRbp + evalDisps (fr.anonOffset k :: c.disps)
    rw [ha.anons k, evalDisps, evalDisps, List.map_cons, List.sum_cons, add_assoc]
  | strLit | floatLit =>
    rw [hcb] at hr
    cases hr

theorem eval_chain {y : Option XReg} (hr : c.base.inReg fr = true) (hb : BaseReg X c.base y)
    (ha : Agree fr X env regs v) : c.eval env regs =
      baseVal v y + evalIndices regs c.index.toList + evalIndices regs c.outer +
        evalDisps (c.offsets fr) := by
  have h := base_eval hr hb ha
  unfold Chain.eval
  calc _ = (c.base.eval env regs + evalDisps c.disps) + evalIndices regs c.index.toList +
        evalIndices regs c.outer := by ring
    _ = _ := by rw [h]; ring

/-- A chain that lowers takes no code, and its lowering is its meaning. -/
theorem AddrForm.right {dst : XMemAddr} (hf : AddrForm fr X c l dst) (hc : c.lowers fr = true)
    (ha : Agree fr X env regs v) : l = [] ∧ c.eval env regs = dst.eval env v := by
  unfold Chain.lowers at hc
  cases hf with
  | label dst form =>
    rw [if_neg (by rw [form.inReg]; simp)] at hc
    simp only [Bool.and_eq_true, decide_eq_true_eq] at hc
    refine ⟨form.code, ?_⟩
    rw [form.eval env v regs, Chain.eval, hc.1, form.outer, hc.2]
    simp
  | sibd a form =>
    rw [if_pos form.inReg] at hc
    simp only [Bool.and_eq_true, Bool.or_eq_true, decide_eq_true_eq, ne_eq, decide_not,
      Bool.not_eq_true', decide_eq_false_iff_not, Chain.dispFits] at hc
    obtain ⟨⟨⟨hout, hval⟩, hfits⟩, hbase⟩ := hc
    cases form.index with
    | dropped hi hb hbr hx hl =>
      refine ⟨hl, ?_⟩
      rw [eval_chain form.inReg hbr ha, hi, hout, ← hfits, ← form.disp]
      show _ = a.eval v
      rw [eval_noIndex hx]
      simp
    | consolidated r s x b hi hv =>
      rw [hi] at hval
      simp [hv] at hval
    | kept r s x hi hs hx hbr hxr hm =>
      rcases hm with ⟨-, -, hscale, hl⟩ | ⟨hne, -⟩
      · refine ⟨hl, ?_⟩
        rw [eval_chain form.inReg hbr ha, hi, hout, ← hfits, ← form.disp]
        show _ = a.eval v
        rw [eval_index hxr, hscale, ha.regs r x hx]
        simp
      · exact absurd hout hne

/-! ## A single register that is one -/

/-- The register `r` is one, all others are zero. -/
def unitRegs (r : Reg) : Reg → Word := fun s => if s = r then 1 else 0

theorem evalIndices_zero (l : List (Reg × BitVec 8)) : evalIndices (fun _ => 0) l = 0 := by
  induction l with
  | nil => rfl
  | cons p l ih =>
    rw [show p :: l = [p] ++ l from rfl, evalIndices_append, ih]
    simp

/-- What `r` contributes, as a number. -/
def scaleSum (r : Reg) (l : List (Reg × BitVec 8)) : Nat :=
  (l.map fun p => if p.1 = r then p.2.toNat else 0).sum

theorem scaleSum_le (r : Reg) (l : List (Reg × BitVec 8)) : scaleSum r l ≤ 255 * l.length := by
  induction l with
  | nil => simp [scaleSum]
  | cons p l ih =>
    unfold scaleSum at ih ⊢
    have := p.2.isLt
    simp only [List.map_cons, List.sum_cons, List.length_cons]
    split <;> omega

theorem scaleSum_pos {p : Reg × BitVec 8} {l : List (Reg × BitVec 8)} (hp : p ∈ l)
    (h : p.2 ≠ 0) : 0 < scaleSum p.1 l := by
  have hpos : 0 < p.2.toNat := by
    have := BitVec.toNat_ne.mp h
    simp only [BitVec.ofNat_eq_ofNat, BitVec.toNat_ofNat] at this
    omega
  induction l with
  | nil => cases hp
  | cons q l ih =>
    unfold scaleSum
    rw [List.map_cons, List.sum_cons]
    rcases List.mem_cons.mp hp with rfl | hp
    · rw [if_pos rfl]
      omega
    · have := ih hp
      unfold scaleSum at this
      omega

theorem toNat_evalIndices {r : Reg} {l : List (Reg × BitVec 8)} (h : 255 * l.length < 2 ^ 64) :
    (evalIndices (unitRegs r) l).toNat = scaleSum r l := by
  induction l with
  | nil => rfl
  | cons p l ih =>
    have hlen : 255 * l.length + 255 < 2 ^ 64 := by
      simp only [List.length_cons] at h
      omega
    have hle := scaleSum_le r l
    have hp := p.2.isLt
    have hone : (unitRegs r p.1 * p.2.setWidth 64).toNat = if p.1 = r then p.2.toNat else 0 := by
      unfold unitRegs
      split
      · rw [one_mul, BitVec.toNat_setWidth]
        omega
      · simp
    rw [show p :: l = [p] ++ l from rfl, evalIndices_append, evalIndices_singleton,
      BitVec.toNat_add, hone, ih (by omega)]
    show _ = (if p.1 = r then p.2.toNat else 0) + scaleSum r l
    split <;> omega

/-! ## States that agree -/

/-- The frame at address zero, and labels at zero. -/
def frameEnv (fr : Frame) : Env :=
  ⟨fun s => if fr.isLocal s then (fr.symOffset s).signExtend 64 else 0,
    fun i => (fr.anonOffset i).signExtend 64, fun _ => 0, fun _ => 0, fun _ _ _ => .equal,
    fun _ _ _ st => (st, 0), fun _ _ => none⟩

open Classical in
/-- The virtual registers for given IR registers. -/
noncomputable def vregsOf (X : XBuilder) (regs : Reg → Word) : XReg → Word := fun x =>
  if h : ∃ r, X.vreg r = some x then regs h.choose else 0

theorem agree_vregsOf (hd : Distinct X) (regs : Reg → Word) :
    Agree fr X (frameEnv fr) regs (vregsOf X regs) := by
  have hrbp : vregsOf X regs X.lregRbp = 0 := by
    unfold vregsOf
    rw [dif_neg]
    rintro ⟨r, hr⟩
    exact hd.rbp r hr
  refine ⟨fun r x hx => ?_, fun s hs => ?_, fun i => ?_⟩
  · unfold vregsOf
    have hex : ∃ r, X.vreg r = some x := ⟨r, hx⟩
    rw [dif_pos hex, hd.inj _ _ _ hex.choose_spec hx]
  · rw [hrbp]
    simp [frameEnv, hs]
  · rw [hrbp]
    simp [frameEnv]

theorem agree_rbp (ha : Agree fr X (frameEnv fr) regs v) : v X.lregRbp = 0 := by
  have h := ha.anons 0
  unfold frameEnv at h
  simpa using h

/-! ## Only the chains that lower are right -/

/-- What the lowering of one address has to achieve: the address, with all registers kept. -/
def Right (fr : Frame) (X : XBuilder) (c : Chain) (l : List XInstr) (dst : XMemAddr) : Prop :=
  ∀ regs v, Agree fr X (frameEnv fr) regs v →
    c.eval (frameEnv fr) regs = dst.eval (frameEnv fr) (execAll l v) ∧
    Agree fr X (frameEnv fr) regs (execAll l v)

theorem signExtend_inj {w : Nat} {x y : BitVec w} (hw : w ≤ 64)
    (h : x.signExtend 64 = y.signExtend 64) : x = y := by
  have hi := congrArg BitVec.toInt h
  rw [BitVec.toInt_signExtend_of_le hw, BitVec.toInt_signExtend_of_le hw] at hi
  exact BitVec.toInt_inj.mp hi

theorem two_mul_ne_one (w : Word) : w + w ≠ 1 := by
  intro h
  have := congrArg BitVec.toNat h
  simp only [BitVec.toNat_add, BitVec.ofNat_eq_ofNat, BitVec.toNat_ofNat] at this
  omega

/-- Computing an address into the register of its index does not leave the register alone. -/
theorem leaSib_not_right {r : Reg} {s : BitVec 8} {x : XReg} {b : Option XReg} {dst : XMemAddr}
    (hd : Distinct X) (hx : X.vreg r = some x) (hb : BaseReg X c.base b)
    (hs : validScale s = false) : ¬ Right fr X c (leaSibCode x s b) dst := by
  intro h
  have ha : Agree fr X (frameEnv fr) (unitRegs r) (vregsOf X (unitRegs r)) := agree_vregsOf hd _
  have hkeep := (h _ _ ha).2.regs r x hx
  have hone : vregsOf X (unitRegs r) x = 1 := by
    rw [ha.regs r x hx]
    simp [unitRegs]
  have hne : s.signExtend 64 ≠ 1 := fun e => by
    have hs' : s = 1 := signExtend_inj (by decide) (e.trans (by decide))
    rw [hs'] at hs
    exact absurd hs (by decide)
  have hunit : unitRegs r r = 1 := by simp [unitRegs]
  rw [hunit] at hkeep
  -- the value that the code leaves in the register
  cases b with
  | none =>
    simp only [leaSibCode, Option.map_none, Option.toList_none, execAll, List.foldl_cons,
      List.foldl_nil, XInstr.exec, Function.update_self, hone, one_mul] at hkeep
    exact hne hkeep
  | some y =>
    simp only [leaSibCode, Option.map_some, Option.toList_some, execAll, List.foldl_cons,
      List.foldl_nil, XInstr.exec, Function.update_self, hone, one_mul] at hkeep
    by_cases hyx : y = x
    · rw [hyx, Function.update_self] at hkeep
      exact two_mul_ne_one _ hkeep
    · rw [Function.update_of_ne hyx] at hkeep
      have hzero : vregsOf X (unitRegs r) y = 0 := by
        cases hcb : c.base with
        | none =>
          rw [hcb] at hb
          cases hb
        | reg q =>
          rw [hcb] at hb
          obtain ⟨z, hz, hyz⟩ := hb
          obtain rfl : y = z := Option.some.inj hyz
          rw [ha.regs q y hz]
          have hqr : q ≠ r := by
            rintro rfl
            exact hyx (Option.some.inj (hz.symm.trans hx))
          simp [unitRegs, hqr]
        | sym | anonObj =>
          rw [hcb] at hb
          obtain rfl : y = X.lregRbp := Option.some.inj hb
          exact agree_rbp ha
        | strLit | floatLit =>
          rw [hcb] at hb
          exact hb.elim
      rw [hzero, add_zero] at hkeep
      exact hne hkeep

theorem evalIndices_toList_zero (o : Option (Reg × BitVec 8)) :
    evalIndices (fun _ => 0) o.toList = 0 := evalIndices_zero _

/-- Indices that have been dropped show in the address when the register of one is one. -/
theorem eq_nil_of_dropped {o : List (Reg × BitVec 8)} (ho : ∀ p ∈ o, p.2 ≠ 0)
    (hlen : 255 * o.length < 2 ^ 64) (h : ∀ r, evalIndices (unitRegs r) o = 0) : o = [] := by
  cases o with
  | nil => rfl
  | cons p o =>
    have hpos := scaleSum_pos (l := p :: o) List.mem_cons_self (ho p List.mem_cons_self)
    rw [← toNat_evalIndices hlen, h p.1] at hpos
    exact absurd hpos (by decide)

/-- So do indices that have been merged with another one. -/
theorem eq_nil_of_merged {o : List (Reg × BitVec 8)} {r : Reg} {s : BitVec 8}
    (ho : ∀ p ∈ o, p.2 ≠ 0) (hs : s ≠ 0) (hlen : 255 * (o.length + 1) < 2 ^ 64)
    (h : ∀ q, unitRegs q r * s.setWidth 64 + evalIndices (unitRegs q) o = unitRegs q r) : o = [] := by
  cases o with
  | nil => rfl
  | cons p o =>
    have hpos := scaleSum_pos (l := p :: o) List.mem_cons_self (ho p List.mem_cons_self)
    have hle := scaleSum_le p.1 (p :: o)
    have hval := toNat_evalIndices (r := p.1) (l := p :: o) (by omega)
    have heq := congrArg BitVec.toNat (h p.1)
    have hlt := s.isLt
    rw [BitVec.toNat_add, hval] at heq
    by_cases hr : r = p.1
    · have hone : unitRegs p.1 r = 1 := if_pos hr
      have hs' : s.toNat ≠ 0 := fun e => hs (BitVec.eq_of_toNat_eq (by simpa using e))
      rw [hone, one_mul, BitVec.toNat_setWidth] at heq
      simp only [BitVec.ofNat_eq_ofNat, BitVec.toNat_ofNat] at heq
      omega
    · have hzero : unitRegs p.1 r = 0 := if_neg hr
      rw [hzero, zero_mul] at heq
      simp only [BitVec.ofNat_eq_ofNat, BitVec.toNat_ofNat] at heq
      omega

/-- The address of a chain in the frame at zero, with all registers zero. -/
theorem eval_zero {y : Option XReg} (hr : c.base.inReg fr = true) (hb : BaseReg X c.base y)
    (ha : Agree fr X (frameEnv fr) (fun _ => 0) v) :
    c.eval (frameEnv fr) (fun _ => 0) = baseVal v y + evalDisps (c.offsets fr) := by
  rw [eval_chain hr hb ha, evalIndices_zero, evalIndices_zero, add_zero, add_zero]

/-- The base register holds the same value in all states that agree. -/
theorem baseVal_eq {y : Option XReg} {v' : XReg → Word} (hr : c.base.inReg fr = true)
    (hb : BaseReg X c.base y) (ha : Agree fr X env regs v) (ha' : Agree fr X env regs v') :
    baseVal v y = baseVal v' y := by
  have h := base_eval hr hb ha
  rw [base_eval hr hb ha'] at h
  exact (add_right_cancel h).symm

theorem Right.lowers {dst : XMemAddr} {n : Nat} (h : Right fr X c l dst)
    (hf : AddrForm fr X c l dst) (hd : Distinct X) (hw : c.Wf n) (hn : 255 * (n + 1) < 2 ^ 64) :
    c.lowers fr = true := by
  have hlen := hw.length
  have hzero := h (fun _ => 0) _ (agree_vregsOf hd _)
  unfold Chain.lowers
  cases hf with
  | label dst form =>
    rw [if_neg (by rw [form.inReg]; simp)]
    obtain ⟨d, hdd⟩ := form.disps
    have heval : ∀ regs, evalIndices regs c.index.toList + d.signExtend 64 = 0 := fun regs => by
      have hr := (h regs _ (agree_vregsOf hd _)).1
      rw [form.eval _ _ regs] at hr
      unfold Chain.eval at hr
      rw [form.outer, hdd, evalIndices_nil, add_zero, evalDisps_singleton, add_assoc] at hr
      exact left_eq_add.mp hr.symm
    have hd0 : d = 0 := by
      have hz := heval fun _ => 0
      rw [evalIndices_zero, zero_add] at hz
      exact signExtend_inj (by decide) (hz.trans (by decide))
    have hnil : c.index.toList = [] := by
      refine eq_nil_of_dropped (fun p hp => hw.index p (by simpa using hp)) ?_ fun r => ?_
      · have : c.index.toList.length ≤ 1 := by cases c.index <;> simp
        omega
      · have hr := heval (unitRegs r)
        rw [hd0] at hr
        simpa using hr
    rw [hdd, hd0]
    simpa using hnil
  | sibd a form =>
    rw [if_pos form.inReg]
    have hfits : ∀ {y : Option XReg}, BaseReg X c.base y →
        a.eval (execAll l (vregsOf X fun _ => 0)) =
          baseVal (execAll l (vregsOf X fun _ => 0)) y + a.disp.signExtend 64 →
        c.dispFits fr = true := fun {y} hb he => by
      have hz := hzero.1
      rw [eval_zero form.inReg hb (agree_vregsOf hd _),
        baseVal_eq form.inReg hb (agree_vregsOf hd _) hzero.2] at hz
      have := add_left_cancel (hz.trans he)
      unfold Chain.dispFits
      rw [← form.disp, this, decide_eq_true_eq]
    cases form.index with
    | consolidated r s x b hi hv hs hx hb hn hl =>
      rw [hl] at h
      exact absurd h (leaSib_not_right hd hx hb hv)
    | dropped hi hbn hb hx hl =>
      have hfit := hfits hb (eval_noIndex hx)
      have hout : c.outer = [] := by
        refine eq_nil_of_dropped hw.outer (by omega) fun r => ?_
        obtain ⟨h1, h2⟩ := h (unitRegs r) _ (agree_vregsOf hd _)
        unfold Chain.dispFits at hfit
        rw [decide_eq_true_eq, ← form.disp] at hfit
        have h1' : _ = a.eval (execAll l (vregsOf X (unitRegs r))) := h1
        rw [eval_chain form.inReg hb (agree_vregsOf hd _), hi, ← hfit, eval_noIndex hx,
          baseVal_eq form.inReg hb (agree_vregsOf hd _) h2] at h1'
        have := add_right_cancel h1'
        simpa using this
      simp [hi, hout, hfit, hbn]
    | kept r s x hi hs hx hb hxr hm =>
      have hfit : c.dispFits fr = true := by
        refine hfits hb ?_
        rw [eval_index hxr, hzero.2.regs r x hx, zero_mul, add_zero]
      rcases hm with ⟨hout, hv, -, -⟩ | ⟨hne, hscale⟩
      · simp [hi, hout, hv, hfit]
      · -- the merged index has scale one
        refine absurd (eq_nil_of_merged (r := r) (s := s) hw.outer hs (by omega) fun q => ?_) hne
        obtain ⟨h1, h2⟩ := h (unitRegs q) _ (agree_vregsOf hd _)
        have h1' : _ = a.eval (execAll l (vregsOf X (unitRegs q))) := h1
        unfold Chain.dispFits at hfit
        rw [decide_eq_true_eq, ← form.disp] at hfit
        rw [eval_chain form.inReg hb (agree_vregsOf hd _), hi, ← hfit, eval_index hxr, hscale,
          h2.regs r x hx, baseVal_eq form.inReg hb (agree_vregsOf hd _) h2, add_assoc (baseVal _ _)]
          at h1'
        have := add_left_cancel (add_right_cancel h1')
        simpa using this

/-! ## Sequences of addresses -/

theorem getAddrWith_chain {getO : MemObjId → XBuild ObjBase} {obj : MemObjId → Option ObjChain}
    (hobj : ∀ o X ob X', getO o X = some (ob, X') → ∃ oc, obj o = some oc) {dst : XMemAddr}
    (h : getAddrWith getO src X = some (dst, X')) : ∃ c, chainWith obj src = some c := by
  unfold getAddrWith at h
  unfold chainWith
  cases hb : src.base with
  | none | reg | strLit | floatLit => exact ⟨_, rfl⟩
  | obj o =>
    simp only [hb] at h ⊢
    obtain ⟨i, X₁, h₁, h₂⟩ := bind_eq_some h
    obtain ⟨ob, X₂, h₃, -⟩ := bind_eq_some h₂
    obtain ⟨oc, hoc⟩ := hobj o _ _ _ h₃
    rw [hoc]
    cases oc <;> exact ⟨_, rfl⟩

theorem getObj_chain (n : Nat) (o : MemObjId) (X : XBuilder) (ob : ObjBase) (X' : XBuilder)
    (h : getObj fr objs n o X = some (ob, X')) : ∃ oc, objChain objs n o = some oc := by
  induction n generalizing o X ob X' with
  | zero => cases h
  | succ n ih =>
    unfold getObj at h
    unfold objChain
    cases ho : objs[o]? with
    | none =>
      rw [ho] at h
      cases h
    | some obj =>
      cases obj with
      | none =>
        rw [ho] at h
        cases h
      | «alias» o' =>
        rw [ho] at h
        exact ih o' _ _ _ h
      | sym s => exact ⟨_, rfl⟩
      | anonObj i => exact ⟨_, rfl⟩
      | addr a =>
        simp only [ho] at h
        obtain ⟨dst, X₁, h₁, -⟩ := bind_eq_some h
        obtain ⟨c, hc⟩ := getAddrWith_chain ih h₁
        exact ⟨.addr c, by simp [hc]⟩

/-- Only addresses with a chain are lowered at all. -/
theorem getAddr_chain {dst : XMemAddr} (h : getAddr fr objs src X = some (dst, X')) :
    ∃ c, chain objs src = some c :=
  getAddrWith_chain (getObj_chain _) h

variable {srcs : List MemAddr} {dsts : List (List XInstr × XMemAddr)}

theorem getAddrs_cons {dst : XMemAddr} (h : getAddr fr objs src X = some (dst, X'))
    (hs : getAddrs fr objs srcs X' = some (dsts, X'')) :
    getAddrs fr objs (src :: srcs) X =
      some ((X'.code.drop X.code.length, dst) :: dsts, X'') := by
  have hget : ∀ Y : XBuilder, (get : XBuild XBuilder) Y = some (Y, Y) := fun _ => rfl
  unfold getAddrs
  rw [bind_eq (hget X), bind_eq h, bind_eq (hget X'), bind_eq hs]
  rfl

theorem getAddrs_cons_inv (h : getAddrs fr objs (src :: srcs) X = some (dsts, X'')) :
    ∃ dst X' dsts', getAddr fr objs src X = some (dst, X') ∧
      getAddrs fr objs srcs X' = some (dsts', X'') ∧
      dsts = (X'.code.drop X.code.length, dst) :: dsts' := by
  unfold getAddrs at h
  obtain ⟨Y, _, h₁, h₂⟩ := bind_eq_some h
  cases h₁
  obtain ⟨dst, X', h₃, h₄⟩ := bind_eq_some h₂
  obtain ⟨Z, _, h₅, h₆⟩ := bind_eq_some h₄
  cases h₅
  obtain ⟨dsts', X₃, h₇, h₈⟩ := bind_eq_some h₆
  cases h₈
  exact ⟨dst, _, dsts', h₃, h₇, rfl⟩

theorem Lowering.drop (h : Lowering X l X') : X'.code.drop X.code.length = l := by
  rw [h.code, List.drop_left]

theorem getAddrs_lowering (h : getAddrs fr objs srcs X = some (dsts, X')) :
    ∃ l, Lowering X l X' := by
  induction srcs generalizing X dsts with
  | nil =>
    cases h
    exact ⟨[], .refl _⟩
  | cons src srcs ih =>
    obtain ⟨dst, X₁, dsts', h₁, h₂, -⟩ := getAddrs_cons_inv h
    obtain ⟨c, hc⟩ := getAddr_chain h₁
    obtain ⟨l₁, hl₁, -⟩ := getAddr_form hc h₁
    obtain ⟨l₂, hl₂⟩ := ih h₂
    exact ⟨_, hl₁.trans hl₂⟩

theorem lowers_inv (h : lowers fr objs src = true) :
    ∃ c, chain objs src = some c ∧ c.lowers fr = true := by
  unfold lowers at h
  split at h
  · exact ⟨_, ‹_›, h⟩
  · cases h

/-- A chain that lowers has a shape in which nothing is asserted in vain. -/
theorem Chain.lowers_plain (h : c.lowers fr = true) :
    c.plain fr = true ∨ c.base.inReg fr = false ∧ ∃ d, c.disps = [d] := by
  unfold Chain.lowers at h
  by_cases hr : c.base.inReg fr = true
  · rw [if_pos hr] at h
    simp only [Bool.and_eq_true] at h
    left
    simp only [Chain.plain, Bool.and_eq_true]
    exact ⟨⟨⟨hr, h.1.1.1⟩, h.1.1.2⟩, h.2⟩
  · rw [if_neg hr] at h
    simp only [Bool.and_eq_true, decide_eq_true_eq] at h
    exact .inr ⟨by simpa using hr, 0, h.2⟩

/-- Addresses that lower are lowered correctly, also where later code has mapped more registers. -/
theorem getAddrs_right (h : ∀ src ∈ srcs, lowers fr objs src = true) (X : XBuilder) :
    ∃ dsts X', getAddrs fr objs srcs X = some (dsts, X') ∧
      ∀ Y env regs v, Ext X' Y → Agree fr Y env regs v →
        RunsRight fr objs Y env regs srcs dsts v := by
  induction srcs generalizing X with
  | nil => exact ⟨[], X, rfl, fun _ _ _ _ _ _ => trivial⟩
  | cons src srcs ih =>
    obtain ⟨c, hc, hlow⟩ := lowers_inv (h src List.mem_cons_self)
    obtain ⟨dst, X₁, hrun⟩ := getAddr_succeeds (X := X) hc (Chain.lowers_plain hlow)
    obtain ⟨l, hl, hf⟩ := getAddr_form hc hrun
    obtain ⟨dsts, X₂, hruns, hright⟩ := ih (fun s hs => h s (List.mem_cons_of_mem _ hs)) X₁
    obtain ⟨l₂, hl₂⟩ := getAddrs_lowering hruns
    refine ⟨_, X₂, getAddrs_cons hrun hruns, fun Y env regs v hY ha => ?_⟩
    obtain ⟨hnil, heval⟩ := (hf.ext (hl₂.ext.trans hY)).right hlow ha
    rw [hl.drop, hnil]
    refine ⟨?_, ha, hright Y env regs v hY ha⟩
    rw [addrOf_chain, hc, Option.map_some, heval]
    rfl

/-- Addresses that are lowered correctly lower. -/
theorem lowers_of_right {Y : XBuilder} (hobjs : 2 ^ 56 > objs.length) (hd : Distinct Y)
    (h : getAddrs fr objs srcs X = some (dsts, X')) (hY : Ext X' Y)
    (hright : ∀ env regs v, Agree fr Y env regs v → RunsRight fr objs Y env regs srcs dsts v) :
    ∀ src ∈ srcs, lowers fr objs src = true := by
  induction srcs generalizing X dsts with
  | nil => simp
  | cons src srcs ih =>
    obtain ⟨dst, X₁, dsts', h₁, h₂, rfl⟩ := getAddrs_cons_inv h
    obtain ⟨c, hc⟩ := getAddr_chain h₁
    obtain ⟨l, hl, hf⟩ := getAddr_form hc h₁
    obtain ⟨l₂, hl₂⟩ := getAddrs_lowering h₂
    have hf' := hf.ext (hl₂.ext.trans hY)
    rw [hl.drop] at hright
    have hlow : c.lowers fr = true := by
      refine Right.lowers (n := objs.length + 2) ?_ hf' hd (chain_wf hc) (by omega)
      intro regs v ha
      obtain ⟨heval, hkeep, -⟩ := hright _ _ _ ha
      rw [addrOf_chain, hc, Option.map_some] at heval
      exact ⟨Option.some.inj heval, hkeep⟩
    have ha : Agree fr Y (frameEnv fr) (fun _ => 0) (vregsOf Y fun _ => 0) := agree_vregsOf hd _
    have hnil : l = [] := (hf'.right hlow ha).1
    rw [hnil] at hright
    intro s hs
    rcases List.mem_cons.mp hs with rfl | hs
    · unfold lowers
      rw [hc]
      exact hlow
    · exact ih h₂ (fun env regs v ha => (hright env regs v ha).2.2) s hs

/-- Nothing has been mapped but `rbp`. -/
def XBuilder.start : XBuilder :=
  ⟨fun _ => none, id, 1, 0, [], by decide, fun _ _ h => (by cases h), fun _ h => h⟩

theorem distinct_start : Distinct .start :=
  ⟨fun _ _ _ h => (by cases h), fun _ h => (by cases h)⟩

theorem lowers_of_correct {fr : Frame} {objs : List MemObj} {srcs : List MemAddr}
    (hobjs : 2 ^ 56 > objs.length) (h : GetAddrsCorrect fr objs srcs) :
    ∀ src ∈ srcs, lowers fr objs src = true := by
  obtain ⟨dsts, X', hrun, hright⟩ := h .start
  obtain ⟨l, hl⟩ := getAddrs_lowering hrun
  exact lowers_of_right hobjs (hl.distinct distinct_start) hrun (.refl X') hright

/-- `XIR_get_addr` is right, however many addresses are lowered one after the other, exactly when
each of them lowers. -/
theorem getAddrs_correct_iff (fr : Frame) (objs : List MemObj) (srcs : List MemAddr)
    (hobjs : 2 ^ 56 > objs.length) :
    GetAddrsCorrect fr objs srcs ↔ ∀ src ∈ srcs, lowers fr objs src = true := by
  constructor
  · exact lowers_of_correct hobjs
  · intro h X
    obtain ⟨dsts, X', hrun, hright⟩ := getAddrs_right h X
    exact ⟨dsts, X', hrun, fun env regs v ha => hright X' env regs v (.refl X') ha⟩

/-- The symbol 0 is a local at `rbp - 16`, all others are global. -/
def oneLocal : Frame := ⟨fun s => s = 0, fun _ => -16, fun _ => -32⟩

/-- An element of an array of eight-byte elements, loaded and stored, and a local variable. -/
theorem getAddrs_correct_elem : GetAddrsCorrect oneLocal [.sym 0, .addr ⟨.obj 0, some 1, 8, 24⟩]
    [⟨.obj 1, none, 0, 4⟩, ⟨.obj 1, none, 0, 4⟩, ⟨.obj 0, none, 0, 0⟩] :=
  (getAddrs_correct_iff oneLocal _ _ (by decide)).mpr (by decide)

/-- Elements of twelve bytes are computed into the register of the index; an element of a global
array is taken for the array. -/
theorem getAddrs_clobbers_index :
    ¬ GetAddrsCorrect oneLocal [] [⟨.reg 0, some 1, 12, 0⟩] ∧
    ¬ GetAddrsCorrect oneLocal [.sym 1] [⟨.obj 0, some 1, 4, 0⟩] := by
  refine ⟨fun h => ?_, fun h => ?_⟩
  · exact absurd (lowers_of_correct (by decide) h _ List.mem_cons_self) (by decide)
  · exact absurd (lowers_of_correct (by decide) h _ List.mem_cons_self) (by decide)

end Nibble.XIR
