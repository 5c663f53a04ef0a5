import Nibble.Lib.Triple
import Nibble.IR.DeadBlocks

/-!
# One round of dead block removal

`Preds` is the invariant of `IR_rm_dead_bblocks`: the predecessor lists of the
blocks in the array count the jumps. Under it, a round leaves the array alone,
drops an empty block, or threads a block that only jumps.
-/

namespace Nibble.IR

open Nibble.Lib Nibble.Lib.Flow

variable {B B' : ProcBuilder} {arr : List BBlockId} {b t p : BBlockId}

theorem removeSwap_append {α : Type} (l r : List α) (x : α) :
    ∃ r', removeSwap (l ++ x :: r) l.length = l ++ r' ∧ r'.Perm r := by
  unfold removeSwap
  rcases List.eq_nil_or_concat r with rfl | ⟨r, y, rfl⟩
  · refine ⟨[], ?_, .refl _⟩
    simp
  · refine ⟨y :: r, ?_, ?_⟩
    · have hlast : (l ++ x :: (r ++ [y])).getLast? = some y := by
        rw [show l ++ x :: (r ++ [y]) = (l ++ x :: r) ++ [y] by simp]
        exact List.getLast?_concat ..
      rw [List.concat_eq_append, hlast]
      simp only
      rw [List.set_append_right _ _ (Nat.le_refl _), Nat.sub_self, List.set_cons_zero,
        show l ++ y :: (r ++ [y]) = (l ++ y :: r) ++ [y] by simp, List.dropLast_concat]
    · rw [List.concat_eq_append]
      exact (List.perm_append_singleton y r).symm

/-! ## Edges -/

/-- The targets of an exit. -/
def exitTargets : Exit BBlockId → List (Option BBlockId)
  | .ret | .fall => []
  | .jump t => [t]
  | .branch ts => ts

namespace ProcBuilder

def preds (B : ProcBuilder) (b : BBlockId) : List BBlockId := ((B.bblocks[b]?).map (·.preds)).getD []

/-- Where control may go from a block. -/
def succs (B : ProcBuilder) (b : BBlockId) : List (Option BBlockId) :=
  ((B.bblocks[b]?).map fun bb => exitTargets (B.node bb).exit).getD []

/-- `b` is the fall-through block of `p`. -/
def FallsInto (B : ProcBuilder) (p b : BBlockId) : Prop :=
  ∃ j s t a, B.lastInstr p = some (j, .condJmp s t b a)

/-- `b` has a jump as its only instruction. -/
def OnlyJumps (B : ProcBuilder) (b : BBlockId) (t : Option BBlockId) : Prop :=
  ∃ bb j s, B.bblocks[b]? = some bb ∧ bb.instrs = [j] ∧ B.instrs[j]? = some (.jmp s t)

/-- `IR_rm_dead_bblocks` takes `b` for a block it can remove. -/
structure Removable (B : ProcBuilder) (b : BBlockId) : Prop where
  jumps : ∃ t, B.OnlyJumps b t
  preds : B.preds b ≠ []
  noFall : ∀ p ∈ B.preds b, ¬ B.FallsInto p b

/-- `p` ends in a switch. -/
def EndsInSwitch (B : ProcBuilder) (p : BBlockId) : Prop :=
  ∃ j s v ts rs, B.lastInstr p = some (j, .switchCaseJmp s v ts rs)

/-- The invariant of the predecessor lists of the blocks in the array. -/
structure Preds (B : ProcBuilder) (arr : List BBlockId) : Prop where
  nodup : arr.Nodup
  valid : ∀ b ∈ arr, ∃ bb, B.bblocks[b]? = some bb ∧ ∀ j ∈ bb.instrs, ∃ i, B.instrs[j]? = some i
  last : ∀ p ∈ arr, ∀ q ∈ arr, ∀ j i i', B.lastInstr p = some (j, i) → B.lastInstr q = some (j, i') →
    p = q
  target : ∀ p ∈ arr, ∀ t, some t ∈ B.succs p → ∃ bt, B.bblocks[t]? = some bt
  mem : ∀ b ∈ arr, ∀ p ∈ B.preds b, p ∈ arr
  count : ∀ b ∈ arr, ∀ p ∈ arr, (B.preds b).count p = (B.succs p).count (some b)

end ProcBuilder

theorem lastInstr_eq_some {j : InstrId} {i : Instr} : B.lastInstr b = some (j, i) ↔
    ∃ bb, B.bblocks[b]? = some bb ∧ bb.instrs.getLast? = some j ∧ B.instrs[j]? = some i := by
  unfold ProcBuilder.lastInstr
  cases hb : B.bblocks[b]? with
  | none => simp
  | some bb =>
    cases hj : bb.instrs.getLast? with
    | none => simp [hj]
    | some k =>
      cases hi : B.instrs[k]? with
      | none =>
        simp only [Option.bind_eq_bind, Option.bind_some, hj, hi, Option.bind_none]
        constructor
        · intro h
          cases h
        · rintro ⟨bb', h1, h2, h3⟩
          cases h1
          rw [hj] at h2
          cases h2
          rw [hi] at h3
          cases h3
      | some i' =>
        simp only [Option.bind_eq_bind, Option.bind_some, hj, hi]
        constructor
        · intro h
          cases h
          exact ⟨bb, rfl, hj, hi⟩
        · rintro ⟨bb', h1, h2, h3⟩
          cases h1
          rw [hj] at h2
          cases h2
          rw [hi] at h3
          cases h3
          rfl

theorem node_of_lastInstr {j : InstrId} {i : Instr} {bb : BBlock} (hb : B.bblocks[b]? = some bb)
    (h : B.lastInstr b = some (j, i)) :
    B.node bb = ⟨if i.isJump then bb.instrs.dropLast else bb.instrs, i.exit⟩ := by
  obtain ⟨bb', h1, h2, h3⟩ := lastInstr_eq_some.mp h
  rw [hb] at h1
  cases h1
  unfold ProcBuilder.node
  rw [h2, Option.bind_some, h3]

theorem succs_of_lastInstr {j : InstrId} {i : Instr} (h : B.lastInstr b = some (j, i)) :
    B.succs b = exitTargets i.exit := by
  obtain ⟨bb, hb, -, -⟩ := lastInstr_eq_some.mp h
  unfold ProcBuilder.succs
  rw [hb, Option.map_some, node_of_lastInstr hb h]
  rfl

/-- A block with successors has a last instruction. -/
theorem lastInstr_of_mem_succs {x : Option BBlockId} (h : x ∈ B.succs b) :
    ∃ j i, B.lastInstr b = some (j, i) := by
  unfold ProcBuilder.succs at h
  cases hb : B.bblocks[b]? with
  | none => simp [hb] at h
  | some bb =>
    rw [hb, Option.map_some, Option.getD_some] at h
    unfold ProcBuilder.node at h
    cases hj : bb.instrs.getLast? with
    | none => simp [hj, exitTargets] at h
    | some j =>
      cases hi : B.instrs[j]? with
      | none => simp [hj, hi, exitTargets] at h
      | some i => exact ⟨j, i, lastInstr_eq_some.mpr ⟨bb, hb, hj, hi⟩⟩

/-! ## Redirecting the predecessors -/

namespace Instr

def withTarget (t : BBlockId) : Instr → Instr
  | jmp s _ => jmp s (some t)
  | condJmp s _ f a => condJmp s (some t) f a
  | i => i

/-- The instruction jumps to `b`, or branches to `b` when its condition is true. -/
def JumpsTo (b : BBlockId) : Instr → Prop
  | jmp _ t => t = some b
  | condJmp _ t _ _ => t = some b
  | _ => False

theorem exit_withTarget {i : Instr} (h : i.JumpsTo b) (hf : ∀ s t a, i ≠ condJmp s t b a) :
    (i.withTarget t).exit = i.exit.map (redirect b t) := by
  cases i with
  | jmp s u =>
    cases (show u = some b from h)
    show Exit.jump (some t) = Exit.jump ((some b).map (redirect b t))
    rw [Option.map_some, redirect_self]
  | condJmp s u f a =>
    cases (show u = some b from h)
    have hne : f ≠ b := by
      rintro rfl
      exact hf s _ a rfl
    show Exit.branch [some t, some f] = Exit.branch ([some b, some f].map (Option.map (redirect b t)))
    simp [redirect_other hne]
  | _ => exact h.elim

theorem isJump_withTarget (i : Instr) : (i.withTarget t).isJump = i.isJump := by
  cases i <;> rfl

end Instr

theorem exitTargets_map (f : BBlockId → BBlockId) (e : Exit BBlockId) :
    exitTargets (e.map f) = (exitTargets e).map (Option.map f) := by
  cases e <;> rfl

theorem exit_map_of_not_mem {e : Exit BBlockId} (h : some b ∉ exitTargets e) :
    e.map (redirect b t) = e := by
  have hid : ∀ x ∈ exitTargets e, Option.map (redirect b t) x = x := by
    intro x hx
    cases x with
    | none => rfl
    | some c =>
      rw [Option.map_some, redirect_other]
      rintro rfl
      exact h hx
  cases e with
  | ret | fall => rfl
  | jump u => exact congrArg Exit.jump (hid u List.mem_cons_self)
  | branch ts =>
    refine congrArg Exit.branch ?_
    calc ts.map (Option.map (redirect b t)) = ts.map id := List.map_congr_left hid
      _ = ts := List.map_id _

/-- The jumps of the blocks `ps` go to `t`, and `ps` has joined the predecessors of `t`. -/
structure Retargets (B : ProcBuilder) (t : BBlockId) (ps : List BBlockId) (B' : ProcBuilder) :
    Prop where
  block : ∀ x, B'.bblocks[x]? =
    (B.bblocks[x]?).map fun bb => if x = t then { bb with preds := bb.preds ++ ps } else bb
  hit : ∀ p ∈ ps, ∀ j i, B.lastInstr p = some (j, i) → B'.instrs[j]? = some (i.withTarget t)
  miss : ∀ j i, B.instrs[j]? = some i → (∀ p ∈ ps, ∀ i', B.lastInstr p ≠ some (j, i')) →
    B'.instrs[j]? = some i

theorem Retargets.lastId {ps : List BBlockId} (h : Retargets B t ps B') {x : BBlockId} {j : InstrId}
    {i : Instr} (hx : B.lastInstr x = some (j, i)) (i' : Instr) (hi : B'.instrs[j]? = some i') :
    B'.lastInstr x = some (j, i') := by
  obtain ⟨bb, h1, h2, -⟩ := lastInstr_eq_some.mp hx
  refine lastInstr_eq_some.mpr ⟨_, by rw [h.block, h1, Option.map_some], ?_, hi⟩
  split <;> exact h2

theorem Retargets.lastId_back {ps : List BBlockId} (h : Retargets B t ps B') {x : BBlockId}
    {j : InstrId} {i' : Instr} (hx : B'.lastInstr x = some (j, i'))
    (hv : ∃ i, B.instrs[j]? = some i) : ∃ i, B.lastInstr x = some (j, i) := by
  obtain ⟨bb, h1, h2, -⟩ := lastInstr_eq_some.mp hx
  obtain ⟨i, hi⟩ := hv
  rw [h.block] at h1
  obtain ⟨bb', h3, rfl⟩ := Option.map_eq_some_iff.mp h1
  refine ⟨i, lastInstr_eq_some.mpr ⟨bb', h3, ?_, hi⟩⟩
  split at h2 <;> exact h2

theorem exists_instr {j : InstrId} {i' : Instr} (hi : B'.instrs[j]? = some i') (hlen : B'.instrs.length = B.instrs.length) :
    ∃ i, B.instrs[j]? = some i := by
  have hj := (List.getElem?_eq_some_iff.mp hi).1
  exact ⟨_, List.getElem?_eq_getElem (by omega)⟩

theorem retargetPred_run {j : InstrId} {i : Instr} {bt : BBlock}
    (hl : B.lastInstr p = some (j, i)) (hj : i.JumpsTo b) (ht : B.bblocks[t]? = some bt) :
    ∃ B₁, retargetPred b t p B = some ((), B₁) ∧ Retargets B t [p] B₁ ∧
      B₁.instrs.length = B.instrs.length := by
  have hlt : B.instrs.length > j := by
    obtain ⟨-, -, -, hi⟩ := lastInstr_eq_some.mp hl
    exact (List.getElem?_eq_some_iff.mp hi).1
  have htl : B.bblocks.length > t := (List.getElem?_eq_some_iff.mp ht).1
  refine ⟨{ B with
    instrs := B.instrs.set j (i.withTarget t)
    bblocks := B.bblocks.set t { bt with preds := bt.preds ++ [p] } }, ?_, ?_, by simp⟩
  · unfold retargetPred
    cases i with
    | jmp s u =>
      cases (show u = some b from hj)
      simp [bind, StateT.bind, get, getThe, MonadStateOf.get, StateT.get, pure, hl, check, setInstr,
        connectBBlocks, ht, statePure_run, Instr.withTarget]
    | condJmp s u f a =>
      cases (show u = some b from hj)
      simp [bind, StateT.bind, get, getThe, MonadStateOf.get, StateT.get, pure, hl, check, setInstr,
        connectBBlocks, ht, statePure_run, Instr.withTarget]
    | _ => exact hj.elim
  · refine ⟨fun x => ?_, fun q hq k i' hk => ?_, fun k i' hk hno => ?_⟩
    · by_cases e : x = t
      · subst e
        show (B.bblocks.set x _)[x]? = _
        rw [List.getElem?_set_self htl, ht, Option.map_some, if_pos rfl]
      · rw [List.getElem?_set_ne (Ne.symm e)]
        simp [e]
    · rw [List.mem_singleton] at hq
      subst hq
      rw [hl] at hk
      cases hk
      exact List.getElem?_set_self hlt
    · have hne : j ≠ k := by
        rintro rfl
        exact hno p (List.mem_singleton.mpr rfl) _ hl
      show (B.instrs.set j _)[k]? = _
      rw [List.getElem?_set_ne hne, hk]

/-- Different blocks of `ps` have different last instructions. -/
def LastInj (B : ProcBuilder) (ps : List BBlockId) : Prop :=
  ∀ p ∈ ps, ∀ q ∈ ps, ∀ j i i', B.lastInstr p = some (j, i) → B.lastInstr q = some (j, i') → p = q

theorem retargetPreds_run {ps : List BBlockId} (hnd : ps.Nodup) (hinj : LastInj B ps)
    (hj : ∀ p ∈ ps, ∃ j i, B.lastInstr p = some (j, i) ∧ i.JumpsTo b)
    (ht : ∃ bt, B.bblocks[t]? = some bt) :
    ∃ B', retargetPreds b t ps B = some ((), B') ∧ Retargets B t ps B' ∧
      B'.instrs.length = B.instrs.length := by
  induction ps generalizing B with
  | nil =>
    refine ⟨B, rfl, ⟨fun x => ?_, by simp, fun _ _ h _ => h⟩, rfl⟩
    cases B.bblocks[x]? <;> simp
  | cons p ps ih =>
    obtain ⟨hp, hnd'⟩ := List.nodup_cons.mp hnd
    obtain ⟨j, i, hl, hji⟩ := hj p List.mem_cons_self
    obtain ⟨bt, hbt⟩ := ht
    obtain ⟨B₁, hrun, hr, hlen⟩ := retargetPred_run hl hji hbt
    -- the other blocks still end as before
    have hother : ∀ q ∈ ps, ∀ k i', B.lastInstr q = some (k, i') → B₁.lastInstr q = some (k, i') := by
      intro q hq k i' hk
      obtain ⟨-, -, -, hi⟩ := lastInstr_eq_some.mp hk
      refine hr.lastId hk i' (hr.miss k i' hi fun r hrp i'' hr' => ?_)
      rw [List.mem_singleton] at hrp
      subst hrp
      have := hinj r List.mem_cons_self q (List.mem_cons_of_mem _ hq) k _ _ hr' hk
      subst this
      exact hp hq
    have hback : ∀ q k i', B₁.lastInstr q = some (k, i') → ∃ i, B.lastInstr q = some (k, i) := by
      intro q k i' hk
      obtain ⟨-, -, -, hi⟩ := lastInstr_eq_some.mp hk
      exact hr.lastId_back hk (exists_instr hi hlen)
    obtain ⟨B', hrun', hr', hlen'⟩ := ih (B := B₁) hnd'
      (fun q hq r hr k i' i'' h1 h2 => by
        obtain ⟨_, h1'⟩ := hback q k i' h1
        obtain ⟨_, h2'⟩ := hback r k i'' h2
        exact hinj q (List.mem_cons_of_mem _ hq) r (List.mem_cons_of_mem _ hr) k _ _ h1' h2')
      (fun q hq => by
        obtain ⟨k, i', hk, hki⟩ := hj q (List.mem_cons_of_mem _ hq)
        exact ⟨k, i', hother q hq k i' hk, hki⟩)
      ⟨_, by rw [hr.block, hbt]; rfl⟩
    refine ⟨B', ?_, ⟨fun x => ?_, fun q hq k i' hk => ?_, fun k i' hk hno => ?_⟩, hlen'.trans hlen⟩
    · show (retargetPred b t p >>= fun _ => retargetPreds b t ps) B = _
      simp only [bind, StateT.bind, hrun]
      exact hrun'
    · rw [hr'.block, hr.block, Option.map_map]
      cases B.bblocks[x]? with
      | none => rfl
      | some bb =>
        simp only [Option.map_some, Function.comp]
        split <;> simp
    · rcases List.mem_cons.mp hq with rfl | hq
      · refine hr'.miss k _ (hr.hit q (List.mem_singleton.mpr rfl) k i' hk) fun r hrs i'' h2 => ?_
        obtain ⟨_, h2'⟩ := hback r k i'' h2
        have := hinj q List.mem_cons_self r (List.mem_cons_of_mem _ hrs) k _ _ hk h2'
        subst this
        exact hp hrs
      · exact hr'.hit q hq k i' (hother q hq k i' hk)
    · have h1 := hr.miss k i' hk fun r hrp i'' => by
        rw [List.mem_singleton] at hrp
        subst hrp
        exact hno r List.mem_cons_self i''
      refine hr'.miss k i' h1 fun r hrs i'' h2 => ?_
      obtain ⟨_, h2'⟩ := hback r k i'' h2
      exact hno r (List.mem_cons_of_mem _ hrs) _ h2'

theorem retargetPred_inv {u : Unit} (h : retargetPred b t p B = some (u, B')) :
    (∃ j i, B.lastInstr p = some (j, i) ∧ i.JumpsTo b) ∧ ∃ bt, B.bblocks[t]? = some bt := by
  unfold retargetPred at h
  obtain ⟨_, _, h₁, h₂⟩ := bind_eq_some h
  cases h₁
  have hcheck : ∀ {c : Bool} {u : Unit} {C C' : ProcBuilder}, check c C = some (u, C') →
      c = true ∧ C' = C := by
    intro c u C C' hc
    unfold check at hc
    split at hc
    · cases hc
      exact ⟨‹_›, rfl⟩
    · cases hc
  have hconn : ∀ {u : Unit} {C C' : ProcBuilder}, connectBBlocks p t C = some (u, C') →
      ∃ bt, C.bblocks[t]? = some bt := by
    intro u C C' hc
    unfold connectBBlocks at hc
    split at hc
    · exact ⟨_, ‹_›⟩
    · cases hc
  split at h₂
  · rename_i j s u hl
    obtain ⟨_, C, h₃, h₄⟩ := bind_eq_some h₂
    obtain ⟨hc, rfl⟩ := hcheck h₃
    obtain ⟨_, D, h₅, h₆⟩ := bind_eq_some h₄
    cases h₅
    have htarget : u = some b := of_decide_eq_true hc
    have hbt := hconn (C := { C with instrs := _ }) h₆
    exact ⟨⟨j, .jmp s u, hl, htarget⟩, hbt⟩
  · rename_i j s u f a hl
    obtain ⟨_, C, h₃, h₄⟩ := bind_eq_some h₂
    obtain ⟨hc, rfl⟩ := hcheck h₃
    obtain ⟨_, D, h₅, h₆⟩ := bind_eq_some h₄
    cases h₅
    have htarget : u = some b := of_decide_eq_true hc
    have hbt := hconn (C := { C with instrs := _ }) h₆
    exact ⟨⟨j, .condJmp s u f a, hl, htarget⟩, hbt⟩
  · cases h₂

/-- A predecessor that ends in a switch is not expected. -/
theorem retargetPreds_switch {ps : List BBlockId} (hp : p ∈ ps) (hs : B.EndsInSwitch p) :
    retargetPreds b t ps B = none := by
  induction ps generalizing B with
  | nil => cases hp
  | cons q ps ih =>
    cases hrun : retargetPreds b t (q :: ps) B with
    | none => rfl
    | some r =>
      exfalso
      have hrun' : (retargetPred b t q >>= fun _ => retargetPreds b t ps) B = some (r.1, r.2) := hrun
      obtain ⟨_, B₁, h₁, h₂⟩ := bind_eq_some hrun'
      obtain ⟨⟨j, i, hl, hj⟩, bt, hbt⟩ := retargetPred_inv h₁
      obtain ⟨_, hrun₁, hr, -⟩ := retargetPred_run hl hj hbt
      rw [h₁] at hrun₁
      cases hrun₁
      obtain ⟨k, s, v, ts, rs, hk⟩ := hs
      have hne : ∀ i', B.lastInstr q ≠ some (k, i') := by
        intro i' hq
        obtain ⟨-, -, -, hi₁⟩ := lastInstr_eq_some.mp hq
        obtain ⟨-, -, -, hi₂⟩ := lastInstr_eq_some.mp hk
        rw [hi₁] at hi₂
        cases hi₂
        rw [hl] at hq
        cases hq
        exact hj
      rcases List.mem_cons.mp hp with rfl | hp
      · exact hne _ hk
      · obtain ⟨-, -, -, hi⟩ := lastInstr_eq_some.mp hk
        have hswitch : B₁.EndsInSwitch p := by
          refine ⟨k, s, v, ts, rs, hr.lastId hk _ (hr.miss k _ hi fun x hx => ?_)⟩
          rw [List.mem_singleton] at hx
          subst hx
          exact hne
        rw [ih hp hswitch] at h₂
        cases h₂

end Nibble.IR
