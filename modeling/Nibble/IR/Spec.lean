import Nibble.IR.Value
import Nibble.IR.ScList

/-!
# What emitted code does

The contracts of emission. `Code` is the static part: what was added, and
which of the new conditional jumps still have no target. `ValSpec` says what
running the code reaches. `LostJmp` describes a builder in which a conditional
jump can no longer be reached from any list of pending jumps: it will never
receive a target.
-/

namespace Nibble.IR

open Nibble.Lib

variable {B B' B'' : ProcBuilder} {b b' b'' : Nat} {env : Env} {σ σ' σ'' : MState}

/-- From block `b` of `B` to block `b'` of `B'`. Of the new conditional jumps those of `O` have no
target yet, the others have received theirs exactly once. -/
structure Code (b : Nat) (B : ProcBuilder) (b' : Nat) (B' : ProcBuilder) (O : Nat → Prop) : Prop where
  emits : Emits b B B'
  isOpen : B'.IsOpen b'
  fresh : b' = b ∨ b' ≥ B.bblocks.length
  range : ∀ j, O j → B.instrs.length ≤ j ∧ j < B'.instrs.length
  patches : ∃ l : List Nat, B'.patched = B.patched ++ l ∧
    (∀ j ∈ l, B.instrs.length ≤ j ∧ j < B'.instrs.length) ∧
    ∀ (j : Nat) s t f a, B.instrs.length ≤ j → B'.instrs[j]? = some (.condJmp s t f a) →
      (O j → l.count j = 0) ∧ (¬ O j → l.count j = 1)

theorem Code.refl {O : Nat → Prop} (ho : B.IsOpen b) (hO : ∀ j, ¬ O j) : Code b B b B O := by
  refine ⟨.refl b B, ho, .inl rfl, fun j hj => (hO j hj).elim, [], by simp, by simp,
    fun j s t f a hj hx => ?_⟩
  have := (List.getElem?_eq_some_iff.mp hx).1
  omega

theorem Code.congr {O O' : Nat → Prop} (h : Code b B b' B' O)
    (hO : ∀ j s t f a, B'.instrs[j]? = some (.condJmp s t f a) → (O' j ↔ O j))
    (hr : ∀ j, O' j → B.instrs.length ≤ j ∧ j < B'.instrs.length) : Code b B b' B' O' := by
  obtain ⟨l, hl, hlr, hc⟩ := h.patches
  refine ⟨h.emits, h.isOpen, h.fresh, hr, l, hl, hlr, fun j s t f a hj hx => ?_⟩
  rw [hO j s t f a hx]
  exact hc j s t f a hj hx

theorem Code.trans {O O' : Nat → Prop} (h : Code b B b' B' O) (h' : Code b' B' b'' B'' O') :
    Code b B b'' B'' (fun j => O j ∨ O' j) := by
  have hlen := h.emits.instrs.length_le
  have hlen' := h'.emits.instrs.length_le
  have hbl := h.emits.length
  obtain ⟨l, hl, hlr, hc⟩ := h.patches
  obtain ⟨l', hl', hlr', hc'⟩ := h'.patches
  refine ⟨h.emits.trans h'.emits h.fresh, h'.isOpen, ?_, fun j hj => ?_, l ++ l',
    by rw [hl', hl, List.append_assoc], fun j hj => ?_, fun j s t f a hj hx => ?_⟩
  · rcases h'.fresh with rfl | h2
    · exact h.fresh
    · exact .inr (by omega)
  · rcases hj with hj | hj
    · have := h.range j hj
      omega
    · have := h'.range j hj
      omega
  · rcases List.mem_append.mp hj with hj | hj
    · have := hlr j hj
      omega
    · have := hlr' j hj
      omega
  · rw [List.count_append]
    rcases Nat.lt_or_ge j B'.instrs.length with hlt | hge
    · have hx' := h'.emits.getElem? (List.getElem?_eq_getElem hlt)
      rw [hx] at hx'
      have h1 := hc j s t f a hj (by rw [List.getElem?_eq_getElem hlt, ← hx'])
      have h2 : l'.count j = 0 := List.count_eq_zero.mpr fun hm => by
        have := hlr' j hm
        omega
      have h3 : ¬ O' j := fun ho => by
        have := h'.range j ho
        omega
      simpa [h2, h3] using h1
    · have h1 := hc' j s t f a hge hx
      have h2 : l.count j = 0 := List.count_eq_zero.mpr fun hm => by
        have := hlr j hm
        omega
      have h3 : ¬ O j := fun ho => by
        have := h.range j ho
        omega
      simpa [h2, h3] using h1

theorem Straight.code {O : Nat → Prop} (h : Straight b B B') (hO : ∀ j, ¬ O j) :
    Code b B b B' O := by
  refine ⟨h.emits, h.isOpen, .inl rfl, fun j hj => (hO j hj).elim, [], by simp [h.patched],
    by simp, fun j s t f a hj hx => ?_⟩
  cases h.plain j _ hj hx

theorem Code.straight {O : Nat → Prop} (h : Code b B b' B' O) (hs : Straight b' B' B'') :
    Code b B b' B'' O := by
  refine (h.trans (hs.code (O := fun _ => False) fun _ hf => hf)).congr
    (fun j _ _ _ _ _ => by simp) fun j hj => ?_
  have := h.range j hj
  have := hs.emits.instrs.length_le
  omega

/-- Running the code from `b` in `B` to `b'` in `B'` computes `sem`, and leaves a state in which
`Q` holds of the result. -/
structure ValSpec {α : Type} (sem : Env → Store → Store × α) (b : Nat) (B : ProcBuilder) (b' : Nat)
    (B' : ProcBuilder) (Q : Env → MState → α → Prop) : Prop where
  code : Code b B b' B' fun _ => False
  run : ∀ env σ, ∃ σ', Runs env b B σ b' B' σ' ∧
    After B.numRegs σ (sem env σ.store).1 σ' ∧ Q env σ' (sem env σ.store).2

theorem ValSpec.straight {α : Type} {sem : Env → Store → Store × α} {Q Q' : Env → MState → α → Prop}
    (h : ValSpec sem b B b' B' Q) (hs : Straight b' B' B'')
    (hrun : ∀ env σ v, Q env σ v → ∃ σ', Runs env b' B' σ b' B'' σ' ∧
      After B'.numRegs σ σ.store σ' ∧ Q' env σ' v) : ValSpec sem b B b' B'' Q' := by
  refine ⟨h.code.straight hs, fun env σ => ?_⟩
  obtain ⟨σ₁, hr₁, ha₁, hq₁⟩ := h.run env σ
  obtain ⟨σ₂, hr₂, ha₂, hq₂⟩ := hrun env σ₁ _ hq₁
  refine ⟨σ₂, hr₁.trans hr₂ h.code.emits.instrs.length_le hs.emits.future, ?_, hq₂⟩
  rw [ha₁.store] at ha₂
  exact ha₁.trans ha₂ h.code.emits.numRegs

/-! ## A jump that is lost -/

/-- `J` has no target, and none of the nodes of `A`, which are all that emission can reach from
here on, describes it. `Q` is the patch history when emission began. In the middle of a loop over
a list, `A` may also lead to the node `it` that the loop has come to. -/
structure LostJmp (Q : List InstrId) (J : Nat) (A : Nat → Prop) (it : Option Nat)
    (B : ProcBuilder) : Prop where
  jump : ∃ s f a, B.instrs[J]? = some (.condJmp s none f a)
  unpatched : ∃ l, B.patched = Q ++ l ∧ J ∉ l
  free : ∀ n, B.scJmpFreelist = some n → A n
  nodes : ∀ n d, A n → B.scJmps[n]? = some d →
    (∀ m, d.next = some m → A m ∨ it = some m) ∧ d.jmp ≠ some J
  new : ∀ n : Nat, B.scJmps.length ≤ n → A n

end Nibble.IR
