import Mathlib.Data.Nat.Basic
import Nibble.Lib.Live
import Nibble.XIR.Live

/-!
# When live intervals are conservative

The interval of a register contains every instruction that mentions it. Where
control only moves forward, that is enough. A value that a back edge carries is
live on the whole way around, so the interval is conservative exactly if both
ends of each such edge lie in it.
-/

namespace Nibble.XIR

open Nibble.Lib.Live

namespace LiveRanges

/-- The interval of a root contains an instruction number. -/
def Contains (ranges : LiveRanges) (root : XReg) (ino : Nat) : Prop :=
  ∃ r ∈ ranges root, r.start ≤ ino ∧ ino ≤ r.stop

/-- No interval ends before it starts. -/
def Ordered (ranges : LiveRanges) : Prop := ∀ root, ∀ r ∈ ranges root, r.start ≤ r.stop

/-- What was contained stays so. -/
def Grows (a b : LiveRanges) : Prop := ∀ root ino, a.Contains root ino → b.Contains root ino

theorem Grows.refl (a : LiveRanges) : a.Grows a := fun _ _ h => h

theorem Grows.trans {a b c : LiveRanges} (h : a.Grows b) (h' : b.Grows c) : a.Grows c :=
  fun root ino hc => h' root ino (h root ino hc)

end LiveRanges

namespace LirProc

variable {p : LirProc} {ranges ranges' : LiveRanges} {ino : Nat} {root : XReg}

/-- A touch extends the interval of the root to the instruction. -/
theorem touchLreg_spec {lreg : XReg} (ho : ranges.Ordered)
    (h : p.touchLreg ino ranges lreg = some ranges') :
    ranges'.Ordered ∧ ranges.Grows ranges' ∧
      ∀ root, p.find lreg = some root → ranges'.Contains root ino := by
  obtain ⟨root, hroot, h⟩ := Option.bind_eq_some_iff.mp h
  have key : ∃ r, ranges' = Function.update ranges root (some r) ∧ r.start ≤ ino ∧ r.stop = ino ∧
      ∀ r₀ ∈ ranges root, r.start = r₀.start ∧ r₀.stop ≤ ino := by
    cases hr : ranges root with
    | none =>
      simp only [hr, Option.some.injEq] at h
      exact ⟨⟨ino, ino⟩, h.symm, Nat.le_refl _, rfl, fun _ h₀ => by cases h₀⟩
    | some r =>
      simp only [hr] at h
      split at h
      case isTrue hle =>
        cases h
        refine ⟨⟨r.start, ino⟩, rfl, Nat.le_trans (ho root r hr) hle, rfl, fun r₀ h₀ => ?_⟩
        cases h₀
        exact ⟨rfl, hle⟩
      case isFalse => cases h
  obtain ⟨r, rfl, hstart, hstop, hold⟩ := key
  refine ⟨fun l r' hr' => ?_, fun l j hc => ?_, fun l hl => ?_⟩
  · by_cases he : l = root
    · subst he
      rw [Function.update_self] at hr'
      cases hr'
      omega
    · rw [Function.update_of_ne he] at hr'
      exact ho l r' hr'
  · obtain ⟨r', hr', hj⟩ := hc
    by_cases he : l = root
    · subst he
      have := hold r' hr'
      exact ⟨r, Function.update_self .., by omega, by omega⟩
    · exact ⟨r', by rwa [Function.update_of_ne he], hj⟩
  · cases hroot.symm.trans hl
    exact ⟨r, Function.update_self .., hstart, by omega⟩

/-- An instruction is in the intervals of all that it touches. -/
theorem touchLregs_spec {lregs : List XReg} (ho : ranges.Ordered)
    (h : lregs.foldlM (p.touchLreg ino) ranges = some ranges') :
    ranges'.Ordered ∧ ranges.Grows ranges' ∧
      ∀ l ∈ lregs, ∀ root, p.find l = some root → ranges'.Contains root ino := by
  induction lregs generalizing ranges with
  | nil =>
    cases h
    exact ⟨ho, .refl _, by simp⟩
  | cons lreg lregs ih =>
    obtain ⟨ranges₁, h₁, h⟩ := Option.bind_eq_some_iff.mp h
    obtain ⟨ho₁, hg₁, hc₁⟩ := touchLreg_spec ho h₁
    obtain ⟨ho₂, hg₂, hc₂⟩ := ih ho₁ h
    refine ⟨ho₂, hg₁.trans hg₂, fun l hl root hroot => ?_⟩
    rcases List.mem_cons.mp hl with rfl | hl
    · exact hg₂ root ino (hc₁ root hroot)
    · exact hc₂ l hl root hroot

/-- The pass over the instructions. -/
theorem touchInstrs_spec {is : List (Instr × Nat)} (ho : ranges.Ordered)
    (h : is.foldlM p.touchInstr ranges = some ranges') :
    ranges'.Ordered ∧ ranges.Grows ranges' ∧ ∀ i ∈ is, ∀ l ∈ i.1.touched, ∀ root,
      p.find l = some root → ranges'.Contains root i.2 := by
  induction is generalizing ranges with
  | nil =>
    cases h
    exact ⟨ho, .refl _, by simp⟩
  | cons i is ih =>
    obtain ⟨ranges₁, h₁, h⟩ := Option.bind_eq_some_iff.mp h
    obtain ⟨ho₁, hg₁, hc₁⟩ := touchLregs_spec ho h₁
    obtain ⟨ho₂, hg₂, hc₂⟩ := ih ho₁ h
    refine ⟨ho₂, hg₁.trans hg₂, fun j hj l hl root hroot => ?_⟩
    rcases List.mem_cons.mp hj with rfl | hj
    · exact hg₂ root _ (hc₁ l hl root hroot)
    · exact hc₂ j hj l hl root hroot

/-- The interval of a register contains every instruction that reads or writes it. -/
theorem computeLiveIntervals_contains (h : p.computeLiveIntervals = some ranges)
    (hacc : p.Reads root ino ∨ p.Writes root ino) : ranges.Contains root ino := by
  obtain ⟨ranges₁, h₁, h⟩ := Option.bind_eq_some_iff.mp h
  have ho : LiveRanges.Ordered fun _ => none := fun _ _ hr => by cases hr
  obtain ⟨ho₁, -, hc⟩ := touchInstrs_spec ho h₁
  obtain ⟨-, hg, -⟩ := touchLreg_spec ho₁ h
  obtain ⟨x, hx, l, hl, hroot⟩ : ∃ x ∈ p.instrs[ino]?, ∃ l,
      (l ∈ x.reads ∨ l ∈ x.writes) ∧ p.find l = some root := by
    rcases hacc with ⟨x, hx, l, hl, hroot⟩ | ⟨x, hx, l, hl, hroot⟩
    · exact ⟨x, hx, l, .inl hl, hroot⟩
    · exact ⟨x, hx, l, .inr hl, hroot⟩
  have hmem : (x, ino) ∈ p.instrs.zipIdx := by
    rw [List.mem_zipIdx_iff_getElem?]
    exact hx
  exact hg root ino (hc _ hmem l (Instr.mem_touched hl) root hroot)

/-- The computed intervals contain every point where a register holds a value that is read later
exactly if they contain both ends of each edge back on which it does. -/
theorem computeLiveIntervals_conservative_iff (h : p.computeLiveIntervals = some ranges)
    (root : XReg) :
    (∀ point, Live p.Succ 0 (p.Reads root) (p.Writes root) point →
      ∃ r ∈ ranges root, r.start < point ∧ point ≤ r.stop) ↔
    ∀ u v, Carries p.Succ 0 (p.Reads root) (p.Writes root) u v → v ≤ u →
      ∃ r ∈ ranges root, r.start < v ∧ u ≤ r.stop := by
  cases hr : ranges root with
  | none =>
    -- nothing is written, so nothing is live
    have hnone : ∀ point, ¬ Live p.Succ 0 (p.Reads root) (p.Writes root) point := fun _ hl => by
      obtain ⟨q, hq⟩ := hl.1.exists_write
      obtain ⟨r, hr', -⟩ := computeLiveIntervals_contains h (.inr hq)
      rw [hr] at hr'
      cases hr'
    exact ⟨fun _ u v hc _ => absurd hc.live (hnone v), fun _ point hl => absurd hl (hnone point)⟩
  | some r =>
    have hacc : ∀ q, p.Reads root q ∨ p.Writes root q → r.start ≤ q ∧ q ≤ r.stop := fun q hq => by
      obtain ⟨r', hr', hq'⟩ := computeLiveIntervals_contains h hq
      rw [hr] at hr'
      cases hr'
      exact hq'
    simpa using live_within_iff hacc

/-- A register is set before a loop and read in it; after the read the loop goes on. -/
def readInLoop : LirProc where
  bblocks := [[.movRI .b8 1 7, .jmp 1],
    [.movRR .b8 2 1, .movRI .b8 3 0, .arithRR (.alu .cmp) .b8 3 2, .jmpcc .eq (some 1) 2],
    [.ret none none]]
  lregAliases := [0, 1, 2, 3]
  lregRbp := 0

/-- The straight way in is covered. -/
theorem computeLiveIntervals_conservative_iff_readInLoop :
    ∃ ranges, readInLoop.computeLiveIntervals = some ranges ∧
      ((∀ point, Live readInLoop.Succ 0 (readInLoop.Reads 2) (readInLoop.Writes 2) point →
        ∃ r ∈ ranges 2, r.start < point ∧ point ≤ r.stop) ↔
      ∀ u v, Carries readInLoop.Succ 0 (readInLoop.Reads 2) (readInLoop.Writes 2) u v → v ≤ u →
        ∃ r ∈ ranges 2, r.start < v ∧ u ≤ r.stop) :=
  ⟨_, rfl, computeLiveIntervals_conservative_iff rfl 2⟩

/-- The value is needed on the next round, and the interval ends at the read. -/
theorem not_conservative_readInLoop :
    ∃ ranges, readInLoop.computeLiveIntervals = some ranges ∧
      Live readInLoop.Succ 0 (readInLoop.Reads 1) (readInLoop.Writes 1) 4 ∧
      ∀ r ∈ ranges 1, ¬ 4 ≤ r.stop := by
  have hwrite : readInLoop.Writes 1 0 := ⟨_, rfl, 1, by decide, by decide⟩
  have hread : readInLoop.Reads 1 2 := ⟨_, rfl, 1, by decide, by decide⟩
  have hno : ∀ i ∈ [4, 5], ¬ readInLoop.Writes 1 i := by
    rintro i hi ⟨x, hx, l, hl, -⟩
    rcases List.mem_cons.mp hi with rfl | hi
    · cases hx
      cases hl
    · cases List.mem_singleton.mp hi
      cases hx
      cases hl
  have hwritten : Written readInLoop.Succ 0 (readInLoop.Writes 1) 4 :=
    .step (.step (.step (.write .refl hwrite rfl) rfl) rfl) rfl
  have hneeded : Needed readInLoop.Succ (readInLoop.Reads 1) (readInLoop.Writes 1) 4 :=
    .step (hno 4 (by simp)) rfl (.step (hno 5 (by simp)) (.inl ⟨1, rfl, rfl⟩) (.read hread))
  exact ⟨_, rfl, ⟨hwritten, hneeded⟩, by rintro r ⟨⟩; decide⟩

end LirProc

end Nibble.XIR
