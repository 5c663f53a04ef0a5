import Mathlib.Data.List.TakeWhile
import Nibble.X64.ElfWriter

/-!
# The layout of the object file

The sections that the file has are numbered in their order, each has its name
in the table of names, and the bytes at its offset are its contents.
-/

namespace Nibble.X64

open Nibble.Ast (PowerOfTwo)
open Nibble.Lib

/-! ## Names -/

theorem takeWhile_not_mem (s : List UInt8) : 0 ∉ s.takeWhile (· != 0) := by
  intro h
  have := List.mem_takeWhile_imp h
  simp at this

/-- The string that was added is at its location, whatever is added behind it. -/
theorem strAt_strtabAdd {table : List UInt8} (h : table.length < 2 ^ 32) (s zs : List UInt8) :
    Elf.strAt ((strtabAdd table s).1 ++ zs) (strtabAdd table s).2.toNat =
      some (s.takeWhile (· != 0)) := by
  show Elf.strAt ((table ++ s.takeWhile (· != 0) ++ [0]) ++ zs) (BitVec.ofNat 32 table.length).toNat
    = _
  rw [BitVec.toNat_ofNat, Nat.mod_eq_of_lt h, List.append_assoc _ [0] zs]
  exact Elf.strAt_append (takeWhile_not_mem s) table zs

theorem SectionKind.takeWhile_name (k : SectionKind) : k.name.takeWhile (· != 0) = k.name := by
  cases k <;> decide

theorem SectionKind.length_name (k : SectionKind) : k.name.length ≤ 10 := by
  cases k <;> decide

/-! ## The sections of the file -/

/-- The sections that the file has. -/
def ElfInput.has (I : ElfInput) : SectionKind → Bool
  | .roData => 0 < I.rodata.buf.length
  | .data => 0 < I.data.buf.length
  | .relaData => 0 < I.data.relocs.length
  | .relaText => 0 < I.text.relocs.length
  | .text | .symtab | .strtab | .shstrtab => true

def ElfInput.kinds (I : ElfInput) : List SectionKind := SectionKind.all.filter I.has

theorem ElfInput.mem_kinds {I : ElfInput} {k : SectionKind} : k ∈ I.kinds ↔ I.has k = true := by
  unfold kinds
  rw [List.mem_filter, and_iff_right_iff_imp]
  intro _
  cases k <;> decide

theorem ElfInput.nodup_kinds (I : ElfInput) : I.kinds.Nodup :=
  List.Nodup.filter _ (by decide)

theorem ElfInput.length_kinds (I : ElfInput) : I.kinds.length ≤ 8 :=
  List.length_filter_le _ SectionKind.all

namespace ElfProg

/-- `sections` from `shIdx` on have the numbers from there, and their names. -/
structure Numbered (p : ElfProg) (ks : List SectionKind) (shIdx : Nat) : Prop where
  index : ∀ i k, ks[i]? = some k → p.shIndices k = BitVec.ofNat 32 (shIdx + i)
  name : ∀ k ∈ ks, Elf.strAt p.shstrtab (p.shNameLocs k).toNat = some k.name

theorem foldl_addSection {ks : List SectionKind} (hks : ks.Nodup) (p : ElfProg) (n : Nat)
    (hlen : p.shstrtab.length + 11 * ks.length < 2 ^ 32) :
    let q := (ks.foldl addSection (p, BitVec.ofNat 32 n)).1
    q.Numbered ks n ∧ (∀ k, k ∉ ks → q.shIndices k = p.shIndices k ∧
      q.shNameLocs k = p.shNameLocs k) ∧ (∃ zs, q.shstrtab = p.shstrtab ++ zs) ∧
      q.shstrtab.length = p.shstrtab.length + (ks.map fun k => k.name.length + 1).sum := by
  induction ks generalizing p n with
  | nil => exact ⟨⟨by simp, by simp⟩, fun _ _ => ⟨rfl, rfl⟩, ⟨[], by simp⟩, by simp⟩
  | cons k ks ih =>
    obtain ⟨hk, hks⟩ := List.nodup_cons.mp hks
    rw [List.length_cons] at hlen
    have hname := k.length_name
    set p' := (addSection (p, BitVec.ofNat 32 n) k).1 with hp'
    have hstep : addSection (p, BitVec.ofNat 32 n) k = (p', BitVec.ofNat 32 (n + 1)) :=
      Prod.ext rfl (BitVec.ofNat_add n 1).symm
    have htab : p'.shstrtab = (strtabAdd p.shstrtab k.name).1 := rfl
    have hlen' : p'.shstrtab.length = p.shstrtab.length + (k.name.length + 1) := by
      rw [htab]
      show (p.shstrtab ++ k.name.takeWhile (· != 0) ++ [0]).length = _
      rw [k.takeWhile_name]
      simp
    have hidx : p'.shIndices k = BitVec.ofNat 32 n := Function.update_self ..
    have hloc : p'.shNameLocs k = (strtabAdd p.shstrtab k.name).2 := Function.update_self ..
    obtain ⟨hnum, hother, ⟨zs, hzs⟩, hsum⟩ := ih hks p' (n + 1) (by omega)
    rw [List.foldl_cons, hstep]
    refine ⟨⟨?_, ?_⟩, ?_, ?_, ?_⟩
    · intro i k' hi
      cases i with
      | zero =>
        cases hi
        rw [(hother k hk).1, hidx, Nat.add_zero]
      | succ i =>
        rw [hnum.index i k' hi]
        congr 1
        omega
    · intro k' hk'
      rcases List.mem_cons.mp hk' with rfl | hk'
      · rw [(hother k' hk).2, hloc, hzs, htab, strAt_strtabAdd (by omega), k'.takeWhile_name]
      · exact hnum.name k' hk'
    · intro k' hk'
      have hne : k' ≠ k := fun h => hk' (h ▸ List.mem_cons_self)
      obtain ⟨h1, h2⟩ := hother k' fun h => hk' (List.mem_cons_of_mem k h)
      exact ⟨h1.trans (Function.update_of_ne hne ..), h2.trans (Function.update_of_ne hne ..)⟩
    · refine ⟨k.name.takeWhile (· != 0) ++ [0] ++ zs, ?_⟩
      rw [hzs, htab]
      show p.shstrtab ++ k.name.takeWhile (· != 0) ++ [0] ++ zs = _
      simp [List.append_assoc]
    · rw [hsum, hlen', List.map_cons, List.sum_cons, Nat.add_assoc]

/-- The sections are added in their order. -/
theorem init_eq (I : ElfInput) : init I = (I.kinds.foldl addSection
    ({ empty with numSections := BitVec.ofNat 32 I.kinds.length }, BitVec.ofNat 32 1)).1 := by
  unfold init ElfInput.kinds SectionKind.all
  simp only [List.filter_cons, ElfInput.has, List.filter_nil]
  generalize decide (0 < I.rodata.buf.length) = a
  generalize decide (0 < I.data.buf.length) = b
  generalize decide (0 < I.data.relocs.length) = c
  generalize decide (0 < I.text.relocs.length) = d
  cases a <;> cases b <;> cases c <;> cases d <;> rfl

theorem init_spec (I : ElfInput) : (init I).Numbered I.kinds 1 ∧
    (∀ k, (init I).has k = I.has k) ∧ (init I).numShdrs = BitVec.ofNat 32 (1 + I.kinds.length) ∧
    (∃ zs, (init I).shstrtab = strtabInit ++ zs) ∧
    (init I).shstrtab.length = 1 + (I.kinds.map fun k => k.name.length + 1).sum := by
  have hlen := I.length_kinds
  rw [init_eq]
  set p : ElfProg := { empty with numSections := BitVec.ofNat 32 I.kinds.length } with hp
  have htab : p.shstrtab = strtabInit := rfl
  obtain ⟨hnum, hother, hzs, hsum⟩ := foldl_addSection I.nodup_kinds p 1
    (by rw [htab]; simp only [strtabInit, List.length_singleton]; omega)
  refine ⟨hnum, fun k => ?_, ?_, hzs, hsum⟩
  · unfold has
    by_cases hk : k ∈ I.kinds
    · obtain ⟨i, hi⟩ := List.mem_iff_getElem?.mp hk
      have hlt := (List.getElem?_eq_some_iff.mp hi).1
      rw [hnum.index i k hi, ElfInput.mem_kinds.mp hk, decide_eq_true_eq, BitVec.lt_def]
      show 0 < (BitVec.ofNat 32 (1 + i)).toNat
      rw [BitVec.toNat_ofNat]
      omega
    · rw [(hother k hk).1]
      have hfalse : I.has k = false := by
        rw [← Bool.not_eq_true, ← ElfInput.mem_kinds]
        exact hk
      rw [hfalse]
      rfl
  · have hsections : ∀ (ks : List SectionKind) (s : ElfProg × BitVec 32),
        (ks.foldl addSection s).1.numSections = s.1.numSections := by
      intro ks
      induction ks with
      | nil => intro s; rfl
      | cons k ks ih => intro s; exact ih _
    rw [numShdrs, hsections, BitVec.ofNat_add]
    rfl

/-! ## Offsets -/

variable {I : ElfInput} {p : ElfProg}

def item (I : ElfInput) (p : ElfProg) (k : SectionKind) : Item :=
  ⟨(p.secData I k).length, I.secAlign k⟩

theorem secSize_eq (k : SectionKind) : p.secSize I k = BitVec.ofNat 32 (p.secData I k).length := by
  cases k <;> simp only [secSize, secData, Elf.length_flatMap Elf.Sym.length_bytes,
    Elf.length_flatMap Elf.Rela.length_bytes]

theorem toNat_secSize {k : SectionKind} (h : (p.secData I k).length < 2 ^ 32) :
    (p.secSize I k).toNat = (p.secData I k).length := by
  rw [secSize_eq, BitVec.toNat_ofNat, Nat.mod_eq_of_lt h]

theorem offsetsFrom_filter (ks : List SectionKind) (offset : BitVec 32)
    (offsets : SectionKind → BitVec 32) :
    p.offsetsFrom I ks offset offsets = p.offsetsFrom I (ks.filter p.has) offset offsets := by
  induction ks generalizing offset offsets with
  | nil => rfl
  | cons k ks ih =>
    rw [List.filter_cons]
    by_cases hk : p.has k = true
    · rw [if_pos hk]
      simp only [offsetsFrom, if_pos hk, ih]
    · rw [if_neg hk]
      simp only [offsetsFrom, if_neg hk, ih]

/-- The sections are placed one after another, each at the next offset that its alignment
divides. -/
theorem offsetsFrom_spec {ks : List SectionKind} (hks : ks.Nodup) (hhas : ∀ k ∈ ks, p.has k = true)
    (halign : ∀ k ∈ ks, PowerOfTwo (I.secAlign k)) (offset : BitVec 32)
    (offsets : SectionKind → BitVec 32) (hpos : 0 < offset.toNat)
    (hend : placeEnd (ks.map (item I p)) offset.toNat < 2 ^ 32) :
    ks.map (fun k => (p.offsetsFrom I ks offset offsets k).toNat) =
        place (ks.map (item I p)) offset.toNat ∧
      ∀ k, k ∉ ks → p.offsetsFrom I ks offset offsets k = offsets k := by
  induction ks generalizing offset offsets with
  | nil => exact ⟨rfl, fun _ _ => rfl⟩
  | cons k ks ih =>
    obtain ⟨hk, hks⟩ := List.nodup_cons.mp hks
    obtain ⟨e, he⟩ := halign k List.mem_cons_self
    have haligns : ∀ i ∈ ks.map (item I p), 0 < i.align := by
      intro i hi
      obtain ⟨k', hk', rfl⟩ := List.mem_map.mp hi
      exact (halign k' (List.mem_cons_of_mem k hk')).pos
    have hle := (placed_place (alignUp offset.toNat (I.secAlign k) + (p.secData I k).length)
      haligns).le
    have hend' : placeEnd (ks.map (item I p))
        (alignUp offset.toNat (I.secAlign k) + (p.secData I k).length) < 2 ^ 32 := hend
    have hup := le_alignUp offset.toNat (halign k List.mem_cons_self).pos
    have hlt : I.secAlign k < 2 ^ 32 := by
      have := Nat.le_of_dvd (by omega) (dvd_alignUp offset.toNat (I.secAlign k))
      omega
    have hoff : (alignUpMask offset (BitVec.ofNat 32 (I.secAlign k))).toNat =
        alignUp offset.toNat (I.secAlign k) := by
      have hfit : alignUp offset.toNat (I.secAlign k) < 2 ^ 32 := by omega
      rw [he] at hfit hlt ⊢
      refine toNat_alignUpMask ?_ hfit
      rw [BitVec.toNat_ofNat, Nat.mod_eq_of_lt hlt]
    have hnext : (alignUpMask offset (BitVec.ofNat 32 (I.secAlign k)) + p.secSize I k).toNat =
        alignUp offset.toNat (I.secAlign k) + (p.secData I k).length := by
      rw [BitVec.toNat_add, hoff, toNat_secSize (by omega), Nat.mod_eq_of_lt (by omega)]
    obtain ⟨hmap, hother⟩ := ih hks (fun k' hk' => hhas k' (List.mem_cons_of_mem k hk'))
      (fun k' hk' => halign k' (List.mem_cons_of_mem k hk'))
      (alignUpMask offset (BitVec.ofNat 32 (I.secAlign k)) + p.secSize I k)
      (Function.update offsets k (alignUpMask offset (BitVec.ofNat 32 (I.secAlign k))))
      (by rw [hnext]; omega) (by rwa [hnext])
    simp only [offsetsFrom, if_pos (hhas k List.mem_cons_self)]
    refine ⟨?_, fun k' hk' => ?_⟩
    · rw [List.map_cons, hmap, hother k hk, Function.update_self, hoff, hnext]
      rfl
    · have hne : k' ≠ k := fun h => hk' (h ▸ List.mem_cons_self)
      rw [hother k' fun h => hk' (List.mem_cons_of_mem k h), Function.update_of_ne hne]

/-! ## Output -/

/-- Bytes that are written where the file ends. -/
theorem writeBin_spec {bin : List UInt8} {size tgt : BitVec 32} (h : bin.length = size.toNat)
    (file : List UInt8) : writeBin ⟨file, tgt⟩ bin size tgt = some ⟨file ++ bin, tgt + size⟩ := by
  unfold writeBin
  rw [if_pos (show tgt ≤ tgt from Nat.le_refl _), BitVec.sub_self, ← h, List.take_length]
  simp

theorem foldlM_writeSection_filter (ks : List SectionKind) (o : Output) :
    ks.foldlM (p.writeSection I) o = (ks.filter p.has).foldlM (p.writeSection I) o := by
  induction ks generalizing o with
  | nil => rfl
  | cons k ks ih =>
    rw [List.filter_cons, List.foldlM_cons]
    by_cases hk : p.has k = true
    · rw [if_pos hk, List.foldlM_cons]
      exact congrArg _ (funext ih)
    · rw [if_neg hk, ← ih]
      unfold writeSection
      rw [if_neg hk]
      rfl

/-- Each section's bytes are at its offset. -/
theorem writeSections_spec {ks : List SectionKind} (hhas : ∀ k ∈ ks, p.has k = true)
    (halign : ∀ k ∈ ks, 0 < I.secAlign k) (o : Output) (hlen : o.file.length = o.currOffset.toNat)
    (hoff : ks.map (fun k => (p.offsets k).toNat) = place (ks.map (item I p)) o.file.length)
    (hend : placeEnd (ks.map (item I p)) o.file.length < 2 ^ 32) :
    ∃ o', ks.foldlM (p.writeSection I) o = some o' ∧ (∃ zs, o'.file = o.file ++ zs) ∧
      ∀ k ∈ ks, Elf.slice o'.file (p.offsets k).toNat (p.secData I k).length =
        some (p.secData I k) := by
  induction ks generalizing o with
  | nil => exact ⟨o, rfl, ⟨[], by simp⟩, by simp⟩
  | cons k ks ih =>
    have hpos : ∀ i ∈ ks.map (item I p), 0 < i.align := by
      intro i hi
      obtain ⟨k', hk', rfl⟩ := List.mem_map.mp hi
      exact halign k' (List.mem_cons_of_mem k hk')
    obtain ⟨hk, hoff⟩ := List.cons.inj hoff
    change (p.offsets k).toNat = alignUp o.file.length (I.secAlign k) at hk
    change placeEnd (ks.map (item I p))
      (alignUp o.file.length (I.secAlign k) + (p.secData I k).length) < 2 ^ 32 at hend
    change _ = place (ks.map (item I p))
      (alignUp o.file.length (I.secAlign k) + (p.secData I k).length) at hoff
    have hle := (placed_place (alignUp o.file.length (I.secAlign k) + (p.secData I k).length)
      hpos).le
    have hup := le_alignUp o.file.length (halign k List.mem_cons_self)
    set file := o.file ++ List.replicate (p.offsets k - o.currOffset).toNat 0 with hfile
    have hfilelen : file.length = (p.offsets k).toNat := by
      rw [hfile, List.length_append, List.length_replicate, BitVec.toNat_sub_of_le]
      · omega
      · rw [BitVec.le_def]
        omega
    have hsize := toNat_secSize (I := I) (p := p) (k := k) (by omega)
    have hstep : p.writeSection I o k =
        some ⟨file ++ p.secData I k, p.offsets k + p.secSize I k⟩ := by
      unfold writeSection writeBin
      rw [if_pos (hhas k List.mem_cons_self), if_pos, hsize, List.take_length]
      rw [BitVec.le_def]
      omega
    have hlen' : (file ++ p.secData I k).length = alignUp o.file.length (I.secAlign k) +
        (p.secData I k).length := by
      rw [List.length_append, hfilelen, hk]
    obtain ⟨o', hrun, ⟨zs, hzs⟩, hslice⟩ := ih (fun k' hk' => hhas k' (List.mem_cons_of_mem k hk'))
      (fun k' hk' => halign k' (List.mem_cons_of_mem k hk'))
      ⟨file ++ p.secData I k, p.offsets k + p.secSize I k⟩
      (by
        rw [hlen', BitVec.toNat_add, hsize, hk, Nat.mod_eq_of_lt (by omega)])
      (by rw [hlen']; exact hoff) (by rw [hlen']; exact hend)
    refine ⟨o', ?_, ?_, ?_⟩
    · rw [List.foldlM_cons, hstep]
      exact hrun
    · exact ⟨_, by rw [hzs, hfile, List.append_assoc, List.append_assoc]⟩
    · intro k' hk'
      rcases List.mem_cons.mp hk' with rfl | hk'
      · rw [hzs]
        refine Elf.slice_mono ?_ zs
        rw [← hfilelen]
        have h := Elf.slice_append file (p.secData I k') []
        rwa [List.append_nil] at h
      · exact hslice k' hk'

end ElfProg

end Nibble.X64
