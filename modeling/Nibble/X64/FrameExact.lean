import Nibble.X64.StackFrame

/-!
# The layout of a frame

The offsets are those of `Lib/Scopes.lean`, counted in 64 bits and cut to 32. As
long as the frame fits 31 bits, nothing that is live together overlaps, and all of
it lies in what the prologue subtracts from `rsp`.
-/

namespace Nibble.X64

open Nibble.Lib
open Nibble.XIR (ArgReg)

/-! ## The frame in numbers -/

def ScopeDecls.items (d : ScopeDecls) : List Item := d.vars.map typeItem ++ d.objs

/-- A slot as a variable. -/
def Slot.var (s : Slot) : StackVar :=
  ⟨s.path, s.size, s.align, (-BitVec.ofNat 64 s.depth).setWidth 32⟩

/-- Alignments are powers of two. -/
def PowerOfTwo (i : Item) : Prop := ∃ k < 64, i.align = 2 ^ k

theorem PowerOfTwo.pos {i : Item} (h : PowerOfTwo i) : 0 < i.align := by
  obtain ⟨k, -, hk⟩ := h
  rw [hk]
  exact Nat.two_pow_pos k

/-- The registers of one parameter, as they are stored. -/
def paramItems (t : Ty) (p : Param) : List Item := p.spills.map fun s => ⟨s.size, t.align⟩

def spillItems (ts : List Ty) (ps : List Param) : List Item :=
  (List.zipWith paramItems ts ps).flatten

/-- Where the argument after one on the stack starts. -/
def argNext (t : Ty) (n : Nat) : Nat := alignUp (alignUp (n + t.size) t.align) 8

/-- The end of the arguments on the stack. -/
def argEnd : List Ty → List Param → Nat → Nat
  | t :: ts, p :: ps, n => argEnd ts ps (if p.spills.isEmpty then argNext t n else n)
  | _, _, n => n

namespace ProcScope

variable (objRegClass : Ty → RegClass) (proc : ProcScope)

/-- What is stored by the prologue. -/
def spilled : List Item :=
  ((spillRetArg proc.ret).1.toList.map fun _ => ⟨8, 8⟩) ++
    spillItems proc.params (assignProcParamOffsets objRegClass proc.ret proc.params).2

/-- The scope of the procedure, without its parameters. -/
def scope : Scope := .mk ⟨proc.locals, proc.tmpObjs ++ proc.objs⟩ proc.children

/-- The size of the frame before the register allocator adds to it. -/
def frameDepth : Nat :=
  proc.scope.bottom ScopeDecls.items 16 (sinkEnd (proc.spilled objRegClass) 0)

/-- All types have a power of two as their alignment. -/
structure PowersOfTwo : Prop where
  params : ∀ t ∈ proc.params, PowerOfTwo (typeItem t)
  scope : proc.scope.All ScopeDecls.items PowerOfTwo

end ProcScope

/-! ## Sums -/

theorem alignUpMask_sink {n : Nat} {i : Item} (h : PowerOfTwo i) :
    alignUpMask (BitVec.ofNat 64 n + BitVec.ofNat 64 i.size) (BitVec.ofNat 64 i.align) =
      BitVec.ofNat 64 (sink n i) := by
  obtain ⟨k, hk, hal⟩ := h
  rw [← BitVec.ofNat_add, hal, alignUpMask_ofNat hk, sink, hal]

theorem sumSizes_eq (path : List Nat) {is : List Item} (h : ∀ i ∈ is, PowerOfTwo i) (n : Nat) :
    sumSizes path is (BitVec.ofNat 64 n) =
      ((sinkAll path is n).map Slot.var, BitVec.ofNat 64 (sinkEnd is n)) := by
  induction is generalizing n with
  | nil => rfl
  | cons i is ih =>
    simp only [sumSizes, sinkAll, sinkEnd, alignUpMask_sink (h i List.mem_cons_self),
      ih fun j hj => h j (List.mem_cons_of_mem _ hj)]
    rfl

/-- The larger of two sizes. -/
theorem max_ofNat {m n : Nat} (hm : m < 2 ^ 64) (hn : n < 2 ^ 64) :
    (if BitVec.ofNat 64 m < BitVec.ofNat 64 n then BitVec.ofNat 64 n else BitVec.ofNat 64 m) =
      BitVec.ofNat 64 (max m n) := by
  have hlt : BitVec.ofNat 64 m < BitVec.ofNat 64 n ↔ m < n := by
    rw [BitVec.lt_def, BitVec.toNat_ofNat, BitVec.toNat_ofNat, Nat.mod_eq_of_lt hm,
      Nat.mod_eq_of_lt hn]
  simp only [hlt]
  split
  next h => rw [Nat.max_eq_right (Nat.le_of_lt h)]
  next h => rw [Nat.max_eq_left (Nat.le_of_not_lt h)]

open ScopeTree

mutual

theorem assignScopeStackOffsets_eq : (t : Scope) → t.All ScopeDecls.items PowerOfTwo →
    (path : List Nat) → (n : Nat) → t.bottom ScopeDecls.items 16 n < 2 ^ 64 →
      assignScopeStackOffsets t path (BitVec.ofNat 64 n) =
        ((t.slots ScopeDecls.items path n).map Slot.var,
          BitVec.ofNat 64 (t.bottom ScopeDecls.items 16 n))
  | .mk decls children, h, path, n, hlt => by
    rw [All] at h
    rw [bottom] at hlt ⊢
    have hvars : ∀ i ∈ decls.vars.map typeItem, PowerOfTwo i :=
      fun i hi => h.1 i (List.mem_append_left _ hi)
    have hobjs : ∀ i ∈ decls.objs, PowerOfTwo i := fun i hi => h.1 i (List.mem_append_right _ hi)
    have hend : sinkEnd decls.items n = sinkEnd decls.objs (sinkEnd (decls.vars.map typeItem) n) :=
      sinkEnd_append ..
    have hle := le_bottomAll ScopeDecls.items 16 children (sinkEnd decls.items n)
    have hup := le_alignUp (bottomAll ScopeDecls.items 16 children (sinkEnd decls.items n))
      (show 0 < 16 by decide)
    have hchildren := assignChildOffsets_eq children h.2 path 0 _ _ (Nat.le_refl _)
      (Nat.lt_of_le_of_lt (Nat.le_trans hle hup) hlt) (Nat.lt_of_le_of_lt hup hlt)
    rw [Nat.max_eq_right hle] at hchildren
    have hround := alignUpMask_ofNat (show 4 < 64 by decide)
      (bottomAll ScopeDecls.items 16 children (sinkEnd decls.items n))
    have hall : sinkAll path decls.items n = sinkAll path (decls.vars.map typeItem) n ++
        sinkAll path decls.objs (sinkEnd (decls.vars.map typeItem) n) := sinkAll_append ..
    simp only [assignScopeStackOffsets, sumSizes_eq path hvars, sumSizes_eq path hobjs, ← hend,
      hchildren, slots, hall, List.map_append]
    exact Prod.ext rfl hround

theorem assignChildOffsets_eq : (ts : List Scope) → AllIn ScopeDecls.items PowerOfTwo ts →
    (path : List Nat) → (k n m : Nat) → n ≤ m → m < 2 ^ 64 →
      bottomAll ScopeDecls.items 16 ts n < 2 ^ 64 →
      assignChildOffsets ts path k (BitVec.ofNat 64 n) (BitVec.ofNat 64 m) =
        ((slotsAll ScopeDecls.items ts path k n).map Slot.var,
          BitVec.ofNat 64 (max m (bottomAll ScopeDecls.items 16 ts n)))
  | [], _, path, k, n, m, hnm, _, _ => by
    simp only [assignChildOffsets, slotsAll, bottomAll, Nat.max_eq_left hnm, List.map_nil]
  | t :: ts, h, path, k, n, m, hnm, hm, hlt => by
    rw [AllIn] at h
    rw [bottomAll] at hlt ⊢
    have ht := Nat.lt_of_le_of_lt (Nat.le_max_left ..) hlt
    have hts := Nat.lt_of_le_of_lt (Nat.le_max_right ..) hlt
    simp only [assignChildOffsets, slotsAll, assignScopeStackOffsets_eq t h.1 (path ++ [k]) n ht,
      max_ofNat hm ht]
    rw [assignChildOffsets_eq ts h.2 path (k + 1) n _ (Nat.le_trans hnm (Nat.le_max_left ..))
      (Nat.max_lt.mpr ⟨hm, ht⟩) hts, List.map_append, Nat.max_assoc]

end

theorem assignTopChildOffsets_eq {ts : List Scope} (h : AllIn ScopeDecls.items PowerOfTwo ts)
    (k : Nat) {n m : Nat} (hnm : n ≤ m) (hm : m < 2 ^ 32)
    (hlt : bottomAll ScopeDecls.items 16 ts n < 2 ^ 32) :
    assignTopChildOffsets ts k (BitVec.ofNat 64 n) (BitVec.ofNat 64 m) =
      ((slotsAll ScopeDecls.items ts [] k n).map Slot.var,
        BitVec.ofNat 64 (max m (bottomAll ScopeDecls.items 16 ts n))) := by
  induction ts generalizing k m with
  | nil => simp only [assignTopChildOffsets, slotsAll, bottomAll, Nat.max_eq_left hnm, List.map_nil]
  | cons t ts ih =>
    rw [AllIn] at h
    rw [bottomAll] at hlt ⊢
    have ht := Nat.lt_of_le_of_lt (Nat.le_max_left ..) hlt
    have hts := Nat.lt_of_le_of_lt (Nat.le_max_right ..) hlt
    have hcut : ((BitVec.ofNat 64 (t.bottom ScopeDecls.items 16 n)).setWidth 32).setWidth 64 =
        BitVec.ofNat 64 (t.bottom ScopeDecls.items 16 n) := by
      apply BitVec.eq_of_toNat_eq
      rw [BitVec.toNat_setWidth, BitVec.toNat_setWidth, BitVec.toNat_ofNat]
      omega
    simp only [assignTopChildOffsets, slotsAll, assignScopeStackOffsets_eq t h.1 [k] n (by omega),
      hcut, max_ofNat (Nat.lt_trans hm (by decide)) (Nat.lt_trans ht (by decide))]
    rw [ih h.2 (k + 1) (Nat.le_trans hnm (Nat.le_max_left ..)) (Nat.max_lt.mpr ⟨hm, ht⟩) hts,
      List.map_append, Nat.max_assoc, List.nil_append]

/-! ## Parameters -/

/-- One parameter: what it is stored at, and the state after it. -/
structure ParamSinks (t : Ty) (n : Nat) (r : Param × ParamState) : Prop where
  size : r.2.spillSize = BitVec.ofNat 64 (sinkEnd (paramItems t r.1) n)
  offset : r.1.spills ≠ [] →
    r.1.offset = (-BitVec.ofNat 64 (sinkEnd (paramItems t r.1) n)).setWidth 32
  within : r.1.spills ≠ [] →
    Slot.Within ⟨[], t.size, t.align, sinkEnd (paramItems t r.1) n⟩ n
      (sinkEnd (paramItems t r.1) n)

section

variable {objRegClass : Ty → RegClass} {t : Ty} {n : Nat} {s : ParamState}

theorem spillReg_eq (hs : s.spillSize = BitVec.ofNat 64 n) {i : Item} (hi : PowerOfTwo i)
    (r : ArgReg) :
    (s.spillReg i.size i.align r).1.offset = (-BitVec.ofNat 64 (sink n i)).setWidth 32 ∧
      (s.spillReg i.size i.align r).2.spillSize = BitVec.ofNat 64 (sink n i) := by
  simp only [ParamState.spillReg, hs, alignUpMask_sink hi, and_self]

theorem ParamSinks.consume (hs : s.spillSize = BitVec.ofNat 64 n) :
    ParamSinks t n (s.consumeStackArg t) :=
  ⟨hs, fun h => absurd rfl h, fun h => absurd rfl h⟩

/-- A parameter in one register. -/
theorem ParamSinks.spillOne (hs : s.spillSize = BitVec.ofNat 64 n) (ht : PowerOfTwo (typeItem t))
    {size : Nat} (hsize : t.size ≤ size) (r : ArgReg) :
    ParamSinks t n (⟨(s.spillReg size t.align r).1.offset, [(s.spillReg size t.align r).1]⟩,
      (s.spillReg size t.align r).2) := by
  have hi : PowerOfTwo ⟨size, t.align⟩ := ht
  obtain ⟨hoff, hspill⟩ := spillReg_eq hs hi r
  have hw := @within_sink [] _ n hi.pos
  refine ⟨hspill, fun _ => hoff, fun _ => ⟨?_, Nat.le_refl _, hw.aligned⟩⟩
  have hle := hw.lower
  exact Nat.le_trans (Nat.add_le_add_left hsize n) hle

/-- A parameter in two. -/
theorem ParamSinks.spillTwo (hs : s.spillSize = BitVec.ofNat 64 n) (ht : PowerOfTwo (typeItem t))
    (hsize : t.size ≤ 16) (r r' : ArgReg) :
    ParamSinks t n (⟨((s.spillReg 8 t.align r).2.spillReg 8 t.align r').1.offset,
        [(s.spillReg 8 t.align r).1, ((s.spillReg 8 t.align r).2.spillReg 8 t.align r').1]⟩,
      ((s.spillReg 8 t.align r).2.spillReg 8 t.align r').2) := by
  have hi : PowerOfTwo ⟨8, t.align⟩ := ht
  obtain ⟨-, hspill⟩ := spillReg_eq hs hi r
  obtain ⟨hoff', hspill'⟩ := spillReg_eq hspill hi r'
  have hw := @within_sink [] _ n hi.pos
  have hw' := @within_sink [] _ (sink n ⟨8, t.align⟩) hi.pos
  refine ⟨hspill', fun _ => hoff', fun _ => ⟨?_, Nat.le_refl _, hw'.aligned⟩⟩
  have h₁ : n + 8 ≤ sink n ⟨8, t.align⟩ := hw.lower
  have h₂ : sink n ⟨8, t.align⟩ + 8 ≤ sink (sink n ⟨8, t.align⟩) ⟨8, t.align⟩ := hw'.lower
  exact Nat.le_trans (show n + t.size ≤ n + 8 + 8 by omega)
    (Nat.le_trans (Nat.add_le_add_right h₁ 8) h₂)

theorem assignPrimParam_sinks (hs : s.spillSize = BitVec.ofNat 64 n)
    (ht : PowerOfTwo (typeItem t)) : ParamSinks t n (assignPrimParam s t) := by
  unfold assignPrimParam
  split
  · exact @ParamSinks.spillOne t n (s.takeRegs _ 1) hs ht _ (Nat.le_refl _) _
  · exact .consume hs

theorem assignObjParam_sinks (hs : s.spillSize = BitVec.ofNat 64 n)
    (ht : PowerOfTwo (typeItem t)) : ParamSinks t n (assignObjParam objRegClass s t) := by
  unfold assignObjParam
  split
  · exact .consume hs
  · split
    next h8 => exact @ParamSinks.spillOne t n (s.takeRegs _ 1) hs ht _ h8 _
    · split
      · exact .consume hs
      · split
        next h16 => exact @ParamSinks.spillTwo t n (s.takeRegs _ 2) hs ht h16 _ _
        · exact .consume hs

variable (objRegClass) in
/-- One parameter of the walk. -/
def assignParam (s : ParamState) (t : Ty) : Param × ParamState :=
  if t.isObjLike then assignObjParam objRegClass s t else assignPrimParam s t

theorem assignParam_sinks (hs : s.spillSize = BitVec.ofNat 64 n) (ht : PowerOfTwo (typeItem t)) :
    ParamSinks t n (assignParam objRegClass s t) := by
  unfold assignParam
  split
  · exact assignObjParam_sinks hs ht
  · exact assignPrimParam_sinks hs ht

theorem assignParams_cons (ts : List Ty) :
    assignParams objRegClass s (t :: ts) = (assignParam objRegClass s t).1 ::
      assignParams objRegClass (assignParam objRegClass s t).2 ts := rfl

theorem paramsState_cons (ts : List Ty) :
    paramsState objRegClass s (t :: ts) =
      paramsState objRegClass (assignParam objRegClass s t).2 ts := rfl

theorem spilledParams_cons (ts : List Ty) (p : Param) (ps : List Param) :
    spilledParams (t :: ts) (p :: ps) =
      (if p.spills = [] then [] else [paramVar t p]) ++ spilledParams ts ps := by
  unfold spilledParams
  by_cases h : p.spills = [] <;> simp [h]

theorem stackParams_cons (ts : List Ty) (p : Param) (ps : List Param) :
    stackParams (t :: ts) (p :: ps) =
      (if p.spills = [] then [paramVar t p] else []) ++ stackParams ts ps := by
  unfold stackParams
  by_cases h : p.spills = [] <;> simp [h]

/-- The parameters that are stored in the frame. -/
theorem stacked_params {ts : List Ty} (hs : s.spillSize = BitVec.ofNat 64 n)
    (hts : ∀ t ∈ ts, PowerOfTwo (typeItem t)) :
    ∃ slots, SlotStack slots n (sinkEnd (spillItems ts (assignParams objRegClass s ts)) n) ∧
      spilledParams ts (assignParams objRegClass s ts) = slots.map Slot.var ∧
      (paramsState objRegClass s ts).spillSize =
        BitVec.ofNat 64 (sinkEnd (spillItems ts (assignParams objRegClass s ts)) n) := by
  induction ts generalizing s n with
  | nil => exact ⟨[], .nil (Nat.le_refl n), rfl, hs⟩
  | cons t ts ih =>
    have ht := hts t List.mem_cons_self
    have hp : ParamSinks t n (assignParam objRegClass s t) := assignParam_sinks hs ht
    rw [assignParams_cons, paramsState_cons]
    revert hp
    generalize assignParam objRegClass s t = r
    obtain ⟨p, s'⟩ := r
    intro hp
    obtain ⟨slots, hst, hvars, hend⟩ := ih hp.size fun u hu => hts u (List.mem_cons_of_mem _ hu)
    have hitems : sinkEnd (spillItems (t :: ts) (p :: assignParams objRegClass s' ts)) n =
        sinkEnd (spillItems ts (assignParams objRegClass s' ts)) (sinkEnd (paramItems t p) n) := by
      rw [spillItems, List.zipWith_cons_cons, List.flatten_cons, sinkEnd_append, spillItems]
    rw [hitems, spilledParams_cons, hvars]
    by_cases hsp : p.spills = []
    · have hnil : sinkEnd (paramItems t p) n = n := by rw [paramItems, hsp]; rfl
      rw [hnil] at hst hend ⊢
      exact ⟨slots, hst, by rw [if_pos hsp, List.nil_append], hend⟩
    · refine ⟨_, (SlotStack.single (hp.within hsp)).append hst, ?_, hend⟩
      rw [if_neg hsp, List.map_append, paramVar, hp.offset hsp]
      rfl

/-! ## Arguments on the stack -/

/-- Variables above `rbp`, in their order. -/
structure Raised (vars : List StackVar) (lo hi : Nat) : Prop where
  le : lo ≤ hi
  start : ∀ v ∈ vars, ∃ o, v.offset = (BitVec.ofNat 64 o).setWidth 32 ∧ lo ≤ o ∧
    o + v.size ≤ hi ∧ 8 ∣ o
  apart : vars.Pairwise fun a b => ∃ o o', a.offset = (BitVec.ofNat 64 o).setWidth 32 ∧
    b.offset = (BitVec.ofNat 64 o').setWidth 32 ∧ o + a.size ≤ o' ∧ o' ≤ hi

theorem le_argNext (ht : PowerOfTwo (typeItem t)) (n : Nat) : n + t.size ≤ argNext t n :=
  Nat.le_trans (le_alignUp _ ht.pos) (le_alignUp _ (by decide))

/-- A variable in front of others. -/
theorem Raised.cons {vars : List StackVar} {lo mid hi : Nat} {v : StackVar}
    (h : Raised vars mid hi) (hv : v.offset = (BitVec.ofNat 64 lo).setWidth 32)
    (hmid : lo + v.size ≤ mid) (hlo : 8 ∣ lo) : Raised (v :: vars) lo hi := by
  have hle := h.le
  refine ⟨by omega, fun u hu => ?_, List.pairwise_cons.mpr ⟨fun u hu => ?_, h.apart⟩⟩
  · rcases List.mem_cons.mp hu with rfl | hu
    · exact ⟨lo, hv, Nat.le_refl lo, by omega, hlo⟩
    · obtain ⟨o, ho, hge, hend, hd⟩ := h.start u hu
      exact ⟨o, ho, by omega, hend, hd⟩
  · obtain ⟨o, ho, hge, hend, -⟩ := h.start u hu
    exact ⟨lo, o, hv, ho, by omega, by omega⟩

/-- One parameter on the stack, and the state after one. -/
structure ParamRaises (t : Ty) (n : Nat) (r : Param × ParamState) : Prop where
  next : r.2.stackArgOffset = BitVec.ofNat 64 (if r.1.spills.isEmpty then argNext t n else n)
  offset : r.1.spills = [] → r.1.offset = (BitVec.ofNat 64 n).setWidth 32

theorem consumeStackArg_raises (hs : s.stackArgOffset = BitVec.ofNat 64 n)
    (ht : PowerOfTwo (typeItem t)) : ParamRaises t n (s.consumeStackArg t) := by
  refine ⟨?_, fun _ => by simp only [ParamState.consumeStackArg, hs]⟩
  obtain ⟨k, hk, hal⟩ := ht
  have hal' : t.align = 2 ^ k := hal
  have h8 := alignUpMask_ofNat (show 3 < 64 by decide) (alignUp (n + t.size) (2 ^ k))
  simp only [ParamState.consumeStackArg, hs, ← BitVec.ofNat_add, hal', alignUpMask_ofNat hk,
    List.isEmpty_nil, if_true, argNext]
  exact h8

/-- A parameter in registers leaves the arguments on the stack alone. -/
theorem ParamRaises.spill (hs : s.stackArgOffset = BitVec.ofNat 64 n) {p : Param} {s' : ParamState}
    (hp : p.spills ≠ []) (hs' : s'.stackArgOffset = s.stackArgOffset) : ParamRaises t n (p, s') :=
  ⟨by rw [if_neg (by simpa using hp)]; exact hs'.trans hs, fun h => absurd h hp⟩

theorem assignParam_raises (hs : s.stackArgOffset = BitVec.ofNat 64 n)
    (ht : PowerOfTwo (typeItem t)) : ParamRaises t n (assignParam objRegClass s t) := by
  have hconsume := consumeStackArg_raises hs ht
  unfold assignParam
  split
  · unfold assignObjParam
    split
    · exact hconsume
    · split
      · exact .spill hs (List.cons_ne_nil _ _) rfl
      · split
        · exact hconsume
        · split
          · exact .spill hs (List.cons_ne_nil _ _) rfl
          · exact hconsume
  · unfold assignPrimParam
    split
    · exact .spill hs (List.cons_ne_nil _ _) rfl
    · exact hconsume

/-- The parameters that stay in the caller's frame. -/
theorem raised_stackParams {ts : List Ty} (hs : s.stackArgOffset = BitVec.ofNat 64 n) (hn : 8 ∣ n)
    (hts : ∀ t ∈ ts, PowerOfTwo (typeItem t)) :
    Raised (stackParams ts (assignParams objRegClass s ts)) n
      (argEnd ts (assignParams objRegClass s ts) n) := by
  induction ts generalizing s n with
  | nil => exact ⟨Nat.le_refl n, by simp [stackParams], .nil⟩
  | cons t ts ih =>
    have ht := hts t List.mem_cons_self
    have hp : ParamRaises t n (assignParam objRegClass s t) := assignParam_raises hs ht
    rw [assignParams_cons]
    revert hp
    generalize assignParam objRegClass s t = r
    obtain ⟨p, s'⟩ := r
    intro hp
    rw [stackParams_cons, argEnd]
    have hrest := fun hd => ih hp.next hd fun u hu => hts u (List.mem_cons_of_mem _ hu)
    by_cases hsp : p.spills = []
    · have hnext : (if p.spills.isEmpty then argNext t n else n) = argNext t n := by simp [hsp]
      simp only [hnext] at hrest ⊢
      rw [if_pos hsp]
      exact (hrest (dvd_alignUp _ 8)).cons (hp.offset hsp) (le_argNext ht n) hn
    · have hnext : (if p.spills.isEmpty then argNext t n else n) = n := by simp [hsp]
      simp only [hnext] at hrest ⊢
      rw [if_neg hsp]
      exact hrest hn

end

/-! ## The frame -/

theorem toInt_neg_setWidth {n : Nat} (h : n < 2 ^ 31) :
    ((-BitVec.ofNat 64 n).setWidth 32).toInt = -(n : Int) := by
  have hneg : (-BitVec.ofNat 64 n).setWidth 32 = -BitVec.ofNat 32 n := by
    rw [BitVec.setWidth_neg_of_le (by decide), setWidth_ofNat]
  rw [hneg, BitVec.toInt_neg, toInt_ofNat h]
  exact Int.bmod_eq_of_le (by omega) (by omega)

namespace StackVar

/-- The variables can be live together: they are of one scope, or of one in the other. -/
def Together (a b : StackVar) : Prop := a.path <+: b.path ∨ b.path <+: a.path

/-- No byte is in both. -/
def Apart (a b : StackVar) : Prop :=
  a.offset.toInt + a.size ≤ b.offset.toInt ∨ b.offset.toInt + b.size ≤ a.offset.toInt

end StackVar

/-- A layout is sound in a frame of a number of bytes. -/
structure FrameLayout.Sound (L : FrameLayout) (frame : Nat) : Prop where
  inFrame : ∀ v ∈ L.vars, -(frame : Int) ≤ v.offset.toInt ∧ v.offset.toInt + v.size ≤ 0
  aligned : ∀ v ∈ L.vars, (v.align : Int) ∣ v.offset.toInt
  /-- Arguments on the stack are above the return address, at whole words. -/
  above : ∀ v ∈ L.stackParams, 16 ≤ v.offset.toInt ∧ (8 : Int) ∣ v.offset.toInt
  apart : (L.vars ++ L.stackParams).Pairwise fun a b => a.Together b → a.Apart b

section

variable {objRegClass : Ty → RegClass} {proc : ProcScope}

theorem spillRetArg_offset {ret : Ty} {spill : ParamSpill}
    (h : (spillRetArg ret).1 = some spill) :
    spill.offset = (-BitVec.ofNat 64 8).setWidth 32 ∧
      (spillRetArg ret).2.spillSize = BitVec.ofNat 64 8 := by
  unfold spillRetArg at h ⊢
  split at h
  · cases h
  next r hr =>
    simp only
    cases h
    exact ⟨rfl, rfl⟩

/-- The address of a large result is stored first. -/
theorem stacked_retArg (ret : Ty) :
    ∃ slots, SlotStack slots 0 (sinkEnd ((spillRetArg ret).1.toList.map fun _ => ⟨8, 8⟩) 0) ∧
      ((spillRetArg ret).1.toList.map fun s => (⟨[], 8, 8, s.offset⟩ : StackVar)) =
        slots.map Slot.var ∧
      (spillRetArg ret).2.spillSize =
        BitVec.ofNat 64 (sinkEnd ((spillRetArg ret).1.toList.map fun _ => ⟨8, 8⟩) 0) := by
  cases h : (spillRetArg ret).1 with
  | none =>
    refine ⟨[], .nil (Nat.le_refl 0), rfl, ?_⟩
    unfold spillRetArg at h ⊢
    split at h
    · rfl
    · cases h
  | some spill =>
    obtain ⟨hoff, hsize⟩ := spillRetArg_offset h
    have hw : Slot.Within ⟨[], 8, 8, 8⟩ 0 8 := ⟨by decide, by decide, by decide⟩
    have hend : sinkEnd ((some spill).toList.map fun _ => (⟨8, 8⟩ : Item)) 0 = 8 := by
      simp [sinkEnd, sink, alignUp]
    rw [hend]
    refine ⟨[⟨[], 8, 8, 8⟩], .single hw, ?_, hsize⟩
    simp only [Option.toList_some, List.map_cons, List.map_nil, hoff]
    rfl

theorem spillRetArg_stackArgOffset (ret : Ty) :
    (spillRetArg ret).2.stackArgOffset = BitVec.ofNat 64 16 := by
  unfold spillRetArg
  split <;> rfl

/-- The variables of the frame are slots of the abstract one. -/
theorem assignProcStackOffsets_eq (hpow : proc.PowersOfTwo)
    (hfit : proc.frameDepth objRegClass < 2 ^ 32) :
    ∃ slots, SlotStack slots 0 (proc.frameDepth objRegClass) ∧
      (assignProcStackOffsets objRegClass proc).vars = slots.map Slot.var ∧
      (assignProcStackOffsets objRegClass proc).stackSize =
        BitVec.ofNat 64 (proc.frameDepth objRegClass) := by
  obtain ⟨retSlots, hret, hretVars, hretSize⟩ := stacked_retArg proc.ret
  obtain ⟨paramSlots, hparams, hparamVars, hparamSize⟩ :=
    @stacked_params objRegClass _ _ proc.params hretSize hpow.params
  have hspilled : sinkEnd (proc.spilled objRegClass) 0 =
      sinkEnd (spillItems proc.params (assignProcParamOffsets objRegClass proc.ret proc.params).2)
        (sinkEnd ((spillRetArg proc.ret).1.toList.map fun _ => ⟨8, 8⟩) 0) := sinkEnd_append ..
  replace hparams := hret.append hparams
  rw [assignProcParamOffsets] at hspilled
  rw [← hspilled] at hparams hparamSize
  rw [ProcScope.frameDepth] at hfit ⊢
  generalize sinkEnd (proc.spilled objRegClass) 0 = depth at hfit hparams hparamSize ⊢
  have hpos := All.imp ScopeDecls.items (fun i hi => PowerOfTwo.pos hi) proc.scope hpow.scope
  refine ⟨_, hparams.append (stacked_slots _ 16 (by decide) proc.scope hpos [] depth), ?_⟩
  -- the same in the code: each loop starts where the last one ended
  have hall := hpow.scope
  rw [ProcScope.scope, All] at hall
  rw [ProcScope.scope, bottom] at hfit
  have hlocals : ∀ i ∈ proc.locals.map typeItem, PowerOfTwo i :=
    fun i hi => hall.1 i (List.mem_append_left _ hi)
  have htmps : ∀ i ∈ proc.tmpObjs, PowerOfTwo i :=
    fun i hi => hall.1 i (List.mem_append_right _ (List.mem_append_left _ hi))
  have hobjs : ∀ i ∈ proc.objs, PowerOfTwo i :=
    fun i hi => hall.1 i (List.mem_append_right _ (List.mem_append_right _ hi))
  have hend : sinkEnd (ScopeDecls.items ⟨proc.locals, proc.tmpObjs ++ proc.objs⟩) depth =
      sinkEnd proc.objs (sinkEnd proc.tmpObjs (sinkEnd (proc.locals.map typeItem) depth)) := by
    rw [ScopeDecls.items, sinkEnd_append, sinkEnd_append]
  have hsink : sinkAll [] (ScopeDecls.items ⟨proc.locals, proc.tmpObjs ++ proc.objs⟩) depth =
      sinkAll [] (proc.locals.map typeItem) depth ++
        (sinkAll [] proc.tmpObjs (sinkEnd (proc.locals.map typeItem) depth) ++
          sinkAll [] proc.objs (sinkEnd proc.tmpObjs (sinkEnd (proc.locals.map typeItem) depth))) := by
    rw [ScopeDecls.items, sinkAll_append, sinkAll_append]
  rw [hend] at hfit
  generalize hn : sinkEnd proc.objs (sinkEnd proc.tmpObjs
    (sinkEnd (proc.locals.map typeItem) depth)) = n at hfit hend
  have hle := le_bottomAll ScopeDecls.items 16 proc.children n
  have hup := le_alignUp (bottomAll ScopeDecls.items 16 proc.children n) (show 0 < 16 by decide)
  have hinner := assignTopChildOffsets_eq hall.2 0 (Nat.le_refl n) (by omega) (by omega)
  rw [Nat.max_eq_right hle] at hinner
  have hround := alignUpMask_ofNat (show 4 < 64 by decide)
    (bottomAll ScopeDecls.items 16 proc.children n)
  simp only [assignProcStackOffsets, assignProcParamOffsets, hparamSize, sumSizes_eq [] hlocals,
    sumSizes_eq [] htmps, sumSizes_eq [] hobjs, hn, hinner, ProcScope.scope, slots, bottom, hend,
    hsink, hretVars, hparamVars, List.map_append, List.append_assoc, true_and]
  exact hround

/-- Slots of the abstract frame are sound variables. -/
theorem FrameLayout.Sound.of_slots {L : FrameLayout} {slots : List Slot} {depth frame top : Nat}
    (h : SlotStack slots 0 depth) (hvars : L.vars = slots.map Slot.var)
    (hargs : Raised L.stackParams 16 top) (htop : top < 2 ^ 31) (hdepth : depth ≤ frame)
    (hframe : frame < 2 ^ 31) : L.Sound frame := by
  have hoff : ∀ s ∈ slots, (Slot.var s).offset.toInt = -(s.depth : Int) := fun s hs =>
    toInt_neg_setWidth (by have := (h.within s hs).upper; omega)
  have harg : ∀ {o : Nat} {v : StackVar}, v.offset = (BitVec.ofNat 64 o).setWidth 32 → o ≤ top →
      v.offset.toInt = o := fun hv ho => by
    rw [hv, setWidth_ofNat, toInt_ofNat (by omega)]
  have hvar : ∀ v ∈ L.vars, -(frame : Int) ≤ v.offset.toInt ∧ v.offset.toInt + v.size ≤ 0 := by
    rw [hvars]
    intro v hv
    obtain ⟨s, hs, rfl⟩ := List.mem_map.mp hv
    have hlower := (h.within s hs).lower
    have hupper := (h.within s hs).upper
    rw [hoff s hs]
    simp only [Slot.var]
    omega
  have habove : ∀ v ∈ L.stackParams, 16 ≤ v.offset.toInt ∧ (8 : Int) ∣ v.offset.toInt := by
    intro v hv
    obtain ⟨o, ho, hge, hend, hd⟩ := hargs.start v hv
    rw [harg ho (by omega)]
    omega
  refine ⟨hvar, ?_, habove, ?_⟩
  · rw [hvars]
    intro v hv
    obtain ⟨s, hs, rfl⟩ := List.mem_map.mp hv
    rw [hoff s hs, Int.dvd_neg]
    exact Int.natCast_dvd_natCast.mpr (h.within s hs).aligned
  · refine List.pairwise_append.mpr ⟨?_, ?_, fun a ha c hc _ => ?_⟩
    · rw [hvars, List.pairwise_map]
      refine h.apart.imp_of_mem fun {s t} hs ht hapart hnest => ?_
      have hst : s.depth + t.size ≤ t.depth ∨ t.depth + s.size ≤ s.depth := hapart hnest
      rw [StackVar.Apart, hoff s hs, hoff t ht]
      simp only [Slot.var]
      omega
    · refine hargs.apart.imp fun ⟨o, o', ho, ho', hle, hend⟩ _ => ?_
      rw [StackVar.Apart, harg ho (by omega), harg ho' hend]
      omega
    · have h₁ := (hvar a ha).2
      have h₂ := (habove c hc).1
      exact .inl (by omega)

/-- The frame that the allocator leaves contains its slots. -/
theorem linearScanRegAlloc_frame {b : LirRegs} {scratch : ScratchRegs} {stackOffset : BitVec 32}
    {res : RegAllocResult} (h : linearScanRegAlloc b scratch stackOffset = some res)
    (hfit : alignUp (stackOffset.toNat + 8 * b.unhandled.countP res.onStack) 16 < 2 ^ 31) :
    stackOffset.toNat ≤ res.stackOffset.toNat ∧ res.stackOffset.toNat < 2 ^ 31 ∧
      res.SlotsApart b.unhandled stackOffset.toNat ∧
      ∀ a ∈ b.unhandled, ∀ o, res.loc a.lreg = some (.stack o) →
        -(res.stackOffset.toNat : Int) ≤ o.toInt := by
  obtain ⟨s, I, hres⟩ := linearScanRegAlloc_final h
  have hloc : res.loc = s.loc := by rw [hres]
  obtain ⟨sp, hoffset, hst, hall, hown⟩ := I.slots
  have hlen := I.length_le_onStack hloc hst hown
  have hround : alignUp (stackOffset.toNat + 8 * sp.length) 16 < 2 ^ 31 :=
    Nat.lt_of_le_of_lt (alignUp_mono (by decide) (by omega)) hfit
  have hle := le_alignUp (stackOffset.toNat + 8 * sp.length) (show 0 < 16 by decide)
  have hsize : res.stackOffset.toNat = alignUp (stackOffset.toNat + 8 * sp.length) 16 := by
    have hup := alignUpMask_ofNat (show 4 < 32 by decide) (stackOffset.toNat + 8 * sp.length)
    rw [hres, hoffset]
    refine (congrArg BitVec.toNat hup).trans ?_
    rw [BitVec.toNat_ofNat]
    exact Nat.mod_eq_of_lt (Nat.lt_trans hround (by decide))
  have hcount := le_alignUp (stackOffset.toNat + 8 * b.unhandled.countP res.onStack)
    (show 0 < 16 by decide)
  refine ⟨by omega, by omega, I.slotsApart hloc (by omega), fun a ha o ho => ?_⟩
  rw [hloc] at ho
  obtain ⟨n, hpos, hn, hslot, -⟩ := hst.exists_position (hall _ _ ho)
  rw [ho] at hslot
  cases hslot
  rw [toInt_slotOffset (by omega), hsize]
  omega

/-- **The stack frame.** Where alignments are powers of two and the frame, with the slots of the
allocator, and the arguments on the stack fit 31 bits, what can be live together is apart and in
place; the allocator's slots are below it, in what is subtracted from `rsp`. -/
theorem assignProcStackOffsets_sound (hpow : proc.PowersOfTwo)
    (hargs : argEnd proc.params (assignProcParamOffsets objRegClass proc.ret proc.params).2 16 <
      2 ^ 31)
    {b : LirRegs} {scratch : ScratchRegs} {res : RegAllocResult}
    (h : linearScanRegAlloc b scratch
      ((assignProcStackOffsets objRegClass proc).stackSize.setWidth 32) = some res)
    (hfit : alignUp (proc.frameDepth objRegClass + 8 * b.unhandled.countP res.onStack) 16 <
      2 ^ 31) :
    (assignProcStackOffsets objRegClass proc).Sound res.stackOffset.toNat ∧
      res.SlotsApart b.unhandled (proc.frameDepth objRegClass) ∧
      ∀ a ∈ b.unhandled, ∀ o, res.loc a.lreg = some (.stack o) →
        -(res.stackOffset.toNat : Int) ≤ o.toInt ∧
          ∀ v ∈ (assignProcStackOffsets objRegClass proc).vars, o.toInt + 8 ≤ v.offset.toInt := by
  have hdepth := le_alignUp (proc.frameDepth objRegClass + 8 * b.unhandled.countP res.onStack)
    (show 0 < 16 by decide)
  obtain ⟨slots, hstack, hvars, hsize⟩ := assignProcStackOffsets_eq hpow
    (show proc.frameDepth objRegClass < 2 ^ 32 by omega)
  have hbase : ((assignProcStackOffsets objRegClass proc).stackSize.setWidth 32).toNat =
      proc.frameDepth objRegClass := by
    rw [hsize, setWidth_ofNat, BitVec.toNat_ofNat]
    exact Nat.mod_eq_of_lt (by omega)
  obtain ⟨hle, hlt, hapart, hlow⟩ := linearScanRegAlloc_frame h (hbase.symm ▸ hfit)
  rw [hbase] at hle hapart
  have hsound := FrameLayout.Sound.of_slots hstack hvars
    (raised_stackParams (spillRetArg_stackArgOffset proc.ret) (by decide) hpow.params) hargs hle hlt
  refine ⟨hsound, hapart, fun a ha o ho => ⟨hlow a ha o ho, fun v hv => ?_⟩⟩
  have hbeyond := hapart.beyond a ha o ho
  rw [hvars] at hv
  obtain ⟨s, hs, rfl⟩ := List.mem_map.mp hv
  have hupper := (hstack.within s hs).upper
  have hoff : (Slot.var s).offset.toInt = -(s.depth : Int) := toInt_neg_setWidth (by omega)
  rw [hoff]
  omega

end

/-- A procedure of seven integers with a local variable, a temporary object and two blocks. -/
def twoBlocks : ProcScope where
  ret := .void
  params := List.replicate 7 (.integer .s32)
  locals := [.integer .s64]
  tmpObjs := [⟨24, 8⟩]
  objs := []
  children := [.mk ⟨[.integer .u8], []⟩ [], .mk ⟨[.ptr .void], [⟨3, 1⟩]⟩ []]

theorem powersOfTwo_twoBlocks : twoBlocks.PowersOfTwo := by
  constructor
  · intro t ht
    cases List.eq_of_mem_replicate ht
    exact ⟨2, by decide, rfl⟩
  · simp only [ProcScope.scope, twoBlocks, All, AllIn, ScopeDecls.items, List.map_cons,
      List.map_nil, List.append_nil, List.nil_append, List.cons_append, List.forall_mem_cons,
      List.not_mem_nil, false_implies, implies_true, and_true]
    exact ⟨⟨⟨3, by decide, rfl⟩, ⟨3, by decide, rfl⟩⟩, ⟨0, by decide, rfl⟩, ⟨3, by decide, rfl⟩,
      ⟨0, by decide, rfl⟩⟩

theorem assignProcStackOffsets_sound_twoBlocks :
    ∃ res, linearScanRegAlloc twoArgs leafScratchRegs
        ((assignProcStackOffsets (fun _ => .int) twoBlocks).stackSize.setWidth 32) = some res ∧
      (assignProcStackOffsets (fun _ => .int) twoBlocks).Sound res.stackOffset.toNat := by
  obtain ⟨res, hres⟩ := Option.isSome_iff_exists.mp (by decide :
    (linearScanRegAlloc twoArgs leafScratchRegs
      ((assignProcStackOffsets (fun _ => .int) twoBlocks).stackSize.setWidth 32)).isSome = true)
  have hcount : twoArgs.unhandled.countP res.onStack ≤ 2 :=
    Nat.le_trans List.countP_le_length (by decide)
  have hdepth : twoBlocks.frameDepth (fun _ => .int) = 80 := by decide
  have hfit := alignUp_lt (80 + 8 * twoArgs.unhandled.countP res.onStack) (show 0 < 16 by decide)
  refine ⟨res, hres, (assignProcStackOffsets_sound powersOfTwo_twoBlocks (by decide) hres ?_).1⟩
  rw [hdepth]
  omega

/-- The seventh parameter is on the stack, above the frame. -/
theorem not_inFrame_twoBlocks :
    twoBlocks.PowersOfTwo ∧
      ∃ v ∈ (assignProcStackOffsets (fun _ => .int) twoBlocks).stackParams,
        ¬ v.offset.toInt + v.size ≤ 0 :=
  ⟨powersOfTwo_twoBlocks, ⟨[], 4, 4, 16⟩, by decide, by decide⟩

end Nibble.X64
