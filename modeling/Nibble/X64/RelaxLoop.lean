import Nibble.X64.Relax

/-!
# The relaxation loop ends

The invariant of the loop: the code of the blocks is what it was, and every
jump is in a state it may be in. A step that changes no size leaves all
distances as they are, so once a whole sweep changes none every jump is
encoded for the distances of the final layout.
-/

namespace Nibble.X64

open Nibble.Lib

/-! ## Distances of two layouts -/

section

variable {f g : TextBBlock → Nat} {src : Nat} {b c : TextBBlock} {j : JmpInstr}
  {bs cs : List TextBBlock}

/-- A distance does not count the block the jump is in, apart from its buffer. -/
theorem jmpDist_congr (hs : ∀ k, k ≠ src → sizeAt f bs k = sizeAt g cs k)
    (hb : b.buffer = c.buffer) : jmpDist f src b j bs = jmpDist g src c j cs := by
  unfold jmpDist
  split
  · apply Finset.sum_congr rfl
    intro k hk
    rw [Finset.mem_Ico] at hk
    exact hs k (by omega)
  · rw [hb]
    congr 1
    apply Finset.sum_congr rfl
    intro k hk
    rw [Finset.mem_Ico] at hk
    exact hs k (by omega)

theorem jmpDist_le (hs : ∀ k, sizeAt f bs k ≤ sizeAt g cs k) (hb : b.buffer = c.buffer) :
    jmpDist f src b j bs ≤ jmpDist g src c j cs := by
  unfold jmpDist
  split
  · exact Finset.sum_le_sum fun k _ => hs k
  · rw [hb]
    exact Nat.add_le_add_right (Finset.sum_le_sum fun k _ => hs k) _

theorem jmpFits_of_le {d e : Nat} (h : d ≤ e) (hf : jmpFits src j d = false) :
    jmpFits src j e = false := by
  unfold jmpFits at *
  split
  · rename_i hfwd
    simp only [hfwd, ite_true, decide_eq_false_iff_not] at hf ⊢
    omega
  · rename_i hfwd
    simp only [hfwd, ite_false, decide_eq_false_iff_not] at hf ⊢
    omega

theorem InReach.of_le (h : InReach g src c j cs)
    (hd : jmpDist f src b j bs ≤ jmpDist g src c j cs) : InReach f src b j bs := by
  unfold InReach jmpDisp at *
  split
  · rename_i hfwd
    simp only [hfwd, ite_true] at h
    omega
  · rename_i hfwd
    simp only [hfwd, ite_false] at h
    omega

end

/-! ## The invariant -/

/-- What relaxation does not change of a block. -/
def TextBBlock.code (b : TextBBlock) : List UInt8 × Option JmpInstr := (b.buffer, b.jmpInstr)

/-- Every jump goes to a block, and reaches it with 32 bits where all jumps are long. -/
def Reachable (bs : List TextBBlock) : Prop :=
  ∀ k b j, bs[k]? = some b → b.jmpInstr = some j →
    j.target < bs.length ∧ InReach TextBBlock.longSize k b j bs

/-- The invariant of the loop. -/
structure RelaxInv (bs₀ bs : List TextBBlock) : Prop where
  code : bs.map TextBBlock.code = bs₀.map TextBBlock.code
  state : ∀ k b, bs[k]? = some b → JmpState k b bs

theorem sizeAt_eq (f : TextBBlock → Nat) (bs : List TextBBlock) (k : Nat) :
    sizeAt f bs k = (bs[k]?.map f).getD 0 := by
  simp [sizeAt, List.getD_eq_getElem?_getD]

theorem sizeAt_set (f : TextBBlock → Nat) {bs : List TextBBlock} {i : Nat} {b : TextBBlock}
    (hi : i < bs.length) (k : Nat) :
    sizeAt f (bs.set i b) k = if k = i then f b else sizeAt f bs k := by
  rw [sizeAt_eq, sizeAt_eq]
  by_cases h : k = i
  · subst h
    simp [hi]
  · rw [List.getElem?_set_ne (by omega), if_neg h]

theorem longSize_of_code {b c : TextBBlock} (h : b.code = c.code) : b.longSize = c.longSize := by
  simp only [TextBBlock.code, Prod.mk.injEq] at h
  unfold TextBBlock.longSize
  rw [h.1, h.2]

theorem sizeAt_longSize_of_code {bs cs : List TextBBlock}
    (h : bs.map TextBBlock.code = cs.map TextBBlock.code) (k : Nat) :
    sizeAt TextBBlock.longSize bs k = sizeAt TextBBlock.longSize cs k := by
  have hk : (bs.map TextBBlock.code)[k]? = (cs.map TextBBlock.code)[k]? := by rw [h]
  rw [sizeAt_eq, sizeAt_eq]
  simp only [List.getElem?_map] at hk
  cases hb : bs[k]? with
  | none =>
    cases hc : cs[k]? with
    | none => rfl
    | some c => rw [hb, hc] at hk; cases hk
  | some b =>
    cases hc : cs[k]? with
    | none => rw [hb, hc] at hk; cases hk
    | some c =>
      rw [hb, hc] at hk
      have hcode : b.code = c.code := by simpa using hk
      simp [longSize_of_code hcode]

/-- The code of block `k` in two layouts of the same code. -/
theorem getElem?_of_code {bs cs : List TextBBlock}
    (h : bs.map TextBBlock.code = cs.map TextBBlock.code) {k : Nat} {b : TextBBlock}
    (hb : bs[k]? = some b) : ∃ c, cs[k]? = some c ∧ b.code = c.code := by
  have hk : (bs.map TextBBlock.code)[k]? = (cs.map TextBBlock.code)[k]? := by rw [h]
  simp only [List.getElem?_map, hb, Option.map_some] at hk
  obtain ⟨c, hc, hcode⟩ := Option.map_eq_some_iff.mp hk.symm
  exact ⟨c, hc, hcode.symm⟩

theorem length_of_code {bs cs : List TextBBlock}
    (h : bs.map TextBBlock.code = cs.map TextBBlock.code) : bs.length = cs.length := by
  simpa using congrArg List.length h

section

variable {bs₀ bs : List TextBBlock}

theorem RelaxInv.sizeAt_le (h : RelaxInv bs₀ bs) (k : Nat) :
    sizeAt TextBBlock.size bs k ≤ sizeAt TextBBlock.longSize bs₀ k := by
  rw [← sizeAt_longSize_of_code h.code, sizeAt_eq, sizeAt_eq]
  cases hb : bs[k]? with
  | none => exact Nat.le_refl _
  | some b => exact (h.state k b hb).size_le

/-- Every target stays in reach. -/
theorem RelaxInv.inReach (h : RelaxInv bs₀ bs) (hr : Reachable bs₀) {k : Nat} {b : TextBBlock}
    {j : JmpInstr} (hb : bs[k]? = some b) (hj : b.jmpInstr = some j) :
    InReach TextBBlock.size k b j bs := by
  obtain ⟨c, hc, hcode⟩ := getElem?_of_code h.code hb
  simp only [TextBBlock.code, Prod.mk.injEq] at hcode
  have hjc : c.jmpInstr = some j := by rw [← hcode.2, hj]
  exact (hr k c j hc hjc).2.of_le (jmpDist_le h.sizeAt_le hcode.1)

/-! ## Steps -/

/-- A jump stays in a state it may be in when the sizes grow. -/
theorem JmpState.of_le {src : Nat} {b : TextBBlock} {cs : List TextBBlock} (h : JmpState src b bs)
    (hs : ∀ k, sizeAt TextBBlock.size bs k ≤ sizeAt TextBBlock.size cs k) : JmpState src b cs := by
  cases h with
  | noJmp hj ho hl => exact .noJmp hj ho hl
  | fresh j hj ho hl hz => exact .fresh j hj ho hl hz
  | short j disp hj he h8 => exact .short j disp hj he h8
  | long j disp hj he hf => exact .long j disp hj he (jmpFits_of_le (jmpDist_le hs rfl) hf)

section

variable {i : Nat} {b b' : TextBBlock} {c : Bool}

theorem sizeAt_le_set (hb : bs[i]? = some b) (hle : b.size ≤ b'.size) (k : Nat) :
    sizeAt TextBBlock.size bs k ≤ sizeAt TextBBlock.size (bs.set i b') k := by
  have hi : i < bs.length := (List.getElem?_eq_some_iff.mp hb).1
  rw [sizeAt_set _ hi]
  split
  · rename_i hk
    subst hk
    rw [sizeAt_eq, hb]
    exact hle
  · exact Nat.le_refl _

theorem sizeAt_set_eq {f : TextBBlock → Nat} (hb : bs[i]? = some b) (he : f b' = f b) (k : Nat) :
    sizeAt f (bs.set i b') k = sizeAt f bs k := by
  have hi : i < bs.length := (List.getElem?_eq_some_iff.mp hb).1
  rw [sizeAt_set _ hi]
  split
  · rename_i hk
    subst hk
    rw [sizeAt_eq, hb]
    exact he
  · rfl

theorem getElem?_set_of_ne {k : Nat} (h : k ≠ i) : (bs.set i b')[k]? = bs[k]? :=
  List.getElem?_set_ne (by omega)

theorem getElem?_set_of_some (hb : bs[i]? = some b) : (bs.set i b')[i]? = some b' :=
  List.getElem?_set_self (List.getElem?_eq_some_iff.mp hb).1

/-- An updated jump has the distance it was updated for. -/
theorem jmpDist_set (hu : Updated i bs b b' c) (hb : bs[i]? = some b) (j : JmpInstr) :
    jmpDist TextBBlock.size i b' j (bs.set i b') = jmpDist TextBBlock.size i b j bs := by
  apply jmpDist_congr _ hu.buffer
  intro k hk
  rw [sizeAt_set _ (List.getElem?_eq_some_iff.mp hb).1, if_neg hk]

/-- The updated block. -/
theorem Updated.jmpState (hu : Updated i bs b b' c) (hb : bs[i]? = some b)
    (hr : ∀ j, b.jmpInstr = some j → InReach TextBBlock.size i b j bs) :
    JmpState i b' (bs.set i b') := by
  cases hj : b.jmpInstr with
  | none =>
    obtain ⟨ho, hl⟩ := hu.noJmp hj
    exact .noJmp (by rw [hu.jmpInstr, hj]) ho hl
  | some j =>
    have he := hu.encoded j hj
    have h8 := dispIsImm8_jmpDisp (hr j hj)
    have hd := jmpDist_set hu hb j
    have hj' : b'.jmpInstr = some j := by rw [hu.jmpInstr, hj]
    dsimp only at he
    cases hf : jmpFits i j (jmpDist TextBBlock.size i b j bs) with
    | true =>
      rw [hf] at he h8
      exact .short j _ hj' he (by rw [he.offset, h8])
    | false =>
      rw [hf] at he
      exact .long j _ hj' he (by rw [hd, hf])

/-- A step keeps the invariant. -/
theorem RelaxInv.set (h : RelaxInv bs₀ bs) (hr : Reachable bs₀) (hb : bs[i]? = some b)
    (hu : Updated i bs b b' c) : RelaxInv bs₀ (bs.set i b') where
  code := by
    rw [← h.code]
    apply List.ext_getElem?
    intro k
    rw [List.getElem?_map, List.getElem?_map]
    by_cases hk : k = i
    · subst hk
      rw [getElem?_set_of_some hb, hb]
      simp [TextBBlock.code, hu.buffer, hu.jmpInstr]
    · rw [getElem?_set_of_ne hk]
  state := by
    intro k d hd
    by_cases hk : k = i
    · subst hk
      rw [getElem?_set_of_some hb] at hd
      cases hd
      exact hu.jmpState hb fun j hj => h.inReach hr hb hj
    · rw [getElem?_set_of_ne hk] at hd
      exact (h.state k d hd).of_le (sizeAt_le_set hb hu.size_le)

/-- The inversion of a step. -/
theorem RelaxInv.step (h : RelaxInv bs₀ bs) (hr : Reachable bs₀) (hi : i < bs₀.length) :
    ∃ b b' c, bs[i]? = some b ∧ updateStep i bs = some (bs.set i b', c) ∧
      Updated i bs b b' c := by
  have hlen := length_of_code h.code
  have hb : bs[i]? = some bs[i] := List.getElem?_eq_getElem (by omega)
  obtain ⟨b', c, hup, hu⟩ := updateJmp_spec (h.state i _ hb) fun j hj => h.inReach hr hb hj
  exact ⟨_, b', c, hb, by simp only [updateStep, hb, Option.bind_eq_bind, Option.bind_some, hup]; rfl,
    hu⟩

end

/-- The jumps that may still grow. -/
def growCount (n : Nat) (bs : List TextBBlock) : Nat :=
  ∑ k ∈ Finset.range n, sizeAt (fun b => b.mayGrow.toNat) bs k

/-- The jump of block `i` is encoded for the distances of the layout. -/
def Settled (i : Nat) (bs : List TextBBlock) : Prop :=
  ∀ b j, bs[i]? = some b → b.jmpInstr = some j →
    let dist := jmpDist TextBBlock.size i b j bs
    JmpEncoded b j (jmpFits i j dist) (jmpDisp i j dist (jmpFits i j dist))

theorem growCount_set_lt {i : Nat} {b b' : TextBBlock} (hi : i < bs₀.length)
    (hb : bs[i]? = some b) (hg : b.mayGrow = true) (hg' : b'.mayGrow = false) :
    growCount bs₀.length (bs.set i b') < growCount bs₀.length bs := by
  have hset := sizeAt_set (fun b => b.mayGrow.toNat) (List.getElem?_eq_some_iff.mp hb).1 (b := b')
  have hold : sizeAt (fun b => b.mayGrow.toNat) bs i = 1 := by
    rw [sizeAt_eq, hb]
    simp [hg]
  apply Finset.sum_lt_sum
  · intro k _
    rw [hset]
    split
    · simp [hg']
    · exact Nat.le_refl _
  · refine ⟨i, Finset.mem_range.mpr hi, ?_⟩
    rw [hset, if_pos rfl, hold, hg']
    decide

/-- A step without a change of size keeps what other steps settled. -/
theorem Settled.set {i k : Nat} {b b' : TextBBlock} (hk : k ≠ i) (hb : bs[i]? = some b)
    (hs : b'.size = b.size) (h : Settled k bs) : Settled k (bs.set i b') := by
  intro d j hd hj
  rw [getElem?_set_of_ne hk] at hd
  have hdist : jmpDist TextBBlock.size k d j (bs.set i b') = jmpDist TextBBlock.size k d j bs :=
    jmpDist_congr (fun n _ => sizeAt_set_eq hb hs n) rfl
  rw [hdist]
  exact h d j hd hj

/-- The loop over the blocks settles. -/
theorem settles (hr : Reachable bs₀) :
    Settles updateStep bs₀.length (RelaxInv bs₀) (growCount bs₀.length) Settled where
  progress i hi bs h := by
    obtain ⟨b, b', c, -, hstep, -⟩ := h.step hr hi
    exact ⟨_, hstep⟩
  inv i hi bs bs' c h hstep := by
    obtain ⟨b, b', c', hb, hstep', hu⟩ := h.step hr hi
    rw [hstep'] at hstep
    cases hstep
    exact h.set hr hb hu
  changed i hi bs bs' h hstep := by
    obtain ⟨b, b', c', hb, hstep', hu⟩ := h.step hr hi
    rw [hstep'] at hstep
    cases hstep
    obtain ⟨hg, hg'⟩ := hu.grown rfl
    exact growCount_set_lt hi hb hg hg'
  unchanged i hi bs bs' h hstep := by
    obtain ⟨b, b', c', hb, hstep', hu⟩ := h.step hr hi
    rw [hstep'] at hstep
    cases hstep
    have hg := (hu.same rfl).2
    apply Nat.le_of_eq
    apply Finset.sum_congr rfl
    intro k _
    exact sizeAt_set_eq hb (by rw [hg]) k
  settled i hi bs bs' h hstep := by
    obtain ⟨b, b', c', hb, hstep', hu⟩ := h.step hr hi
    rw [hstep'] at hstep
    cases hstep
    intro d j hd hj
    rw [getElem?_set_of_some hb] at hd
    cases hd
    rw [jmpDist_set hu hb j]
    exact hu.encoded j (by rw [← hu.jmpInstr, hj])
  keeps i hi k hk bs bs' h hstep hQ := by
    obtain ⟨b, b', c', hb, hstep', hu⟩ := h.step hr hi
    rw [hstep'] at hstep
    cases hstep
    exact hQ.set (by omega) hb (hu.same rfl).1

/-- A block as it comes from the instructions: its jump is not encoded. -/
def TextBBlock.Fresh (b : TextBBlock) : Prop :=
  b.jmpOpcode = [] ∧ b.jmpOffset = 0 ∧ b.jmpOffsetLen = 0

theorem relaxInv_of_fresh (hf : ∀ b ∈ bs, b.Fresh) : RelaxInv bs bs where
  code := rfl
  state := by
    intro k b hb
    obtain ⟨ho, hz, hl⟩ := hf b (List.mem_of_getElem? hb)
    cases hj : b.jmpInstr with
    | none => exact .noJmp hj ho hl
    | some j => exact .fresh j hj ho hl hz

/-- The loop ends with every jump encoded for the final distances. -/
theorem relaxJmps_spec (hf : ∀ b ∈ bs, b.Fresh) (hr : Reachable bs) :
    ∃ fuel bs', relaxJmps fuel bs = some bs' ∧ RelaxInv bs bs' ∧
      ∀ i < bs.length, Settled i bs' := by
  obtain ⟨bs', hloop, hinv, hset⟩ :=
    (settles hr).sweepLoop_spec (relaxInv_of_fresh hf) (Nat.lt_succ_self _)
  exact ⟨_, bs', hloop, hinv, hset⟩

end

end Nibble.X64
