import Nibble.X64.Decode
import Nibble.X64.RelaxLoop

/-!
# Jumps land on their targets

The bytes of the final layout: block `k` starts at its final offset, and the
jump of a block, decoded where its buffer ends, leads to the final offset of
its target.
-/

namespace Nibble.X64

open Nibble.IR (ConditionKind)
open Nibble.Lib

/-! ## Decoding a jump -/

/-- A jump with its displacement, in a rel8 or a rel32 form. -/
structure DecodedJmp where
  cond : Option ConditionKind
  short : Bool
  disp : Int
  deriving DecidableEq, Repr

def decodeRel8 (cond : Option ConditionKind) (bs : List UInt8) : Option (DecodedJmp × List UInt8) :=
  (readLe 1 bs).map fun (n, rest) => (⟨cond, true, (BitVec.ofNat 8 n).toInt⟩, rest)

def decodeRel32 (cond : Option ConditionKind) (bs : List UInt8) :
    Option (DecodedJmp × List UInt8) :=
  (readLe 4 bs).map fun (n, rest) => (⟨cond, false, (BitVec.ofNat 32 n).toInt⟩, rest)

/-- A jump, and the bytes after it. -/
def decodeJmp : List UInt8 → Option (DecodedJmp × List UInt8)
  | [] => none
  | b :: bs =>
    if b = 0xEB then decodeRel8 none bs
    else if b = 0xE9 then decodeRel32 none bs
    else if b.toNat / 16 = 7 then (decodeCond (b.toNat % 16)).bind fun c => decodeRel8 (some c) bs
    else if b = 0x0F then
      match bs with
      | [] => none
      | b :: bs =>
        if b.toNat / 16 = 8 then (decodeCond (b.toNat % 16)).bind fun c => decodeRel32 (some c) bs
        else none
    else none

theorem decodeRel8_leBytes (cond : Option ConditionKind) {off : BitVec 32}
    (h : dispIsImm8 off = true) (rest : List UInt8) :
    decodeRel8 cond (leBytes 1 off.toNat ++ rest) = some (⟨cond, true, off.toInt⟩, rest) := by
  have hoff : (BitVec.ofNat 8 (off.toNat % 2 ^ (8 * 1))).toInt = off.toInt := by
    simp only [dispIsImm8, Bool.and_eq_true, decide_eq_true_eq, BitVec.toInt_eq_toNat_cond] at h
    rw [BitVec.toInt_eq_toNat_cond, BitVec.toInt_eq_toNat_cond]
    simp only [BitVec.toNat_ofNat]
    have := off.isLt
    split at h <;> split <;> omega
  simp only [decodeRel8, readLe_leBytes, Option.map_some, hoff]

theorem decodeRel32_leBytes (cond : Option ConditionKind) (off : BitVec 32) (rest : List UInt8) :
    decodeRel32 cond (leBytes 4 off.toNat ++ rest) = some (⟨cond, false, off.toInt⟩, rest) := by
  have hoff : BitVec.ofNat 32 (off.toNat % 2 ^ (8 * 4)) = off := by
    rw [Nat.mod_eq_of_lt off.isLt, BitVec.ofNat_toNat, BitVec.setWidth_eq]
  simp only [decodeRel32, readLe_leBytes, Option.map_some, hoff]

/-- An encoded jump is read back. -/
theorem decodeJmp_opcode (j : JmpInstr) {short : Bool} {off : BitVec 32}
    (h : short = true → dispIsImm8 off = true) (rest : List UInt8) :
    decodeJmp (j.opcode short ++ leBytes (if short then 1 else 4) off.toNat ++ rest) =
      some (⟨j.cond, short, off.toInt⟩, rest) := by
  rw [List.append_assoc]
  obtain ⟨target, cond⟩ := j
  cases short with
  | true =>
    cases cond with
    | none => exact decodeRel8_leBytes none (h rfl) rest
    | some c =>
      have hd := decodeRel8_leBytes (some c) (h rfl) rest
      cases c <;> exact hd
  | false =>
    cases cond with
    | none => exact decodeRel32_leBytes none off rest
    | some c =>
      have hd := decodeRel32_leBytes (some c) off rest
      cases c <;> exact hd

/-! ## Serialization -/

/-- The length of the blocks before block `k`. -/
def blockStart (bs : List TextBBlock) (k : Nat) : Nat :=
  ((bs.take k).map fun b => b.bytes.length).sum

/-- The final offsets of blocks written from offset `n` on. -/
def finalOffsets (n : Nat) : List TextBBlock → List Nat
  | [] => []
  | b :: bs => n :: finalOffsets (n + b.bytes.length) bs

theorem serialize_eq {bs : List TextBBlock} (h : ∀ b ∈ bs, b.jmpInstr.isSome = true →
    0 < b.jmpOpcode.length ∧ 0 < b.jmpOffsetLen) (buffer : List UInt8) :
    serialize buffer bs =
      some (buffer ++ (bs.map TextBBlock.bytes).flatten, finalOffsets buffer.length bs) := by
  induction bs generalizing buffer with
  | nil => simp [serialize, finalOffsets]
  | cons b bs ih =>
    have hb : ¬ (b.jmpInstr.isSome = true ∧ ¬ (0 < b.jmpOpcode.length ∧ 0 < b.jmpOffsetLen)) := by
      rintro ⟨hj, hn⟩
      exact hn (h b (by simp) hj)
    have hbs := ih (fun b hb => h b (by simp [hb])) (buffer ++ b.bytes)
    simp only [serialize, hb, ite_false, hbs, finalOffsets]
    simp

/-- A final offset is the length of what was written before. -/
theorem finalOffsets_getElem? (n : Nat) (bs : List TextBBlock) {k : Nat} (hk : k < bs.length) :
    (finalOffsets n bs)[k]? =
      some (n + blockStart bs k) := by
  induction bs generalizing n k with
  | nil =>
    rw [List.length_nil] at hk
    omega
  | cons b bs ih =>
    cases k with
    | zero => simp [finalOffsets, blockStart]
    | succ k =>
      rw [List.length_cons] at hk
      show (finalOffsets (n + b.bytes.length) bs)[k]? = _
      rw [ih _ (by omega)]
      simp [blockStart, Nat.add_assoc]

/-- The bytes from the final offset of a block on. -/
theorem drop_flatten {bs : List TextBBlock} {k : Nat} {b : TextBBlock} (hb : bs[k]? = some b) :
    ((bs.map TextBBlock.bytes).flatten).drop (blockStart bs k) =
      b.bytes ++ ((bs.drop (k + 1)).map TextBBlock.bytes).flatten := by
  induction bs generalizing k with
  | nil => cases hb
  | cons c bs ih =>
    cases k with
    | zero =>
      cases hb
      simp [blockStart]
    | succ k =>
      have h := ih (k := k) hb
      unfold blockStart at h ⊢
      simp only [List.map_cons, List.flatten_cons, List.take_succ_cons, List.sum_cons,
        List.drop_succ_cons]
      rw [← List.drop_drop, List.drop_left, h]

/-! ## The final layout -/

/-- The jump of block `i`, decoded where the block's buffer ends, leads to the final offset of its
target. -/
def JmpLands (out : List UInt8) (offsets : List Nat) (i : Nat) (b : TextBBlock) (j : JmpInstr) :
    Prop :=
  ∃ start target d rest, offsets[i]? = some start ∧ offsets[j.target]? = some target ∧
    decodeJmp (out.drop (start + b.buffer.length)) = some (d, rest) ∧ d.cond = j.cond ∧
    (d.short = true → -128 ≤ d.disp ∧ d.disp ≤ 127) ∧
    ((out.length - rest.length : Nat) : Int) + d.disp = target

/-- The blocks `fin` are `bs` with their jumps encoded, one after the other behind `buffer`. -/
structure LayoutExact (buffer : List UInt8) (bs fin : List TextBBlock) (out : List UInt8)
    (offsets : List Nat) : Prop where
  code : fin.map TextBBlock.code = bs.map TextBBlock.code
  offset : ∀ k < bs.length,
    offsets[k]? = some (buffer.length + blockStart fin k)
  placed : ∀ (k : Nat) (b : TextBBlock) (start : Nat), fin[k]? = some b → offsets[k]? = some start → b.bytes <+: out.drop start
  lands : ∀ (i : Nat) (b : TextBBlock) (j : JmpInstr), fin[i]? = some b → b.jmpInstr = some j → JmpLands out offsets i b j

/-- The relaxation loop ends and its layout is exact. -/
def Relaxes (buffer : List UInt8) (bs : List TextBBlock) : Prop :=
  ∃ fuel fin out offsets, relaxJmps fuel bs = some fin ∧
    serialize buffer fin = some (out, offsets) ∧ LayoutExact buffer bs fin out offsets

section

variable {bs fin : List TextBBlock}

/-- The jump of a settled block, and its size. -/
theorem settled_bytes {k : Nat} {b : TextBBlock} (hinv : RelaxInv bs fin) (hs : Settled k fin)
    (hb : fin[k]? = some b) : b.bytes.length = b.size := by
  cases hj : b.jmpInstr with
  | none =>
    have hsize : b.size = b.buffer.length := by
      cases hinv.state k b hb with
      | noJmp _ ho hl => exact size_of_noJmp hj ho hl
      | fresh j hj' => rw [hj] at hj'; cases hj'
      | short j disp hj' => rw [hj] at hj'; cases hj'
      | long j disp hj' => rw [hj] at hj'; cases hj'
    simp [TextBBlock.bytes, hj, hsize]
  | some j =>
    have he := hs b j hb hj
    dsimp only at he
    have hlen := length_opcode j (jmpFits k j (jmpDist TextBBlock.size k b j fin))
    rw [size_of_encoded he, ← hlen]
    simp [TextBBlock.bytes, hj, he.opcode, he.offsetLen]

theorem sum_bytes (hinv : RelaxInv bs fin) (hs : ∀ i < bs.length, Settled i fin) (k : Nat) :
    blockStart fin k =
      ∑ i ∈ Finset.range k, sizeAt TextBBlock.size fin i := by
  have hmap : (fin.take k).map (fun b => b.bytes.length) = (fin.take k).map TextBBlock.size := by
    apply List.map_congr_left
    intro b hb
    obtain ⟨i, hi⟩ := List.mem_iff_getElem?.mp (List.mem_of_mem_take hb)
    have hlt : i < bs.length := by
      rw [← length_of_code hinv.code]
      exact (List.getElem?_eq_some_iff.mp hi).1
    exact settled_bytes hinv (hs i hlt) hi
  rw [blockStart, hmap, Finset.range_eq_Ico, ← sum_size_slice _ _ (Nat.zero_le k), List.drop_zero]

/-- The displacement is the way from the end of the jump to its target. -/
theorem jmpDisp_eq {f : Nat → Nat} {i n : Nat} {j : JmpInstr} {short : Bool} {dist : Nat}
    (hf : f i = n + j.size short)
    (hd : dist = if i < j.target then ∑ k ∈ Finset.Ico (i + 1) j.target, f k
      else (∑ k ∈ Finset.Ico j.target i, f k) + n) :
    ((∑ k ∈ Finset.range i, f k) + n + j.size short : Nat) + jmpDisp i j dist short =
      (∑ k ∈ Finset.range j.target, f k : Nat) := by
  unfold jmpDisp
  by_cases hfwd : i < j.target
  · rw [if_pos hfwd] at hd ⊢
    have hsplit := Finset.sum_range_add_sum_Ico f (show i + 1 ≤ j.target by omega)
    rw [Finset.sum_range_succ, hf] at hsplit
    omega
  · rw [if_neg hfwd] at hd ⊢
    have hsplit := Finset.sum_range_add_sum_Ico f (Nat.le_of_not_lt hfwd)
    omega

/-- The final offset of a block, and the bytes found there. -/
theorem drop_blockStart {buffer : List UInt8} {k : Nat} {b : TextBBlock} (hb : fin[k]? = some b) :
    (buffer ++ (fin.map TextBBlock.bytes).flatten).drop (buffer.length + blockStart fin k) =
      b.bytes ++ ((fin.drop (k + 1)).map TextBBlock.bytes).flatten := by
  rw [← List.drop_drop, List.drop_left]
  exact drop_flatten hb

theorem jmpLands {buffer : List UInt8} {i : Nat} {b : TextBBlock} {j : JmpInstr}
    (hinv : RelaxInv bs fin) (hs : ∀ i < bs.length, Settled i fin) (hr : Reachable bs)
    (hb : fin[i]? = some b) (hj : b.jmpInstr = some j) :
    JmpLands (buffer ++ (fin.map TextBBlock.bytes).flatten) (finalOffsets buffer.length fin) i b
      j := by
  have hlen := length_of_code hinv.code
  have hi : i < bs.length := by
    rw [← hlen]
    exact (List.getElem?_eq_some_iff.mp hb).1
  have htarget : j.target < fin.length := by
    obtain ⟨c, hc, hcode⟩ := getElem?_of_code hinv.code hb
    simp only [TextBBlock.code, Prod.mk.injEq] at hcode
    rw [hlen]
    exact (hr i c j hc (by rw [← hcode.2, hj])).1
  have he := hs i hi b j hb hj
  have hreach := hinv.inReach hr hb hj
  have h8 := dispIsImm8_jmpDisp hreach
  have htoInt := toInt_jmpDisp (jmpFits i j (jmpDist TextBBlock.size i b j fin)) hreach
  dsimp only at he
  generalize hdist : jmpDist TextBBlock.size i b j fin = dist at he h8 htoInt
  generalize hshort : jmpFits i j dist = short at he h8 htoInt
  have hdrop := @drop_blockStart fin buffer i b hb
  have hbytes : b.bytes = b.buffer ++ (j.opcode short ++
      leBytes (if short then 1 else 4) b.jmpOffset.toNat) := by
    simp [TextBBlock.bytes, hj, he.opcode, he.offsetLen]
  have hbyte : short = true → dispIsImm8 b.jmpOffset = true := by
    intro h
    rw [he.offset, h8, h]
  have hdec := decodeJmp_opcode j hbyte ((fin.drop (i + 1)).map TextBBlock.bytes).flatten
  have hoff : b.jmpOffset.toInt = jmpDisp i j dist short := by rw [he.offset, htoInt]
  refine ⟨_, _, _, _, finalOffsets_getElem? _ _ (by omega), finalOffsets_getElem? _ _ htarget,
    by rw [← List.drop_drop, hdrop, hbytes, List.append_assoc, List.drop_left, hdec], rfl, ?_, ?_⟩
  · intro h
    have hrange := hbyte h
    simp only [dispIsImm8, Bool.and_eq_true, decide_eq_true_eq] at hrange
    exact ⟨hrange.2, hrange.1⟩
  · have hsize := size_of_encoded he
    have hlenBytes := settled_bytes hinv (hs i hi) hb
    have hpos := two_le_size j short
    have hlenDrop := congrArg List.length hdrop
    rw [List.length_drop, @List.length_append _ b.bytes] at hlenDrop
    have hf : sizeAt TextBBlock.size fin i = b.buffer.length + j.size short := by
      rw [sizeAt_eq, hb, ← hsize]
      rfl
    have hway := jmpDisp_eq hf (hdist.symm.trans (by rfl))
    rw [← sum_bytes hinv hs, ← sum_bytes hinv hs] at hway
    show ((_ - _ : Nat) : Int) + b.jmpOffset.toInt = _
    rw [hoff]
    omega

theorem relaxes_of_fresh (buffer : List UInt8) (hf : ∀ b ∈ bs, b.Fresh) (hr : Reachable bs) :
    Relaxes buffer bs := by
  obtain ⟨fuel, fin, hloop, hinv, hs⟩ := relaxJmps_spec hf hr
  have hlen := length_of_code hinv.code
  have hassert : ∀ b ∈ fin, b.jmpInstr.isSome = true →
      0 < b.jmpOpcode.length ∧ 0 < b.jmpOffsetLen := by
    intro b hb hsome
    obtain ⟨k, hk⟩ := List.mem_iff_getElem?.mp hb
    obtain ⟨j, hj⟩ := Option.isSome_iff_exists.mp hsome
    have he := hs k (by rw [← hlen]; exact (List.getElem?_eq_some_iff.mp hk).1) b j hk hj
    dsimp only at he
    rw [he.opcode, he.offsetLen]
    refine ⟨opcode_length_pos j _, ?_⟩
    split <;> omega
  refine ⟨fuel, fin, _, _, hloop, serialize_eq hassert buffer, hinv.code, ?_, ?_, ?_⟩
  · intro k hk
    exact finalOffsets_getElem? _ _ (by omega)
  · intro k b start hb hstart
    rw [finalOffsets_getElem? _ _ (List.getElem?_eq_some_iff.mp hb).1] at hstart
    cases hstart
    rw [drop_blockStart hb]
    exact List.prefix_append _ _
  · intro i b j hb hj
    exact jmpLands hinv hs hr hb hj

end

/-! ## Procedures -/

section

variable {symKind : IR.SymId → SymKind}

theorem fresh_of_genInstr {index : Nat} {s s' : TextBBlock × Usages} {i : Instr}
    (h : genInstr symKind index s i = some s') (hf : s.1.Fresh) : s'.1.Fresh := by
  unfold genInstr at h
  split at h
  · split at h
    · cases h
    · cases h
      exact hf
  · obtain ⟨c, -, rfl⟩ := Option.map_eq_some_iff.mp h
    exact hf

theorem fresh_of_foldlM {index : Nat} {is : List Instr} {s s' : TextBBlock × Usages}
    (h : is.foldlM (genInstr symKind index) s = some s') (hf : s.1.Fresh) : s'.1.Fresh := by
  induction is generalizing s with
  | nil =>
    cases h
    exact hf
  | cons i is ih =>
    rw [List.foldlM_cons] at h
    obtain ⟨s₁, h₁, h⟩ := Option.bind_eq_some_iff.mp h
    exact ih h (fresh_of_genInstr h₁ hf)

/-- The jumps of a procedure are not encoded before the loop. -/
theorem fresh_of_genBBlocks {index : Nat} {u u' : Usages} {bblocks : List (List Instr)}
    {bs : List TextBBlock} (h : genBBlocks symKind index u bblocks = some (bs, u')) :
    ∀ b ∈ bs, b.Fresh := by
  induction bblocks generalizing index u bs with
  | nil =>
    cases h
    intro b hb
    cases hb
  | cons is rest ih =>
    simp only [genBBlocks, Option.bind_eq_bind, Option.bind_eq_some_iff] at h
    obtain ⟨⟨b, u₁⟩, hb, ⟨bs', u₂⟩, hrest, h⟩ := h
    cases h
    intro c hc
    rcases List.mem_cons.mp hc with rfl | hc
    · exact fresh_of_foldlM hb ⟨rfl, rfl, rfl⟩
    · exact ih hrest c hc

/-- The jumps of a procedure whose targets are in reach of 32 bits land on their targets. -/
theorem relaxes_of_genBBlocks (symKind : IR.SymId → SymKind) (bblocks : List (List Instr))
    (bs : List TextBBlock) (u : Usages) (buffer : List UInt8)
    (hg : genBBlocks symKind 0 ⟨[], []⟩ bblocks = some (bs, u)) (hr : Reachable bs) :
    Relaxes buffer bs :=
  relaxes_of_fresh buffer (fresh_of_genBBlocks hg) hr

/-- A loop of two blocks, with a jump forward and one back. -/
theorem relaxes_loop :
    Relaxes [0xC3] [⟨[], some ⟨1, some .eq⟩, [], 0, 0⟩, ⟨[0xC3], some ⟨0, none⟩, [], 0, 0⟩] := by
  apply relaxes_of_genBBlocks (fun _ => .var) [[.jmpcc 1 .eq], [.ret, .jmp 0]] _ ⟨[], []⟩ _ rfl
  intro k b j hb hj
  match k with
  | 0 =>
    cases hb
    cases hj
    exact ⟨by decide, by decide, by decide⟩
  | 1 =>
    cases hb
    cases hj
    exact ⟨by decide, by decide, by decide⟩
  | k + 2 => cases hb

theorem foldlM_ret (n : Nat) (b : TextBBlock) (u : Usages) :
    (List.replicate n Instr.ret).foldlM (genInstr symKind 0) (b, u) =
      some ({ b with buffer := b.buffer ++ List.replicate n 0xC3 }, u) := by
  induction n generalizing b with
  | zero => simp
  | succ n ih =>
    have hstep : genInstr symKind 0 (b, u) .ret =
        some ({ b with buffer := b.buffer ++ [0xC3] }, u) := rfl
    rw [List.replicate_succ, List.foldlM_cons, hstep]
    show (List.replicate n Instr.ret).foldlM (genInstr symKind 0) _ = _
    rw [ih]
    simp [List.replicate_succ]

theorem genBBlocks_ret (n : Nat) :
    genBBlocks symKind 0 ⟨[], []⟩ [List.replicate n .ret ++ [.jmp 0]] =
      some ([⟨List.replicate n 0xC3, some ⟨0, none⟩, [], 0, 0⟩], ⟨[], []⟩) := by
  have hret := @foldlM_ret symKind n .empty ⟨[], []⟩
  simp only [genBBlocks, List.foldlM_append, hret]
  rfl

/-- The offset of a jump back over so many bytes wraps around to a positive one. -/
theorem relaxJmps_wraps {buffer : List UInt8} (h : BitVec.ofNat 32 buffer.length = 0x80000001#32)
    (fuel : Nat) : relaxJmps fuel [⟨buffer, some ⟨0, none⟩, [], 0, 0⟩] = none := by
  have hstep : updateStep 0 [⟨buffer, some ⟨0, none⟩, [], 0, 0⟩] = none := by
    simp only [updateStep, updateJmp, jmpOffsetTo, List.getElem?_cons_zero, Option.bind_eq_bind,
      Option.bind_some, h]
    rfl
  cases fuel with
  | zero => rfl
  | succ fuel =>
    simp only [relaxJmps, sweepLoop, sweep, List.length_singleton, Option.bind_eq_bind,
      Option.bind_some, hstep]
    rfl

/-- A block of more than `2^31` bytes that jumps to its own start fails the assertion. -/
theorem not_relaxes_far :
    ∃ n bs u, genBBlocks (fun _ => .var) 0 ⟨[], []⟩ [List.replicate n .ret ++ [.jmp 0]] =
        some (bs, u) ∧ n = 2147483649 ∧
      (∀ b ∈ bs, ∀ j, b.jmpInstr = some j → j.target < bs.length) ∧ ¬ Relaxes [] bs := by
  obtain ⟨n, hn⟩ : ∃ n, n = 2147483649 := ⟨_, rfl⟩
  refine ⟨n, _, _, genBBlocks_ret n, hn, ?_, ?_⟩
  · intro b hb j hj
    cases List.mem_singleton.mp hb
    cases hj
    show 0 < 1
    omega
  · rintro ⟨fuel, fin, out, offsets, hloop, -⟩
    have hlen : BitVec.ofNat 32 (List.replicate n (0xC3 : UInt8)).length = 0x80000001#32 := by
      rw [List.length_replicate, hn]
    rw [relaxJmps_wraps hlen] at hloop
    cases hloop

end

end Nibble.X64
