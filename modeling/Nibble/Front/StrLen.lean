import Nibble.Lib.Bytes

/-!
# The length of a string

`cstr_len` of `cstring.c`: bytes up to an aligned address, then words of four bytes until one
holds a NUL, then bytes again. A word holds a byte that is zero exactly when the mask that
`U32_HAS_ZERO_BYTE` makes is not zero: the lowest such byte borrows from the one above it, and
where there is none nothing is borrowed.
-/

namespace Nibble.Front

open Nibble.Lib (ofLeBytes)

/-- Memory, of which some bytes can be read. It is protected by the page, so that a word can be
read as a whole where one of its bytes can. -/
structure Memory where
  load : Nat → Option UInt8
  words : ∀ a, (load a).isSome → ∀ i < 4, (load (a / 4 * 4 + i)).isSome

/-- A `uint32_t`. -/
def Memory.loadWord (m : Memory) (a : Nat) : Option (BitVec 32) := do
  let bytes ← (List.range 4).mapM fun i => m.load (a + i)
  some (BitVec.ofNat 32 (ofLeBytes bytes))

def U32_ONE_BYTES : BitVec 32 := 0x01010101

def U32_EIGHT_BYTES : BitVec 32 := 0x80808080

/-- `sizeof(uint32_t) - 1` -/
def U32_ALIGN_MASK : Nat := 4 - 1

/-- `U32_HAS_ZERO_BYTE` -/
def U32_HAS_ZERO_BYTE (x : BitVec 32) : BitVec 32 := (x - U32_ONE_BYTES) &&& ~~~x &&& U32_EIGHT_BYTES

/-- Bytes up to an aligned address: whether a NUL was found, and where the loop ended. -/
def alignLoop (m : Memory) : Nat → Nat → Option (Bool × Nat)
  | 0, _ => none
  | fuel + 1, s =>
    if s &&& U32_ALIGN_MASK ≠ 0 then do
      let c ← m.load s
      if c = 0 then some (true, s) else alignLoop m fuel (s + 1)
    else some (false, s)

/-- Words until one holds a NUL. -/
def wordLoop (m : Memory) : Nat → Nat → Option Nat
  | 0, _ => none
  | fuel + 1, w => do
    let x ← m.loadWord w
    if U32_HAS_ZERO_BYTE x = 0 then wordLoop m fuel (w + 4) else some w

/-- Bytes until a NUL. -/
def byteLoop (m : Memory) : Nat → Nat → Option Nat
  | 0, _ => none
  | fuel + 1, s => do
    let c ← m.load s
    if c = 0 then some s else byteLoop m fuel (s + 1)

/-- `cstr_len` -/
def cstrLen (m : Memory) (fuel str : Nat) : Option Nat := do
  guard (str ≠ 0)
  let (found, s) ← alignLoop m fuel str
  if found then some (s - str)
  else
    let w ← wordLoop m fuel s
    let s ← byteLoop m fuel w
    some (s - str)

/-- The length as a scan of the bytes finds it. -/
def byteLen (m : Memory) (fuel str : Nat) : Option Nat := do
  let s ← byteLoop m fuel str
  some (s - str)

/-- There are `n` characters at `str`, and a NUL after them. -/
structure IsString (m : Memory) (str n : Nat) : Prop where
  ne : str ≠ 0
  chars : ∀ i < n, ∃ c, m.load (str + i) = some c ∧ c ≠ 0
  nul : m.load (str + n) = some 0

/-! ## Words -/

/-- The mask keeps the upper bit of each byte. -/
theorem and_eightBytes_eq_zero {v : BitVec 32} : v &&& U32_EIGHT_BYTES = 0 ↔
    ∀ i < 32, i % 8 = 7 → v.getLsbD i = false := by
  have hmask : ∀ i < 32, U32_EIGHT_BYTES.getLsbD i = decide (i % 8 = 7) := by decide
  constructor
  · intro h i hi hlane
    have hbit := congrArg (BitVec.getLsbD · i) h
    simp only [BitVec.getLsbD_and, hmask i hi, hlane, decide_true, Bool.and_true,
      BitVec.ofNat_eq_ofNat, BitVec.getLsbD_zero] at hbit
    exact hbit
  · intro h
    refine BitVec.eq_of_getLsbD_eq fun i hi => ?_
    rw [BitVec.getLsbD_and, hmask i hi, BitVec.ofNat_eq_ofNat, BitVec.getLsbD_zero]
    by_cases hlane : i % 8 = 7
    · rw [h i hi hlane, Bool.false_and]
    · rw [decide_eq_false hlane, Bool.and_false]

/-- A byte of a word is marked: it is less than 128, and it borrows or stays above 127. -/
theorem getLsbD_marked (x : BitVec 32) {i : Nat} (hi : i < 32) :
    ((x - U32_ONE_BYTES) &&& ~~~x).getLsbD i = true ↔
      (x.toNat + (2 ^ 32 - 0x01010101)) % 2 ^ 32 / 2 ^ i % 2 = 1 ∧ x.toNat / 2 ^ i % 2 = 0 := by
  have hones : U32_ONE_BYTES.toNat = 0x01010101 := rfl
  rw [BitVec.getLsbD_and, BitVec.getLsbD_not, BitVec.getLsbD, BitVec.getLsbD, BitVec.toNat_sub,
    hones, Nat.add_comm, Nat.testBit_eq_decide_div_mod_eq, Nat.testBit_eq_decide_div_mod_eq]
  simp only [hi, decide_true, Bool.true_and, Bool.and_eq_true, decide_eq_true_eq,
    Bool.not_eq_true', decide_eq_false_iff_not, Nat.mod_two_ne_one]

/-- The mask is zero exactly when no byte is. -/
theorem hasZeroByte_eq_zero {a b c d : UInt8} :
    U32_HAS_ZERO_BYTE (BitVec.ofNat 32 (ofLeBytes [a, b, c, d])) = 0 ↔
      a ≠ 0 ∧ b ≠ 0 ∧ c ≠ 0 ∧ d ≠ 0 := by
  have hne : ∀ z : UInt8, z ≠ 0 ↔ z.toNat ≠ 0 := fun z => by
    rw [ne_eq, ne_eq, ← UInt8.toNat_inj]
    rfl
  have ha := a.toNat_lt
  have hb := b.toNat_lt
  have hc := c.toNat_lt
  have hd := d.toNat_lt
  rw [hne, hne, hne, hne, U32_HAS_ZERO_BYTE, and_eightBytes_eq_zero]
  have hvalue : (BitVec.ofNat 32 (ofLeBytes [a, b, c, d])).toNat =
      a.toNat + 256 * b.toNat + 65536 * c.toNat + 16777216 * d.toNat := by
    simp only [ofLeBytes, BitVec.toNat_ofNat]
    omega
  have hlanes : (∀ i < 32, i % 8 = 7 → ((BitVec.ofNat 32 (ofLeBytes [a, b, c, d]) - U32_ONE_BYTES) &&&
      ~~~BitVec.ofNat 32 (ofLeBytes [a, b, c, d])).getLsbD i = false) ↔
      ∀ i < 32, i % 8 = 7 → ¬ ((a.toNat + 256 * b.toNat + 65536 * c.toNat + 16777216 * d.toNat +
        (2 ^ 32 - 0x01010101)) % 2 ^ 32 / 2 ^ i % 2 = 1 ∧
        (a.toNat + 256 * b.toNat + 65536 * c.toNat + 16777216 * d.toNat) / 2 ^ i % 2 = 0) := by
    refine forall_congr' fun i => forall_congr' fun hi => forall_congr' fun _ => ?_
    rw [← Bool.not_eq_true, getLsbD_marked _ hi, hvalue]
  rw [hlanes]
  generalize a.toNat = a at *
  generalize b.toNat = b at *
  generalize c.toNat = c at *
  generalize d.toNat = d at *
  constructor
  · intro h
    have h0 := h 7 (by decide) (by decide)
    have h1 := h 15 (by decide) (by decide)
    have h2 := h 23 (by decide) (by decide)
    have h3 := h 31 (by decide) (by decide)
    refine ⟨?_, ?_, ?_, ?_⟩ <;> rintro rfl <;> omega
  · rintro ⟨h0, h1, h2, h3⟩ i hi hlane
    have hi' : i = 7 ∨ i = 15 ∨ i = 23 ∨ i = 31 := by omega
    rcases hi' with rfl | rfl | rfl | rfl <;> omega

/-! ## Loops -/

section

variable {m : Memory} {str n fuel s : Nat}

theorem IsString.load (h : IsString m str n) (hs : str ≤ s) (hsn : s < str + n) :
    ∃ c, m.load s = some c ∧ c ≠ 0 := by
  obtain ⟨c, hc, hne⟩ := h.chars (s - str) (by omega)
  exact ⟨c, by rwa [Nat.add_sub_cancel' hs] at hc, hne⟩

theorem byteLoop_spec (h : IsString m str n) (hs : str ≤ s) (hsn : s ≤ str + n)
    (hfuel : str + n - s < fuel) : byteLoop m fuel s = some (str + n) := by
  induction fuel generalizing s with
  | zero => exact absurd hfuel (Nat.not_lt_zero _)
  | succ fuel ih =>
    rw [byteLoop]
    rcases Nat.lt_or_eq_of_le hsn with hlt | rfl
    · obtain ⟨c, hc, hne⟩ := h.load hs hlt
      rw [hc, Option.bind_eq_bind, Option.bind_some, if_neg hne]
      exact ih (by omega) hlt (by omega)
    · rw [h.nul, Option.bind_eq_bind, Option.bind_some, if_pos rfl]

/-- The first loop finds the NUL, or an aligned address that is not behind it. -/
theorem alignLoop_spec (h : IsString m str n) (hs : str ≤ s) (hsn : s ≤ str + n)
    (hfuel : str + n - s < fuel) :
    alignLoop m fuel s = some (true, str + n) ∨
      ∃ s', alignLoop m fuel s = some (false, s') ∧ s' % 4 = 0 ∧ str ≤ s' ∧ s' ≤ str + n := by
  have hmask : ∀ a : Nat, a &&& U32_ALIGN_MASK = a % 4 := fun a => Nat.and_two_pow_sub_one_eq_mod a 2
  induction fuel generalizing s with
  | zero => exact absurd hfuel (Nat.not_lt_zero _)
  | succ fuel ih =>
    rw [alignLoop, hmask]
    split
    case isFalse haligned => exact .inr ⟨s, rfl, Decidable.not_not.mp haligned, hs, hsn⟩
    case isTrue =>
      rcases Nat.lt_or_eq_of_le hsn with hlt | rfl
      · obtain ⟨c, hc, hne⟩ := h.load hs hlt
        rw [hc, Option.bind_eq_bind, Option.bind_some, if_neg hne]
        exact ih (by omega) hlt (by omega)
      · rw [h.nul, Option.bind_eq_bind, Option.bind_some, if_pos rfl]
        exact .inl rfl

/-- A word of which one byte can be read. -/
theorem Memory.loadWord_eq {w : Nat} (hw : w % 4 = 0) (hload : (m.load w).isSome) :
    ∃ a b c d, m.loadWord w = some (BitVec.ofNat 32 (ofLeBytes [a, b, c, d])) ∧
      m.load w = some a ∧ m.load (w + 1) = some b ∧ m.load (w + 2) = some c ∧
      m.load (w + 3) = some d := by
  have hbyte : ∀ i < 4, ∃ c, m.load (w + i) = some c := fun i hi => by
    have := m.words w hload i hi
    rw [Nat.div_mul_cancel (Nat.dvd_of_mod_eq_zero hw)] at this
    exact Option.isSome_iff_exists.mp this
  obtain ⟨a, ha⟩ := hbyte 0 (by decide)
  obtain ⟨b, hb⟩ := hbyte 1 (by decide)
  obtain ⟨c, hc⟩ := hbyte 2 (by decide)
  obtain ⟨d, hd⟩ := hbyte 3 (by decide)
  refine ⟨a, b, c, d, ?_, ha, hb, hc, hd⟩
  rw [Memory.loadWord, show List.range 4 = [0, 1, 2, 3] from rfl]
  simp only [List.mapM_cons, List.mapM_nil, ha, hb, hc, hd, Option.bind_eq_bind, Option.bind_some,
    Option.pure_def]

/-- The second loop finds the word that holds the NUL. -/
theorem wordLoop_spec (h : IsString m str n) (haligned : s % 4 = 0) (hs : str ≤ s)
    (hsn : s ≤ str + n) (hfuel : str + n - s < fuel) :
    ∃ w, wordLoop m fuel s = some w ∧ str ≤ w ∧ w ≤ str + n ∧ str + n < w + 4 := by
  induction fuel generalizing s with
  | zero => exact absurd hfuel (Nat.not_lt_zero _)
  | succ fuel ih =>
    have hload : (m.load s).isSome := by
      rcases Nat.lt_or_eq_of_le hsn with hlt | rfl
      · obtain ⟨c, hc, -⟩ := h.load hs hlt
        rw [hc]
        rfl
      · rw [h.nul]
        rfl
    obtain ⟨a, b, c, d, hword, ha, hb, hc, hd⟩ := m.loadWord_eq haligned hload
    have hbytes := @hasZeroByte_eq_zero a b c d
    rw [wordLoop, hword, Option.bind_eq_bind, Option.bind_some]
    by_cases hend : str + n < s + 4
    · have hzero : U32_HAS_ZERO_BYTE (BitVec.ofNat 32 (ofLeBytes [a, b, c, d])) ≠ 0 := by
        intro hzero
        obtain ⟨h0, h1, h2, h3⟩ := hbytes.mp hzero
        have hnul := h.nul
        have hcases : str + n = s ∨ str + n = s + 1 ∨ str + n = s + 2 ∨ str + n = s + 3 := by omega
        rcases hcases with he | he | he | he <;> rw [he] at hnul
        · exact h0 (Option.some.inj (ha.symm.trans hnul))
        · exact h1 (Option.some.inj (hb.symm.trans hnul))
        · exact h2 (Option.some.inj (hc.symm.trans hnul))
        · exact h3 (Option.some.inj (hd.symm.trans hnul))
      rw [if_neg hzero]
      exact ⟨s, rfl, hs, hsn, hend⟩
    · have hne : ∀ {i : Nat} {z : UInt8}, i < 4 → m.load (s + i) = some z → z ≠ 0 := by
        intro i z hi hz
        obtain ⟨c, hc, hne⟩ := @IsString.load m str n (s + i) h (by omega) (by omega)
        rw [hc] at hz
        exact Option.some.inj hz ▸ hne
      have hzero := hbytes.mpr ⟨@hne 0 a (by decide) ha, hne (by decide) hb, hne (by decide) hc,
        hne (by decide) hd⟩
      rw [if_pos hzero]
      exact ih (by omega) (by omega) (by omega) (by omega)

end

/-- The length is found, in as many rounds of each loop as there are bytes at most, and it is what
a scan of the bytes finds. -/
theorem cstr_len_exact {m : Memory} {str n : Nat} (h : IsString m str n) {fuel : Nat}
    (hfuel : n < fuel) : cstrLen m fuel str = some n ∧ byteLen m fuel str = some n := by
  have hle : str ≤ str + n := Nat.le_add_right str n
  have hscan := @byteLoop_spec m str n fuel str h (Nat.le_refl _) hle (by omega)
  have hlen : str + n - str = n := Nat.add_sub_cancel_left str n
  constructor
  · rw [cstrLen, guard, if_pos h.ne]
    simp only [Option.pure_def, Option.bind_eq_bind, Option.bind_some]
    rcases alignLoop_spec h (Nat.le_refl _) hle (by omega : str + n - str < fuel) with
      hnul | ⟨s, halign, haligned, hs, hsn⟩
    · rw [hnul, Option.bind_some, if_pos rfl, hlen]
    · obtain ⟨w, hword, hw, hwn, -⟩ := wordLoop_spec h haligned hs hsn (by omega : _ < fuel)
      have hbyte := @byteLoop_spec m str n fuel w h hw hwn (by omega)
      rw [halign, Option.bind_some, if_neg Bool.false_ne_true, hword, Option.bind_some, hbyte,
        Option.bind_some, hlen]
  · rw [byteLen, hscan, Option.bind_eq_bind, Option.bind_some, hlen]

/-- The bytes `ff 80 01` and a NUL at the address 5, and what is behind them. -/
def highBytes : Memory where
  load a := if a < 12 then some (([0, 0, 0, 0, 0, 0xff, 0x80, 0x01] : List UInt8)[a]?.getD 0) else none
  words a ha i hi := by
    have hlt : a < 12 := by
      by_contra hge
      rw [if_neg hge] at ha
      cases ha
    rw [if_pos (by omega)]
    rfl

theorem cstr_len_high_bytes : cstrLen highBytes 4 5 = some 3 ∧ byteLen highBytes 4 5 = some 3 := by
  refine cstr_len_exact ⟨by decide, fun i hi => ?_, by decide⟩ (by decide)
  have hcases : i = 0 ∨ i = 1 ∨ i = 2 := by omega
  rcases hcases with rfl | rfl | rfl
  · exact ⟨0xff, by decide, by decide⟩
  · exact ⟨0x80, by decide, by decide⟩
  · exact ⟨0x01, by decide, by decide⟩

end Nibble.Front
