import Mathlib.Data.Nat.Digits.Defs
import Nibble.Front.LexNumbers

/-!
# Integer literals

What an integer literal is, and which words `scan_int` takes for one. The two
agree except behind the last digit, where `scan_digits` skips a `_` before it
knows that a digit follows.
-/

namespace Nibble.Front

/-! ## Literals -/

/-- A digit of a base. -/
def IsDigit (base : Nat) (c : Char) : Prop := biasedDigit c ≠ 0 ∧ biasedDigit c - 1 < base

/-- Digits with single underscores between two of them. -/
inductive DigitSeq (base : Nat) : List Char → Prop where
  | one {c : Char} : IsDigit base c → DigitSeq base [c]
  | cons {c : Char} {cs : List Char} : IsDigit base c → DigitSeq base cs → DigitSeq base (c :: cs)
  | sep {c : Char} {cs : List Char} :
    IsDigit base c → DigitSeq base cs → DigitSeq base (c :: '_' :: cs)

/-- The values of the digits, the first one first. -/
def digitsOf (cs : List Char) : List Nat := (cs.filter (· ≠ '_')).map fun c => biasedDigit c - 1

def seqValue (base : Nat) (cs : List Char) : Nat := Nat.ofDigits base (digitsOf cs).reverse

/-- What stands in front of the digits of a base. -/
inductive BasePrefix : List Char → Nat → Prop where
  | dec : BasePrefix [] 10
  | oct : BasePrefix ['0'] 8
  | hex {x : Char} : x = 'x' ∨ x = 'X' → BasePrefix ['0', x] 16
  | bin {b : Char} : b = 'b' ∨ b = 'B' → BasePrefix ['0', b] 2

/-- A literal without its suffix, and its value. -/
inductive IntBody : List Char → Nat → Prop where
  | zero : IntBody ['0'] 0
  | digits {pre ds : List Char} {base : Nat} : BasePrefix pre base → DigitSeq base ds →
    (pre = [] → ds.head? ≠ some '0') → IntBody (pre ++ ds) (seqValue base ds)

def IntSuffix (suf : List Char) : Prop := suf = [] ∨ suf = ['u'] ∨ suf = ['s']

/-- An integer literal of 64 bits. -/
def IntLiteral (word : List Char) (v : Nat) : Prop :=
  ∃ body suf, IntBody body v ∧ v < 2 ^ 64 ∧ IntSuffix suf ∧ word = body ++ suf

/-- A literal that is not a plain zero, with a `_` behind its last digit. -/
def TrailingSeparator (word : List Char) : Prop :=
  ∃ body suf v, IntBody body v ∧ body ≠ ['0'] ∧ v < 2 ^ 64 ∧ IntSuffix suf ∧
    word = body ++ '_' :: suf

/-- The longest run of letters, digits and underscores. -/
def wordAt (start : List Char) : List Char := start.takeWhile isAlphanum

/-! ## Characters -/

theorem IsDigit.isAlphanum {base : Nat} {c : Char} (h : IsDigit base c) : isAlphanum c = true :=
  isAlphanum_of_biasedDigit h.1

theorem IsDigit.ne {base : Nat} {c d : Char} (h : IsDigit base c) (hd : biasedDigit d = 0) :
    c ≠ d := by
  rintro rfl
  exact h.1 hd

/-- A digit below ten is decimal. -/
theorem IsDigit.isDecDigit {base : Nat} {c : Char} (h : IsDigit base c) (hbase : base ≤ 10) :
    isDecDigit c = true := by
  obtain ⟨hb, hlt⟩ := h
  by_contra hdec
  unfold biasedDigit at hb hlt
  rw [if_neg hdec] at hb hlt
  split at hlt
  · omega
  · rename_i ha
    rw [if_neg ha] at hb
    split at hlt
    · omega
    · rename_i hA
      exact hb (if_neg hA)

theorem isDigit_of_isDecDigit {c : Char} (h : isDecDigit c = true) : IsDigit 10 c :=
  biasedDigit_of_isDecDigit h

theorem DigitSeq.exists_cons {base : Nat} {ds : List Char} (h : DigitSeq base ds) :
    ∃ c cs, ds = c :: cs ∧ IsDigit base c := by
  cases h with
  | one hc => exact ⟨_, _, rfl, hc⟩
  | cons hc _ => exact ⟨_, _, rfl, hc⟩
  | sep hc _ => exact ⟨_, _, rfl, hc⟩

/-- A sequence ends with a digit. -/
theorem DigitSeq.exists_concat {base : Nat} {ds : List Char} (h : DigitSeq base ds) :
    ∃ cs c, ds = cs ++ [c] ∧ IsDigit base c := by
  induction h with
  | one hc => exact ⟨[], _, rfl, hc⟩
  | cons _ _ ih =>
    obtain ⟨cs, d, rfl, hd⟩ := ih
    exact ⟨_ :: cs, d, rfl, hd⟩
  | sep _ _ ih =>
    obtain ⟨cs, d, rfl, hd⟩ := ih
    exact ⟨_ :: '_' :: cs, d, rfl, hd⟩

theorem DigitSeq.alphanum {base : Nat} {ds : List Char} (h : DigitSeq base ds) :
    ∀ c ∈ ds, isAlphanum c = true := by
  induction h with
  | one hc => simpa using hc.isAlphanum
  | cons hc _ ih => exact List.forall_mem_cons.mpr ⟨hc.isAlphanum, ih⟩
  | sep hc _ ih =>
    exact List.forall_mem_cons.mpr ⟨hc.isAlphanum, List.forall_mem_cons.mpr ⟨by decide, ih⟩⟩

theorem BasePrefix.alphanum {pre : List Char} {base : Nat} (h : BasePrefix pre base) :
    ∀ c ∈ pre, isAlphanum c = true := by
  cases h with
  | dec => exact fun _ h => nomatch h
  | oct => exact List.all_eq_true.mp (by decide)
  | hex hx => rcases hx with rfl | rfl <;> exact List.all_eq_true.mp (by decide)
  | bin hx => rcases hx with rfl | rfl <;> exact List.all_eq_true.mp (by decide)

theorem BasePrefix.base_le {pre : List Char} {base : Nat} (h : BasePrefix pre base) :
    0 < base ∧ base ≤ 16 := by
  cases h <;> decide

theorem IntBody.alphanum {body : List Char} {v : Nat} (h : IntBody body v) :
    ∀ c ∈ body, isAlphanum c = true := by
  cases h with
  | zero => exact List.all_eq_true.mp (by decide)
  | digits hpre hds _ =>
    intro c hc
    rcases List.mem_append.mp hc with hc | hc
    · exact hpre.alphanum c hc
    · exact hds.alphanum c hc

theorem IntBody.exists_concat {body : List Char} {v : Nat} (h : IntBody body v) :
    ∃ cs c, body = cs ++ [c] ∧ biasedDigit c ≠ 0 := by
  cases h with
  | zero => exact ⟨[], '0', rfl, by decide⟩
  | @digits pre ds base hpre hds _ =>
    obtain ⟨cs, c, rfl, hc⟩ := hds.exists_concat
    exact ⟨pre ++ cs, c, by simp, hc.1⟩

theorem IntSuffix.alphanum {suf : List Char} (h : IntSuffix suf) :
    ∀ c ∈ suf, isAlphanum c = true := by
  rcases h with rfl | rfl | rfl <;> exact List.all_eq_true.mp (by decide)

/-- A literal has no separator behind its last digit. -/
theorem not_trailingSeparator {word : List Char} {v : Nat} (h : IntLiteral word v) :
    ¬ TrailingSeparator word := by
  rintro ⟨body', suf', v', -, -, -, hsuf', hword'⟩
  obtain ⟨body, suf, hbody, -, hsuf, hword⟩ := h
  obtain ⟨cs, c, rfl, hc⟩ := hbody.exists_concat
  rw [hword'] at hword
  have hlast := congrArg List.reverse hword
  rcases hsuf with rfl | rfl | rfl <;> rcases hsuf' with rfl | rfl | rfl <;>
    simp only [List.reverse_append, List.reverse_cons, List.reverse_nil, List.nil_append,
      List.append_nil, List.cons_append, List.cons.injEq] at hlast
  all_goals
    first
    | exact absurd hlast.1 (by decide)
    | exact hc (hlast.1 ▸ by decide)
    | exact hc (hlast.2.1 ▸ by decide)

/-! ## Values -/

/-- What `scan_digits` makes of a value by the digits that follow. -/
def appendValue (base v : Nat) (cs : List Char) : Nat :=
  (digitsOf cs).foldl (fun v d => v * base + d) v

theorem seqValue_eq (base : Nat) (cs : List Char) : seqValue base cs = appendValue base 0 cs := by
  rw [seqValue, appendValue, Nat.ofDigits_eq_foldr, List.foldr_reverse]
  congr 1
  funext v d
  rw [Nat.mul_comm, Nat.add_comm]
  rfl

@[simp] theorem appendValue_nil (base v : Nat) : appendValue base v [] = v := rfl

theorem appendValue_cons {base : Nat} (v : Nat) {c : Char} (h : c ≠ '_') (cs : List Char) :
    appendValue base v (c :: cs) = appendValue base (v * base + (biasedDigit c - 1)) cs := by
  simp [appendValue, digitsOf, h]

@[simp] theorem appendValue_sep (base v : Nat) (cs : List Char) :
    appendValue base v ('_' :: cs) = appendValue base v cs := rfl

theorem appendValue_append (base v : Nat) (cs ds : List Char) :
    appendValue base v (cs ++ ds) = appendValue base (appendValue base v cs) ds := by
  simp [appendValue, digitsOf]

theorem le_appendValue {base : Nat} (hbase : 0 < base) (v : Nat) (cs : List Char) :
    v ≤ appendValue base v cs := by
  unfold appendValue
  induction digitsOf cs generalizing v with
  | nil => exact Nat.le_refl v
  | cons d ds ih =>
    refine Nat.le_trans ?_ (ih (v * base + d))
    exact Nat.le_trans (Nat.le_mul_of_pos_right v hbase) (Nat.le_add_right _ _)

/-! ## Digits -/

/-- The values and digits that `scan_digits` combines, on its way through the same branches. -/
def scanDigitsSteps (base max : Nat) : List Char → Nat → List (Nat × Nat)
  | [], _ => []
  | c :: cs, value =>
    if biasedDigit c = 0 then []
    else if biasedDigit c - 1 ≥ base then []
    else if value > (max - (biasedDigit c - 1)) / base then []
    else
      (value, biasedDigit c - 1) ::
        match cs with
        | [] => []
        | d :: ds =>
          if d = '_' then scanDigitsSteps base max ds (value * base + (biasedDigit c - 1))
          else scanDigitsSteps base max (d :: ds) (value * base + (biasedDigit c - 1))

/-- The test for overflow is exact. -/
theorem fits_iff {base max value digit : Nat} (hbase : 0 < base) (hmax : digit ≤ max) :
    ¬ value > (max - digit) / base ↔ value * base + digit ≤ max := by
  rw [gt_iff_lt, Nat.not_lt, Nat.le_div_iff_mul_le hbase]
  omega

/-- No product, sum or difference of `scan_digits` leaves the range up to `max`. -/
theorem scanDigitsSteps_le {base max : Nat} (hbase : 0 < base) (hmax : base ≤ max + 1)
    (cur : List Char) (value : Nat) :
    ∀ p ∈ scanDigitsSteps base max cur value, p.2 ≤ max ∧ p.1 * base + p.2 ≤ max := by
  have hstep : ∀ {c : Char} {value : Nat}, ¬ biasedDigit c - 1 ≥ base →
      ¬ value > (max - (biasedDigit c - 1)) / base →
      biasedDigit c - 1 ≤ max ∧ value * base + (biasedDigit c - 1) ≤ max := by
    intro c value hlt hfit
    have hle : biasedDigit c - 1 ≤ max := by omega
    exact ⟨hle, (fits_iff hbase hle).mp hfit⟩
  fun_induction scanDigits base max cur value with
  | case1 => exact fun _ h => absurd h List.not_mem_nil
  | case2 c cs value hb =>
    rw [scanDigitsSteps.eq_def]
    simp only [if_pos hb]
    exact fun _ h => absurd h List.not_mem_nil
  | case3 c cs value hb hge =>
    rw [scanDigitsSteps.eq_def]
    simp only [if_neg hb, if_pos hge]
    exact fun _ h => absurd h List.not_mem_nil
  | case4 c cs value hb hlt hover =>
    rw [scanDigitsSteps.eq_def]
    simp only [if_neg hb, if_neg hlt, if_pos hover]
    exact fun _ h => absurd h List.not_mem_nil
  | case5 c value hb hlt hfit =>
    rw [scanDigitsSteps.eq_def]
    simp only [if_neg hb, if_neg hlt, if_neg hfit]
    exact List.forall_mem_singleton.mpr (hstep hlt hfit)
  | case6 c value hb hlt hfit ds ih =>
    rw [scanDigitsSteps.eq_def]
    simp only [if_neg hb, if_neg hlt, if_neg hfit, if_true]
    exact List.forall_mem_cons.mpr ⟨hstep hlt hfit, ih⟩
  | case7 c value hb hlt hfit d ds hd ih =>
    rw [scanDigitsSteps.eq_def]
    simp only [if_neg hb, if_neg hlt, if_neg hfit, if_neg hd]
    exact List.forall_mem_cons.mpr ⟨hstep hlt hfit, ih⟩

/-- What `scan_digits` reads: digits, and perhaps a separator behind the last of them. -/
def ReadDigits (base : Nat) (ds : List Char) : Prop :=
  ds = [] ∨ DigitSeq base ds ∨ ∃ cs, ds = cs ++ ['_'] ∧ DigitSeq base cs

theorem ReadDigits.cons {base : Nat} {c : Char} {ds : List Char} (hc : IsDigit base c)
    (h : ReadDigits base ds) : ReadDigits base (c :: ds) := by
  rcases h with rfl | h | ⟨cs, rfl, h⟩
  · exact .inr (.inl (.one hc))
  · exact .inr (.inl (.cons hc h))
  · exact .inr (.inr ⟨c :: cs, rfl, .cons hc h⟩)

theorem ReadDigits.sep {base : Nat} {c : Char} {ds : List Char} (hc : IsDigit base c)
    (h : ReadDigits base ds) : ReadDigits base (c :: '_' :: ds) := by
  rcases h with rfl | h | ⟨cs, rfl, h⟩
  · exact .inr (.inr ⟨[c], rfl, .one hc⟩)
  · exact .inr (.inl (.sep hc h))
  · exact .inr (.inr ⟨c :: '_' :: cs, rfl, .sep hc h⟩)

theorem scanDigits_sound {base max : Nat} (hbase : 0 < base) (hmax : base ≤ max + 1)
    {cur cur' : List Char} {v v' : Nat} (h : scanDigits base max cur v = some (.none, v', cur')) :
    ∃ ds, cur = ds ++ cur' ∧ ReadDigits base ds ∧ v' = appendValue base v ds ∧
      (v ≤ max → v' ≤ max) ∧ ∀ c ∈ cur'.head?, biasedDigit c = 0 := by
  fun_induction scanDigits base max cur v with
  | case1 => cases h
  | case2 c cs v hb =>
    cases h
    exact ⟨[], rfl, .inl rfl, rfl, id, by simpa using hb⟩
  | case3 => cases h
  | case4 => cases h
  | case5 => cases h
  | case6 c v hb hlt hfit ds ih =>
    obtain ⟨ds', rfl, hread, hv, hle, hstop⟩ := ih h
    have hc : IsDigit base c := ⟨hb, by omega⟩
    have hfits := (fits_iff hbase (by omega)).mp hfit
    refine ⟨c :: '_' :: ds', rfl, hread.sep hc, ?_, fun _ => hle hfits, hstop⟩
    rw [appendValue_cons v (hc.ne (by decide)), appendValue_sep]
    exact hv
  | case7 c v hb hlt hfit d ds _ ih =>
    obtain ⟨ds', hds, hread, hv, hle, hstop⟩ := ih h
    have hc : IsDigit base c := ⟨hb, by omega⟩
    have hfits := (fits_iff hbase (by omega)).mp hfit
    refine ⟨c :: ds', by rw [hds]; rfl, hread.cons hc, ?_, fun _ => hle hfits, hstop⟩
    rw [appendValue_cons v (hc.ne (by decide))]
    exact hv

/-- A digit is read, with the separator behind it. -/
theorem scanDigits_digit {base max v : Nat} {c : Char} (hc : IsDigit base c)
    (hfit : ¬ v > (max - (biasedDigit c - 1)) / base) (d : Char) (ds : List Char) :
    scanDigits base max (c :: d :: ds) v =
      if d = '_' then scanDigits base max ds (v * base + (biasedDigit c - 1))
      else scanDigits base max (d :: ds) (v * base + (biasedDigit c - 1)) := by
  rw [scanDigits.eq_def]
  simp only [if_neg hc.1, if_neg (Nat.not_le.mpr hc.2), if_neg hfit]

theorem scanDigits_stop {base max v : Nat} {c : Char} {cs : List Char} (h : biasedDigit c = 0) :
    scanDigits base max (c :: cs) v = some (.none, v, c :: cs) := by
  rw [scanDigits.eq_def]
  simp only [if_pos h]

/-- A sequence of digits that fits is read, with a separator behind it. -/
theorem scanDigits_complete {base max : Nat} (hbase : 0 < base) (hmax : base ≤ max + 1)
    {ds : List Char} (h : DigitSeq base ds) {v : Nat} (hle : appendValue base v ds ≤ max)
    {sep : List Char} {c : Char} {cs : List Char} (hc : biasedDigit c = 0)
    (hsep : sep = [] ∧ c ≠ '_' ∨ sep = ['_']) :
    scanDigits base max (ds ++ sep ++ c :: cs) v = some (.none, appendValue base v ds, c :: cs) := by
  have hfit : ∀ {d : Char} {es : List Char} {v : Nat}, IsDigit base d →
      appendValue base v (d :: es) ≤ max → ¬ v > (max - (biasedDigit d - 1)) / base := by
    intro d es v hd hle
    rw [appendValue_cons v (hd.ne (by decide))] at hle
    have hdlt := hd.2
    exact (fits_iff hbase (by omega)).mpr ((le_appendValue hbase _ es).trans hle)
  induction h generalizing v with
  | @one d hd =>
    rcases hsep with ⟨rfl, hne⟩ | rfl
    · rw [List.append_nil, List.singleton_append, scanDigits_digit hd (hfit hd hle), if_neg hne,
        scanDigits_stop hc, appendValue_cons v (hd.ne (by decide)), appendValue_nil]
    · show scanDigits base max (d :: '_' :: c :: cs) v = _
      rw [scanDigits_digit hd (hfit hd hle), if_pos rfl, scanDigits_stop hc,
        appendValue_cons v (hd.ne (by decide)), appendValue_nil]
  | @cons d ds hd hds ih =>
    obtain ⟨e, es, rfl, he⟩ := hds.exists_cons
    have hstep := hfit hd hle
    rw [appendValue_cons v (hd.ne (by decide))] at hle ⊢
    show scanDigits base max (d :: e :: (es ++ sep ++ c :: cs)) v = _
    rw [scanDigits_digit hd hstep, if_neg (he.ne (by decide))]
    exact ih hle
  | @sep d ds hd hds ih =>
    have hstep := hfit hd hle
    rw [appendValue_cons v (hd.ne (by decide)), appendValue_sep] at hle ⊢
    show scanDigits base max (d :: '_' :: (ds ++ sep ++ c :: cs)) v = _
    rw [scanDigits_digit hd hstep, if_pos rfl]
    exact ih hle

end Nibble.Front
