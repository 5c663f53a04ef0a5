import Nibble.PathUtils.Norm

/-!
# What path_norm leaves in its buffer

`Stage` says what holds in every state of the loops: what has been written is the location of
what has been read, and what has not been read is still there. A step leads from one stage to
the next, and the last one holds the path that renders the location.
-/

namespace Nibble.PathUtils

open Lib Lib.Location

variable {bytes r : List UInt8} {s : NormState} {l : Location UInt8}

/-- The location of a path, before any file is looked at. -/
def location (bytes : List UInt8) : Location UInt8 := locate sep dot bytes

/-! ## The buffer -/

theorem store_of_lt {str : List UInt8} {i : Nat} (h : i < str.length) (c : UInt8) :
    store str i c = some (str.set i c) := if_pos h

theorem take_set_succ {str : List UInt8} {i : Nat} (h : i < str.length) (c : UInt8) :
    (str.set i c).take (i + 1) = str.take i ++ [c] := by
  rw [List.take_add_one, List.getElem?_set_self h, List.take_set_of_le (Nat.le_refl i)]
  rfl

/-- What `reserve` puts after the terminator. -/
def pad (bytes : List UInt8) : List UInt8 := List.replicate (2 - (bytes ++ [0]).length) 0

theorem normStart_str (bytes : List UInt8) : (normStart bytes).str = bytes ++ 0 :: pad bytes := by
  show bytes ++ [0] ++ pad bytes = _
  rw [List.append_assoc]
  rfl

/-- The buffer in a state: `r` has not been read, and nothing has been written over it. -/
structure Buffer (bytes : List UInt8) (s : NormState) (r : List UInt8) : Prop where
  size : s.str.length = (normStart bytes).str.length
  reads : s.inp ≤ bytes.length
  rest : bytes.drop s.inp = r
  unread : s.str.drop s.inp = (normStart bytes).str.drop s.inp
  cursors : s.out ≤ s.inp ∨ s.out = s.inp + 1 ∧ r.head? = some sep

namespace Buffer

theorem get (h : Buffer bytes s r) (i : Nat) :
    s.str[s.inp + i]? = (r ++ 0 :: pad bytes)[i]? := by
  rw [← List.getElem?_drop, h.unread, normStart_str, List.drop_append_of_le_length h.reads, h.rest]

theorem get_zero (h : Buffer bytes s r) : s.str[s.inp]? = (r ++ 0 :: pad bytes)[0]? := h.get 0

theorem length_eq (h : Buffer bytes s r) : s.inp + r.length = bytes.length := by
  have hr := congrArg List.length h.rest
  rw [List.length_drop] at hr
  have := h.reads
  omega

theorem length_lt (h : Buffer bytes s r) : bytes.length < s.str.length := by
  rw [h.size, normStart_str, List.length_append, List.length_cons]
  omega

/-- The write cursor is not past the read cursor where no separator follows. -/
theorem out_le (h : Buffer bytes s r) (hr : r.head? ≠ some sep) : s.out ≤ s.inp :=
  h.cursors.resolve_right fun hc => hr hc.2

theorem out_lt (h : Buffer bytes s r) : s.out ≤ s.str.length := by
  have := h.length_lt
  have := h.reads
  rcases h.cursors with hc | ⟨hc, -⟩ <;> omega

theorem notNul (hb : 0 ∉ bytes) (h : Buffer bytes s r) : 0 ∉ r := fun h0 =>
  hb (List.mem_of_mem_drop (h.rest ▸ h0))

/-- Characters are read, and the write cursor moves behind them. -/
theorem advance {w : List UInt8} {t : NormState} (h : Buffer bytes s (w ++ r))
    (hsize : t.str.length = s.str.length) (hinp : t.inp = s.inp + w.length)
    (hstr : t.str.drop t.inp = s.str.drop t.inp)
    (hout : t.out ≤ t.inp ∨ t.out = t.inp + 1 ∧ r.head? = some sep) : Buffer bytes t r where
  size := hsize.trans h.size
  reads := by
    have hlen := h.length_eq
    rw [List.length_append] at hlen
    omega
  rest := by rw [hinp, ← List.drop_drop, h.rest, List.drop_left]
  unread := by rw [hstr, hinp, ← List.drop_drop, h.unread, List.drop_drop]
  cursors := hout

/-- A state that differs in its components and its phase only. -/
theorem congr {t : NormState} (h : Buffer bytes s r) (hstr : t.str = s.str) (hout : t.out = s.out)
    (hinp : t.inp = s.inp) : Buffer bytes t r := by
  refine ⟨by rw [hstr, h.size], by rw [hinp]; exact h.reads, by rw [hinp, h.rest], ?_, ?_⟩
  · rw [hstr, hinp, h.unread]
  · rw [hout, hinp]
    exact h.cursors

end Buffer

/-! ## Stages -/

/-- Where each name of a location begins in `body`, and where its first component does. -/
def locs (l : Location UInt8) : List (List UInt8) → List Nat
  | [] => [(root sep l.isAbs).length]
  | _ :: names => (body sep dot { l with names }).length :: locs l names

/-- What has been written is a location, perhaps without its last separator at the end. -/
def Settled (l : Location UInt8) (r : List UInt8) (s : NormState) : Prop :=
  s.str.take s.out = body sep dot l ∨ r = [] ∧ parts dot l ≠ [] ∧
    s.str.take s.out = root sep l.isAbs ++ [sep].intercalate (parts dot l)

theorem Settled.of_ne (h : Settled l r s) (hr : r ≠ []) : s.str.take s.out = body sep dot l :=
  h.resolve_right fun h => hr h.1

/-- What the buffer and the cursors are in a state of the loops. -/
inductive Stage (bytes : List UInt8) (s : NormState) : Prop where
  /-- What has been read leads to `l`. -/
  | between (l : Location UInt8) (r : List UInt8) (hphase : s.phase = .loop ∨ s.phase = .skip)
    (hbuf : Buffer bytes s r) (hvalid : l.Valid sep dot) (habs : l.isAbs = pathIsabs bytes)
    (hwalk : walk sep dot l r = location bytes) (hset : Settled l r s)
    (hcomps : r ≠ [] → s.comps = locs l l.names)
  /-- The name `pre ++ post` is copied. -/
  | inside (l : Location UInt8) (pre post r : List UInt8) (hphase : s.phase = .copy)
    (hbuf : Buffer bytes s (post ++ r)) (hout : s.out ≤ s.inp) (hvalid : l.Valid sep dot)
    (habs : l.isAbs = pathIsabs bytes) (hname : IsName sep dot (pre ++ post))
    (hr : r = [] ∨ r.head? = some sep)
    (hwalk : walk sep dot { l with names := (pre ++ post) :: l.names } r = location bytes)
    (hset : s.str.take s.out = body sep dot l ++ pre)
    (hcomps : s.comps = locs l ((pre ++ post) :: l.names))
  /-- All has been read. -/
  | final (hphase : s.phase = .copy ∨ s.phase = .done) (hbuf : Buffer bytes s [])
    (hset : Settled (location bytes) [] s)

/-- How many steps are left: `n` characters have not been read. -/
def stepsLeft (n : Nat) : Phase → Nat
  | .loop => if n = 0 then 1 else 3 * n + 2
  | .skip => if n = 0 then 3 else 3 * n + 1
  | .copy => if n = 0 then 2 else 3 * n
  | .done => 0

def measure (bytes : List UInt8) (s : NormState) : Nat :=
  stepsLeft (bytes.length - s.inp) s.phase

/-- A step leads to a stage with fewer steps left. -/
def Advances (bytes : List UInt8) (s : NormState) (t? : Option NormState) : Prop :=
  ∃ t, t? = some t ∧ Stage bytes t ∧ measure bytes t < measure bytes s

/-! ## The steps -/

theorem length_take_out (h : Buffer bytes s r) {w : List UInt8} (hw : s.str.take s.out = w) :
    s.out = w.length := by
  rw [← hw, List.length_take, Nat.min_eq_left h.out_lt]

theorem measure_lt {t : NormState} {w : List UInt8} (h : Buffer bytes s (w ++ r))
    (h' : Buffer bytes t r) (hlt : stepsLeft r.length t.phase < stepsLeft (w ++ r).length s.phase) :
    measure bytes t < measure bytes s := by
  unfold measure
  rw [show bytes.length - s.inp = (w ++ r).length by have := h.length_eq; omega,
    show bytes.length - t.inp = r.length by have := h'.length_eq; omega]
  exact hlt

theorem Stage.loop {l : Location UInt8} (hphase : s.phase = .loop) (hb : 0 ∉ bytes)
    (hbuf : Buffer bytes s r) (hvalid : l.Valid sep dot) (habs : l.isAbs = pathIsabs bytes)
    (hwalk : walk sep dot l r = location bytes) (hset : Settled l r s)
    (hcomps : r ≠ [] → s.comps = locs l l.names) :
    Advances bytes s (normStep (pathIsabs bytes) s) := by
  have hnext : ∀ phase, Buffer bytes { s with phase } r := fun _ => hbuf.congr rfl rfl rfl
  have hget := hbuf.get_zero
  unfold normStep
  rw [hphase]
  simp only [hget, Option.bind_eq_bind]
  cases r with
  | nil =>
    refine ⟨{ s with phase := .done }, rfl, .final (.inr rfl) (hnext _) ?_, ?_⟩
    · rw [← hwalk, walk_nil]
      exact hset
    · exact measure_lt (w := []) hbuf (hnext _) (by rw [hphase]; exact Nat.zero_lt_one)
  | cons c r =>
    have hc : c ≠ 0 := fun h0 => hbuf.notNul hb (h0 ▸ List.mem_cons_self)
    refine ⟨{ s with phase := .skip }, ?_, .between l (c :: r) (.inr rfl) (hnext _) hvalid habs hwalk
      hset hcomps, ?_⟩
    · simp only [List.cons_append, List.getElem?_cons_zero, Option.bind_some, if_neg hc]
    · refine measure_lt (w := []) hbuf (hnext _) ?_
      rw [hphase]
      simp only [stepsLeft, List.nil_append, List.length_cons, Nat.add_one_ne_zero, if_false]
      omega

theorem newComp_of_le (h : s.out ≤ s.inp) :
    newComp s = some { s with comps := s.out :: s.comps, phase := .copy } := if_pos h

/-- A component that is none of the special ones is copied. -/
theorem skipStep_name {comp : List UInt8} (hb : 0 ∉ bytes) (hbuf : Buffer bytes s (comp ++ r))
    (hname : IsName sep dot comp) (isAbs : Bool) : skipStep isAbs s = newComp s := by
  have hnul := hbuf.notNul hb
  have h0 := hbuf.get_zero
  have h1 := hbuf.get 1
  have h2 := hbuf.get 2
  have hsep := hname.noSep
  unfold skipStep
  match comp with
  | [] => exact absurd rfl hname.ne_nil
  | [c] =>
    have hdot : c ≠ dot := fun h => hname.ne_dot (h ▸ rfl)
    have hc : c ≠ sep := fun h => hsep (h ▸ List.mem_cons_self)
    simp [h0, hdot, hc]
  | [c, d] =>
    simp only [List.mem_cons, List.cons_append, not_or] at hnul hsep
    have hcd : ¬ (c = dot ∧ d = dot) := fun h => hname.ne_dotDot (by rw [h.1, h.2])
    by_cases hc : c = dot
    · subst hc
      have hd : d ≠ dot := fun h => hcd ⟨rfl, h⟩
      simp [h0, h1, hd, Ne.symm hsep.1, Ne.symm hsep.2.1, Ne.symm hnul.2.1]
    · simp [h0, hc, Ne.symm hsep.1]
  | c :: d :: e :: comp =>
    simp only [List.mem_cons, List.cons_append, not_or] at hnul hsep
    simp [h0, h1, h2, Ne.symm hsep.1, Ne.symm hsep.2.1, Ne.symm hsep.2.2.1, Ne.symm hnul.2.1,
      Ne.symm hnul.2.2.1]

/-- What ends a component: a separator or the terminator. -/
theorem head_of_end (hr : r = [] ∨ r.head? = some sep) (tail : List UInt8) :
    ∃ c, (r ++ 0 :: tail)[0]? = some c ∧ (c = sep ∨ c = 0) ∧ (c = 0 ↔ r = []) := by
  rcases hr with rfl | hr
  · exact ⟨0, rfl, .inr rfl, Iff.rfl.symm.trans (by simp)⟩
  · obtain ⟨r', rfl⟩ := List.head?_eq_some_iff.mp hr
    exact ⟨sep, rfl, .inl rfl, by simp [sep]⟩

theorem dot_ne_sep : dot ≠ sep := by decide

theorem skipStep_dot (hbuf : Buffer bytes s ([dot] ++ r)) (hr : r = [] ∨ r.head? = some sep)
    (isAbs : Bool) : skipStep isAbs s = some { s with inp := s.inp + 1, phase := .loop } := by
  obtain ⟨c, hc, hend, -⟩ := head_of_end hr (pad bytes)
  have h1 : s.str[s.inp + 1]? = some c := (hbuf.get 1).trans hc
  have h0 : s.str[s.inp]? = some dot := hbuf.get_zero
  unfold skipStep
  simp only [h0, h1, Option.bind_eq_bind, Option.bind_some, if_neg dot_ne_sep, if_true, if_pos hend]

theorem skipStep_dotDot (hbuf : Buffer bytes s ([dot, dot] ++ r))
    (hr : r = [] ∨ r.head? = some sep) (isAbs : Bool) :
    ∃ c, (c = 0 ↔ r = []) ∧ skipStep isAbs s = backtrack isAbs c s := by
  obtain ⟨c, hc, hend, hnul⟩ := head_of_end hr (pad bytes)
  have h2 : s.str[s.inp + 2]? = some c := (hbuf.get 2).trans hc
  have h1 : s.str[s.inp + 1]? = some dot := hbuf.get 1
  have h0 : s.str[s.inp]? = some dot := hbuf.get_zero
  have hdot : ¬ (dot = sep ∨ dot = 0) := by decide
  refine ⟨c, hnul, ?_⟩
  unfold skipStep
  simp only [h0, h1, h2, Option.bind_eq_bind, Option.bind_some, if_neg dot_ne_sep, if_true,
    if_neg hdot, if_pos hend]

/-- A text that begins a component is that component and what ends it. -/
theorem exists_comp (r : List UInt8) : ∃ comp r', r = comp ++ r' ∧ sep ∉ comp ∧
    (r' = [] ∨ r'.head? = some sep) := by
  refine ⟨r.takeWhile (· ≠ sep), r.dropWhile (· ≠ sep), List.takeWhile_append_dropWhile.symm, ?_, ?_⟩
  · intro h
    have hall := List.all_takeWhile (p := fun c => decide (c ≠ sep)) (l := r)
    exact of_decide_eq_true (List.all_eq_true.mp hall sep h) rfl
  · cases hd : r.dropWhile (· ≠ sep) with
    | nil => exact .inl rfl
    | cons c r' =>
      refine .inr (congrArg some ?_)
      have hc := List.head?_dropWhile_not (fun c => decide (c ≠ sep)) r
      rw [hd] at hc
      simpa using hc

theorem locs_dotDot {n : List UInt8} {names : List (List UInt8)} (h : l.names = n :: names) :
    ∃ loc rest, locs l names = loc :: rest ∧
      locs l l.names = (body sep dot { l with names }).length :: loc :: rest := by
  rw [h]
  cases names with
  | nil => exact ⟨_, _, rfl, rfl⟩
  | cons m names => exact ⟨_, _, rfl, rfl⟩

theorem locs_congr {l' : Location UInt8} (habs : l'.isAbs = l.isAbs) (hups : l'.ups = l.ups)
    (names : List (List UInt8)) : locs l' names = locs l names := by
  induction names with
  | nil => rw [locs, locs, habs]
  | cons n names ih =>
    obtain ⟨_, _, _⟩ := l
    obtain ⟨_, _, _⟩ := l'
    cases habs
    cases hups
    rw [locs, locs, ih]

theorem locs_root {names : List (List UInt8)} (h : names = []) :
    locs l names = [(root sep l.isAbs).length] := by rw [h, locs]

theorem take_read (h : Buffer bytes s r) (k : Nat) :
    s.str.take (s.inp + k) = s.str.take s.inp ++ (r ++ 0 :: pad bytes).take k := by
  rw [List.take_add, h.unread, normStart_str, List.drop_append_of_le_length h.reads, h.rest]

/-- All but the last separator of a location. -/
theorem Settled.of_body (hr : r = []) (hparts : parts dot l ≠ [])
    (h : s.str.take s.out ++ [sep] = body sep dot l) : Settled l r s := by
  rw [body_eq hparts] at h
  exact .inr ⟨hr, hparts, List.append_cancel_right h⟩

/-- A `..` component that leads one directory up. -/
theorem backtrack_up {c : UInt8} {ups : Nat} (hbuf : Buffer bytes s ([dot, dot] ++ r))
    (hc : c = 0 ↔ r = []) (hr : r = [] ∨ r.head? = some sep) (hle : s.out ≤ s.inp)
    (hset : s.str.take s.out = body sep dot ⟨false, ups, []⟩) (hcomps : s.comps = [0]) :
    ∃ t, backtrack false c s = some t ∧ t.phase = .loop ∧ Buffer bytes t r ∧
      Settled ⟨false, ups + 1, []⟩ r t ∧ t.comps = [0] := by
  have hnew := @body_ups _ sep dot (⟨false, ups, []⟩) rfl
  have hreads : s.inp + (2 + r.length) = bytes.length := by
    have h := hbuf.length_eq
    rwa [List.length_append] at h
  have hsize := hbuf.length_lt
  unfold backtrack
  rw [hcomps]
  simp only [Bool.false_eq_true, if_false]
  by_cases hcur : s.out = s.inp
  · -- The characters are where they would be written.
    rw [if_neg (not_not_intro hcur)]
    have hread := take_read hbuf
    rw [← hcur, hset] at hread
    by_cases hnil : r = []
    · rw [if_neg (not_not_intro (hc.mpr hnil))]
      refine ⟨_, rfl, rfl, hbuf.advance rfl rfl rfl (.inl ?_), ?_, rfl⟩
      · exact Nat.add_le_add_right hle 2
      · refine .of_body hnil (by simp [parts]) ?_
        show s.str.take (s.out + 2) ++ [sep] = _
        rw [hread, hnew, List.append_assoc]
        rfl
    · obtain ⟨r', rfl⟩ := List.head?_eq_some_iff.mp (hr.resolve_left hnil)
      rw [if_pos fun h => hnil (hc.mp h)]
      refine ⟨_, rfl, rfl, hbuf.advance rfl rfl rfl (.inr ⟨?_, rfl⟩), .inl ?_, rfl⟩
      · show s.out + 3 = s.inp + 2 + 1
        omega
      · show s.str.take (s.out + 3) = _
        rw [hread, hnew]
        rfl
  · rw [if_pos hcur, store_of_lt (by omega)]
    simp only [Option.bind_eq_bind, Option.bind_some]
    rw [store_of_lt (by rw [List.length_set]; omega)]
    simp only [Option.bind_some]
    rw [store_of_lt (by rw [List.length_set, List.length_set]; omega)]
    refine ⟨_, rfl, rfl, hbuf.advance ?_ rfl ?_ (.inl ?_), .inl ?_, rfl⟩
    · simp only [List.length_set]
    · simp only [List.drop_set]
      rw [if_pos (by omega), if_pos (by omega), if_pos (by omega)]
    · show s.out + 3 ≤ s.inp + 2
      omega
    · rw [hnew, ← hset]
      show (((s.str.set s.out dot).set (s.out + 1) dot).set (s.out + 2) sep).take (s.out + 3) = _
      rw [take_set_succ (by simp only [List.length_set]; omega),
        take_set_succ (by simp only [List.length_set]; omega), take_set_succ (by omega)]
      simp only [List.append_assoc, List.cons_append, List.nil_append]

/-- A `..` component: the last name is taken back, or the location leads one directory up. -/
theorem backtrack_spec {c : UInt8} (hbuf : Buffer bytes s ([dot, dot] ++ r))
    (hvalid : l.Valid sep dot) (hc : c = 0 ↔ r = []) (hr : r = [] ∨ r.head? = some sep)
    (hset : s.str.take s.out = body sep dot l) (hcomps : s.comps = locs l l.names) :
    ∃ t, backtrack l.isAbs c s = some t ∧ t.phase = .loop ∧ Buffer bytes t r ∧
      Settled (l.follow dot [dot, dot]) r t ∧
      t.comps = locs (l.follow dot [dot, dot]) (l.follow dot [dot, dot]).names := by
  have hlen := length_take_out hbuf hset
  have hle : s.out ≤ s.inp := hbuf.out_le fun h => dot_ne_sep (Option.some.inj h)
  obtain ⟨isAbs, ups, names⟩ := l
  match isAbs, names with
  | isAbs, n :: names =>
    obtain ⟨loc, rest, hlocs, hall⟩ :=
      @locs_dotDot ⟨isAbs, ups, n :: names⟩ _ names rfl
    have hbody := @body_cons _ sep dot ⟨isAbs, ups, n :: names⟩ _ _ rfl
    unfold backtrack
    rw [hcomps, hall, follow_dotDot_cons rfl]
    have hlt : (body sep dot ⟨isAbs, ups, names⟩).length ≤ s.out := by
      rw [hlen, hbody, List.length_append]
      exact Nat.le_add_right _ _
    refine ⟨_, rfl, rfl, hbuf.advance rfl rfl rfl (.inl ?_), .inl ?_, ?_⟩
    · exact Nat.le_trans hlt (Nat.le_trans hle (Nat.le_add_right _ _))
    · show s.str.take (body sep dot ⟨isAbs, ups, names⟩).length = _
      rw [← Nat.min_eq_left hlt, ← List.take_take, hset, hbody, List.take_left]
    · exact hlocs.symm.trans
        (@locs_congr ⟨isAbs, ups, names⟩ ⟨isAbs, ups, n :: names⟩ rfl rfl names)
  | true, [] =>
    have hups : ups = 0 := hvalid.root rfl
    unfold backtrack
    rw [hcomps, locs_root rfl, follow_dotDot_nil rfl]
    refine ⟨_, rfl, rfl, hbuf.advance rfl rfl rfl (.inl ?_), .inl hset, rfl⟩
    exact Nat.le_trans hle (Nat.le_add_right _ _)
  | false, [] =>
    rw [follow_dotDot_nil rfl]
    exact backtrack_up hbuf hc hr hle hset hcomps

theorem stepsLeft_read {phase : Phase} (hphase : phase = .loop ∨ phase = .skip) {n k : Nat}
    (hk : 0 < k) : stepsLeft n phase < stepsLeft (k + n) .skip := by
  rcases hphase with rfl | rfl <;> simp only [stepsLeft] <;> split <;> split <;> omega

theorem stepsLeft_copy (n : Nat) : stepsLeft n .copy < stepsLeft n .skip := by
  simp only [stepsLeft]
  split <;> omega

/-- A separator is skipped. -/
theorem Stage.skip_sep (hphase : s.phase = .skip) (hbuf : Buffer bytes s (sep :: r))
    (hvalid : l.Valid sep dot) (habs : l.isAbs = pathIsabs bytes)
    (hwalk : walk sep dot l (sep :: r) = location bytes) (hset : s.str.take s.out = body sep dot l)
    (hcomps : s.comps = locs l l.names) :
    Advances bytes s (skipStep (pathIsabs bytes) s) := by
  have hget : s.str[s.inp]? = some sep := hbuf.get_zero
  have hnext : Buffer bytes { s with inp := s.inp + 1 } r := by
    refine Buffer.advance (w := [sep]) hbuf rfl rfl rfl (.inl ?_)
    rcases hbuf.cursors with h | h
    · exact Nat.le_succ_of_le h
    · exact Nat.le_of_eq h.1
  refine ⟨{ s with inp := s.inp + 1 }, ?_, .between l r (.inr hphase) hnext hvalid habs ?_
    (.inl hset) fun _ => hcomps, measure_lt (w := [sep]) hbuf hnext ?_⟩
  · unfold skipStep
    simp only [hget, Option.bind_eq_bind, Option.bind_some, if_true]
  · exact (walk_sep l r).symm.trans hwalk
  · rw [List.length_append, hphase]
    exact stepsLeft_read (.inr rfl) Nat.zero_lt_one

/-- At the end of the text a component begins that has no character. -/
theorem Stage.skip_end (hphase : s.phase = .skip) (hbuf : Buffer bytes s [])
    (hset : Settled (location bytes) [] s) : Advances bytes s (skipStep (pathIsabs bytes) s) := by
  have hget : s.str[s.inp]? = some 0 := hbuf.get_zero
  have hnext : Buffer bytes { s with comps := s.out :: s.comps, phase := .copy } [] :=
    hbuf.congr rfl rfl rfl
  refine ⟨_, ?_, .final (.inl rfl) hnext hset, measure_lt (w := []) hbuf hnext ?_⟩
  · have hstep : skipStep (pathIsabs bytes) s = newComp s := by
      unfold skipStep
      simp only [hget, Option.bind_eq_bind, Option.bind_some]
      rfl
    exact hstep.trans (newComp_of_le (hbuf.out_le fun h => nomatch h))
  · rw [hphase]
    exact stepsLeft_copy 0

/-- A component is skipped, followed, or begun. -/
theorem Stage.skip_comp {comp : List UInt8} (hphase : s.phase = .skip) (hb : 0 ∉ bytes)
    (hbuf : Buffer bytes s (comp ++ r)) (hvalid : l.Valid sep dot)
    (habs : l.isAbs = pathIsabs bytes) (hnil : comp ≠ []) (hsep : sep ∉ comp)
    (hr : r = [] ∨ r.head? = some sep) (hwalk : walk sep dot (l.follow dot comp) r = location bytes)
    (hset : s.str.take s.out = body sep dot l) (hcomps : s.comps = locs l l.names) :
    Advances bytes s (skipStep (pathIsabs bytes) s) := by
  have hout : s.out ≤ s.inp := by
    obtain ⟨c, cs, rfl⟩ := List.exists_cons_of_ne_nil hnil
    exact hbuf.out_le fun h => hsep (Option.some.inj h ▸ List.mem_cons_self)
  have hread : stepsLeft r.length .loop < stepsLeft (comp ++ r).length s.phase := by
    rw [hphase, List.length_append]
    exact stepsLeft_read (.inl rfl) (List.length_pos_of_ne_nil hnil)
  by_cases hdot : comp = [dot]
  · subst hdot
    rw [follow_dot] at hwalk
    have hnext : Buffer bytes { s with inp := s.inp + 1, phase := .loop } r :=
      hbuf.advance rfl rfl rfl (.inl (Nat.le_succ_of_le hout))
    exact ⟨_, skipStep_dot hbuf hr _, .between l r (.inl rfl) hnext hvalid habs hwalk
      (.inl hset) fun _ => hcomps, measure_lt hbuf hnext hread⟩
  · by_cases hup : comp = [dot, dot]
    · subst hup
      obtain ⟨c, hc, hstep⟩ := skipStep_dotDot hbuf hr (pathIsabs bytes)
      obtain ⟨t, ht, htphase, hnext, htset, htcomps⟩ :=
        backtrack_spec hbuf hvalid hc hr hset hcomps
      rw [habs] at ht
      exact ⟨t, hstep.trans ht, .between _ r (.inl htphase) hnext (hvalid.follow hsep)
        ((follow_isAbs l _).trans habs) hwalk htset fun _ => htcomps,
        measure_lt hbuf hnext (htphase ▸ hread)⟩
    · have hname : IsName sep dot comp := ⟨hnil, hdot, hup, hsep⟩
      have hnext : Buffer bytes { s with comps := s.out :: s.comps, phase := .copy } (comp ++ r) :=
        hbuf.congr rfl rfl rfl
      rw [follow_name hname] at hwalk
      refine ⟨_, (skipStep_name hb hbuf hname _).trans (newComp_of_le hout),
        .inside l [] comp r rfl hnext hout hvalid habs hname hr hwalk ?_ ?_,
        measure_lt (w := []) hbuf hnext ?_⟩
      · rw [List.append_nil]
        exact hset
      · rw [List.nil_append, locs, ← length_take_out hbuf hset, ← hcomps]
      · rw [hphase]
        exact stepsLeft_copy _

theorem Stage.skip (hphase : s.phase = .skip) (hb : 0 ∉ bytes) (hbuf : Buffer bytes s r)
    (hvalid : l.Valid sep dot) (habs : l.isAbs = pathIsabs bytes)
    (hwalk : walk sep dot l r = location bytes) (hset : Settled l r s)
    (hcomps : r ≠ [] → s.comps = locs l l.names) :
    Advances bytes s (normStep (pathIsabs bytes) s) := by
  unfold normStep
  rw [hphase]
  obtain ⟨comp, r', rfl, hsep, hr'⟩ := exists_comp r
  by_cases hnil : comp = []
  · subst hnil
    rcases hr' with rfl | hr'
    · rw [List.append_nil, walk_nil] at hwalk
      exact Stage.skip_end hphase hbuf (hwalk ▸ hset)
    · obtain ⟨r, rfl⟩ := List.head?_eq_some_iff.mp hr'
      exact Stage.skip_sep hphase hbuf hvalid habs hwalk (hset.of_ne (List.cons_ne_nil _ _))
        (hcomps (List.cons_ne_nil _ _))
  · have hne : comp ++ r' ≠ [] := fun h => hnil (List.append_eq_nil_iff.mp h).1
    exact Stage.skip_comp hphase hb hbuf hvalid habs hnil hsep hr'
      ((walk_first hsep hr' l).symm.trans hwalk) (hset.of_ne hne) (hcomps hne)

theorem stepsLeft_copied {phase : Phase} (hphase : phase = .loop ∨ phase = .copy) (n : Nat) :
    stepsLeft n phase < stepsLeft (1 + n) .copy := by
  rcases hphase with rfl | rfl <;> simp only [stepsLeft] <;> split <;> split <;> omega

theorem copyStep_char {c : UInt8} (hbuf : Buffer bytes s (c :: r)) (hc : c ≠ 0 ∧ c ≠ sep)
    (hlt : s.out < s.str.length) : copyStep s =
      some { s with str := s.str.set s.out c, out := s.out + 1, inp := s.inp + 1 } := by
  have hget : s.str[s.inp]? = some c := hbuf.get_zero
  unfold copyStep
  simp only [hget, Option.bind_eq_bind, Option.bind_some, if_pos hc, store_of_lt hlt]

theorem copyStep_sep (hbuf : Buffer bytes s (sep :: r)) (hlt : s.out < s.str.length) :
    copyStep s = some { s with
      str := s.str.set s.out sep, out := s.out + 1, inp := s.inp + 1, phase := .loop } := by
  have hget : s.str[s.inp]? = some sep := hbuf.get_zero
  unfold copyStep
  simp only [hget, Option.bind_eq_bind, Option.bind_some, store_of_lt hlt]
  rfl

theorem copyStep_end (hbuf : Buffer bytes s []) : copyStep s = some { s with phase := .loop } := by
  have hget : s.str[s.inp]? = some 0 := hbuf.get_zero
  unfold copyStep
  simp only [hget, Option.bind_eq_bind, Option.bind_some]
  rfl

/-- A character is written over one that has been read. -/
theorem Buffer.write {c d : UInt8} {t : NormState} (h : Buffer bytes s (c :: r))
    (hout : s.out ≤ s.inp) (hstr : t.str = s.str.set s.out d) (htout : t.out = s.out + 1)
    (htinp : t.inp = s.inp + 1) : Buffer bytes t r := by
  refine Buffer.advance (w := [c]) h (by rw [hstr, List.length_set]) htinp ?_ (.inl (by omega))
  rw [hstr, List.drop_set, if_pos (by omega)]

theorem Stage.copy_end {pre : List UInt8} (hphase : s.phase = .copy) (hbuf : Buffer bytes s [])
    (hvalid : l.Valid sep dot) (habs : l.isAbs = pathIsabs bytes) (hname : IsName sep dot pre)
    (hwalk : walk sep dot { l with names := pre :: l.names } [] = location bytes)
    (hset : s.str.take s.out = body sep dot l ++ pre) : Advances bytes s (copyStep s) := by
  have hnext : Buffer bytes { s with phase := .loop } [] := hbuf.congr rfl rfl rfl
  refine ⟨_, copyStep_end hbuf, .between { l with names := pre :: l.names } [] (.inl rfl) hnext ?_
    habs hwalk (.of_body rfl ?_ ?_) fun h => absurd rfl h, measure_lt (w := []) hbuf hnext ?_⟩
  · exact follow_name hname l ▸ hvalid.follow hname.noSep
  · simp [parts]
  · rw [body_name, ← List.append_assoc]
    exact congrArg (· ++ [sep]) hset
  · rw [hphase]
    exact Nat.lt_succ_self 1

theorem Stage.copy_sep {pre : List UInt8} (hphase : s.phase = .copy)
    (hbuf : Buffer bytes s (sep :: r)) (hout : s.out ≤ s.inp) (hvalid : l.Valid sep dot)
    (habs : l.isAbs = pathIsabs bytes) (hname : IsName sep dot pre)
    (hwalk : walk sep dot { l with names := pre :: l.names } (sep :: r) = location bytes)
    (hset : s.str.take s.out = body sep dot l ++ pre)
    (hcomps : s.comps = locs l (pre :: l.names)) : Advances bytes s (copyStep s) := by
  have hlt : s.out < s.str.length := by
    have := hbuf.length_lt
    have := hbuf.reads
    omega
  have hnext : Buffer bytes { s with
      str := s.str.set s.out sep, out := s.out + 1, inp := s.inp + 1, phase := .loop } r :=
    hbuf.write hout rfl rfl rfl
  refine ⟨_, copyStep_sep hbuf hlt, .between { l with names := pre :: l.names } r (.inl rfl) hnext
    ?_ habs ?_ (.inl ?_) fun _ => ?_, measure_lt (w := [sep]) hbuf hnext ?_⟩
  · exact follow_name hname l ▸ hvalid.follow hname.noSep
  · exact (walk_sep _ r).symm.trans hwalk
  · show (s.str.set s.out sep).take (s.out + 1) = _
    rw [take_set_succ hlt, hset, body_name, List.append_assoc]
  · exact hcomps.trans (@locs_congr l ({ l with names := pre :: l.names }) rfl rfl _).symm
  · rw [hphase, List.length_append]
    exact stepsLeft_copied (.inl rfl) _

theorem Stage.copy_char {pre post : List UInt8} {c : UInt8} (hphase : s.phase = .copy)
    (hb : 0 ∉ bytes) (hbuf : Buffer bytes s (c :: post ++ r)) (hout : s.out ≤ s.inp)
    (hvalid : l.Valid sep dot) (habs : l.isAbs = pathIsabs bytes)
    (hname : IsName sep dot (pre ++ c :: post)) (hr : r = [] ∨ r.head? = some sep)
    (hwalk : walk sep dot { l with names := (pre ++ c :: post) :: l.names } r = location bytes)
    (hset : s.str.take s.out = body sep dot l ++ pre)
    (hcomps : s.comps = locs l ((pre ++ c :: post) :: l.names)) :
    Advances bytes s (copyStep s) := by
  have hlt : s.out < s.str.length := by
    have := hbuf.length_lt
    have := hbuf.reads
    omega
  have hc : c ≠ 0 ∧ c ≠ sep := by
    refine ⟨fun h => hbuf.notNul hb (h ▸ List.mem_cons_self), fun h => hname.noSep ?_⟩
    exact h ▸ List.mem_append_right pre List.mem_cons_self
  have hmove : pre ++ c :: post = (pre ++ [c]) ++ post := by
    rw [List.append_assoc, List.singleton_append]
  have hnext : Buffer bytes { s with
      str := s.str.set s.out c, out := s.out + 1, inp := s.inp + 1 } (post ++ r) :=
    hbuf.write hout rfl rfl rfl
  rw [hmove] at hname hwalk hcomps
  refine ⟨_, copyStep_char hbuf hc hlt, .inside l (pre ++ [c]) post r hphase hnext
    (Nat.succ_le_succ hout) hvalid habs hname hr hwalk ?_ hcomps,
    measure_lt (w := [c]) hbuf hnext ?_⟩
  · show (s.str.set s.out c).take (s.out + 1) = _
    rw [take_set_succ hlt, hset, List.append_assoc]
  · rw [hphase, List.length_append]
    exact stepsLeft_copied (.inr rfl) _

/-- Every step of the loops leads from a stage to a stage. -/
theorem Stage.step (hb : 0 ∉ bytes) (h : Stage bytes s) (hrun : s.phase ≠ .done) :
    Advances bytes s (normStep (pathIsabs bytes) s) := by
  have hcopy (hphase : s.phase = .copy) : normStep (pathIsabs bytes) s = copyStep s := by
    unfold normStep
    rw [hphase]
  cases h with
  | between l r hphase hbuf hvalid habs hwalk hset hcomps =>
    rcases hphase with hphase | hphase
    · exact Stage.loop hphase hb hbuf hvalid habs hwalk hset hcomps
    · exact Stage.skip hphase hb hbuf hvalid habs hwalk hset hcomps
  | inside l pre post r hphase hbuf hout hvalid habs hname hr hwalk hset hcomps =>
    rw [hcopy hphase]
    cases post with
    | cons c post =>
      exact Stage.copy_char hphase hb hbuf hout hvalid habs hname hr hwalk hset hcomps
    | nil =>
      rw [List.append_nil] at hname hwalk hcomps
      rcases hr with rfl | hr
      · exact Stage.copy_end hphase hbuf hvalid habs hname hwalk hset
      · obtain ⟨r, rfl⟩ := List.head?_eq_some_iff.mp hr
        exact Stage.copy_sep hphase hbuf hout hvalid habs hname hwalk hset hcomps
  | final hphase hbuf hset =>
    have hphase := hphase.resolve_right hrun
    have hnext : Buffer bytes { s with phase := .loop } [] := hbuf.congr rfl rfl rfl
    rw [hcopy hphase]
    refine ⟨_, copyStep_end hbuf, .between (location bytes) [] (.inl rfl) hnext (valid_locate bytes)
      (locate_isAbs bytes) (walk_nil _) hset fun h => absurd rfl h,
      measure_lt (w := []) hbuf hnext ?_⟩
    rw [hphase]
    exact Nat.lt_succ_self 1

/-! ## The whole run -/

theorem Stage.start (bytes : List UInt8) : Stage bytes (normStart bytes) := by
  cases habs : pathIsabs bytes with
  | true =>
    obtain ⟨r, rfl⟩ := List.head?_eq_some_iff.mp (of_decide_eq_true habs)
    have hstart : normStart (sep :: r) = ⟨(normStart (sep :: r)).str, 1, 1, [1], .loop⟩ := by
      unfold normStart
      rw [habs]
      rfl
    rw [hstart]
    refine .between (Location.start true) r (.inl rfl) ⟨rfl, Nat.succ_le_succ (Nat.zero_le _), rfl, rfl,
      .inl (Nat.le_refl 1)⟩ (valid_start true) habs.symm ?_ (.inl ?_) fun _ => rfl
    · rw [location, locate_eq_walk, show decide ((sep :: r).head? = some sep) = true from habs,
        walk_sep]
    · rw [normStart_str]
      rfl
  | false =>
    have hstart : normStart bytes = ⟨(normStart bytes).str, 0, 0, [0], .loop⟩ := by
      unfold normStart
      rw [habs]
      rfl
    rw [hstart]
    refine .between (Location.start false) bytes (.inl rfl)
      ⟨rfl, Nat.zero_le _, rfl, rfl, .inl (Nat.le_refl 0)⟩ (valid_start false) habs.symm ?_
      (.inl rfl) fun _ => rfl
    rw [location, locate_eq_walk, show decide (bytes.head? = some sep) = false from habs]

theorem measure_start (bytes : List UInt8) :
    measure bytes (normStart bytes) < 3 * bytes.length + 4 := by
  show stepsLeft (bytes.length - _) .loop < _
  simp only [stepsLeft]
  split <;> omega

theorem u32_of_lt {n : Nat} (h : n < 2 ^ 32) : u32 n = n := Nat.mod_eq_of_lt h

theorem two_le_length (h : Buffer bytes s r) : 2 ≤ s.str.length := by
  rw [h.size, normStart_str, pad, List.length_append, List.length_cons, List.length_replicate,
    List.length_append, List.length_singleton]
  omega

theorem take_store {str : List UInt8} (n : Nat) (c : UInt8) : (str.set n c).take n = str.take n :=
  List.take_set_of_le (Nat.le_refl n)

theorem normFinish_of_trim {str : List UInt8} {len out : Nat} (h : normTrim s = some (str, out))
    (hlt : out < str.length) (hle : out ≤ len + 1) (hfits : out + 1 < 2 ^ 32) :
    normFinish len s = some (str.take out) := by
  unfold normFinish
  simp only [h, Option.bind_eq_bind, Option.bind_some, store_of_lt hlt]
  rw [u32_of_lt hfits, Nat.add_sub_cancel, if_pos hle, take_store]

/-- A location with components: a last separator is taken back. -/
theorem normTrim_of_last {w : List UInt8} {c : UInt8} (hlast : w.getLast? = some c) (hc : c ≠ sep)
    (hout : s.out = (s.str.take s.out).length) (hfits : s.out < 2 ^ 32)
    (hset : s.str.take s.out = w ++ [sep] ∨ s.str.take s.out = w) :
    normTrim s = some (s.str, w.length) := by
  have hpos : 0 < w.length := List.length_pos_of_ne_nil fun h => by rw [h] at hlast; cases hlast
  have hget (i : Nat) (hi : i < s.out) : s.str[i]? = (s.str.take s.out)[i]? := by
    rw [List.getElem?_take, if_pos hi]
  unfold normTrim
  rw [u32_of_lt hfits]
  rcases hset with hset | hset
  · rw [hset, List.length_append, List.length_singleton] at hout
    have hsep : s.str[s.out - 1]? = some sep := by
      rw [hget _ (by omega), hset, hout, Nat.add_sub_cancel,
        List.getElem?_append_right (Nat.le_refl _), Nat.sub_self]
      rfl
    rw [if_neg (by omega), if_pos (by omega), hsep]
    show some (s.str, s.out - 1) = _
    rw [hout, Nat.add_sub_cancel]
  · rw [hset] at hout
    rw [if_neg (by omega)]
    split
    · rw [hget _ (by omega), hset, hout, ← List.getLast?_eq_getElem?, hlast]
      simp only [Option.bind_eq_bind, Option.bind_some, if_neg hc]
    · rw [hout]

/-- A location without components is the root or the directory itself. -/
theorem normTrim_root (hsize : 0 < s.str.length) {isAbs : Bool}
    (hset : s.str.take s.out = root sep isAbs) (hout : s.out = (root sep isAbs).length) :
    ∃ str, normTrim s = some (str, 1) ∧ str.length = s.str.length ∧
      str.take 1 = if isAbs then [sep] else [dot] := by
  unfold normTrim
  cases isAbs with
  | true =>
    have hone : s.out = 1 := hout
    rw [hone] at hset ⊢
    exact ⟨s.str, rfl, rfl, hset⟩
  | false =>
    have hzero : s.out = 0 := hout
    rw [hzero]
    refine ⟨s.str.set 0 dot, ?_, List.length_set, take_set_succ hsize dot⟩
    simp only [store_of_lt hsize]
    rfl

/-- What the last state holds is the path of the location. -/
theorem normFinish_spec (hbuf : Buffer bytes s []) (hfits : bytes.length + 1 < 2 ^ 32)
    (hset : Settled (location bytes) [] s) :
    normFinish bytes.length s = some (render sep dot (location bytes)) ∧
      (render sep dot (location bytes)).length ≤ max 1 bytes.length := by
  have hvalid : (location bytes).Valid sep dot := valid_locate bytes
  have htwo := two_le_length hbuf
  have hsize := hbuf.length_lt
  have hout : s.out ≤ bytes.length := by
    have := hbuf.reads
    have := hbuf.out_le fun h => nomatch h
    omega
  by_cases hparts : parts dot (location bytes) = []
  · have hset := (hset.resolve_right fun h => h.2.1 hparts).trans (body_of_nil hparts)
    obtain ⟨str, htrim, hlen, hstr⟩ := normTrim_root (by omega) hset (length_take_out hbuf hset)
    rw [normFinish_of_trim htrim (by omega) (by omega) (by omega), hstr, render, hparts]
    cases (location bytes).isAbs <;> exact ⟨rfl, Nat.le_max_left _ _⟩
  · obtain ⟨c, hlast, hc⟩ := @getLast?_intercalate _ sep (parts dot (location bytes)) (fun d hd => ⟨hvalid.noSep (by decide) d hd, hvalid.part_ne_nil d hd⟩) hparts
    have hrender : render sep dot (location bytes) =
        root sep (location bytes).isAbs ++ [sep].intercalate (parts dot (location bytes)) :=
      if_neg fun h => hparts h.2
    have hset : s.str.take s.out = render sep dot (location bytes) ++ [sep] ∨
        s.str.take s.out = render sep dot (location bytes) := by
      rw [hrender, ← body_eq hparts]
      exact hset.imp id fun h => h.2.2
    have hlast : (render sep dot (location bytes)).getLast? = some c := by
      rw [hrender, List.getLast?_append, hlast]
      rfl
    have hle : (render sep dot (location bytes)).length ≤ s.out := by
      rcases hset with h | h
      · rw [length_take_out hbuf h, List.length_append]
        exact Nat.le_add_right _ _
      · exact Nat.le_of_eq (length_take_out hbuf h).symm
    have htrim := normTrim_of_last hlast hc (length_take_out hbuf rfl) (by omega) hset
    refine ⟨?_, by omega⟩
    rw [normFinish_of_trim htrim (by omega) (by omega) (by omega)]
    refine congrArg some ?_
    rw [← Nat.min_eq_left hle, ← List.take_take]
    rcases hset with h | h
    · rw [h, List.take_left]
    · rw [h, List.take_length]

/-- `path_norm` leaves the path of the location. -/
theorem pathNorm_eq (hb : 0 ∉ bytes) (hfits : bytes.length + 1 < 2 ^ 32) :
    pathNorm bytes = some (render sep dot (location bytes)) ∧
      (render sep dot (location bytes)).length ≤ max 1 bytes.length := by
  obtain ⟨s, hrun, hstage, hdone⟩ := runSteps_halts (fun _ h hrun => h.step hb hrun)
    (Stage.start bytes) (measure_start bytes)
  have hnul : (bytes ++ [0])[bytes.length]? = some 0 := by
    rw [List.getElem?_append_right (Nat.le_refl _), Nat.sub_self]
    rfl
  unfold pathNorm
  simp only [u32_of_lt (Nat.lt_of_succ_lt hfits), hnul, hrun, Option.bind_eq_bind, Option.bind_some,
    if_true]
  cases hstage with
  | between _ _ hphase => rcases hphase with h | h <;> rw [hdone] at h <;> cases h
  | inside _ _ _ _ hphase => rw [hdone] at hphase; cases hphase
  | final _ hbuf hset => exact normFinish_spec hbuf hfits hset

/-- A path of which nothing is left out by another normalisation. -/
def Normalised (q : List UInt8) : Prop :=
  q = [dot] ∨ ∃ isAbs ups names, q = root sep isAbs ++ [sep].intercalate
    (List.replicate ups [dot, dot] ++ names) ∧ (∀ n ∈ names, IsName sep dot n) ∧
      (isAbs = true → ups = 0) ∧ (isAbs = false → List.replicate ups [dot, dot] ++ names ≠ [])

theorem normalised_render (h : l.Valid sep dot) : Normalised (render sep dot l) := by
  unfold render
  split
  · exact .inl rfl
  · rename_i hrest
    exact .inr ⟨l.isAbs, l.ups, l.names.reverse, rfl,
      fun n hn => h.names n (List.mem_reverse.mp hn), h.root, fun habs hnil => hrest ⟨habs, hnil⟩⟩

theorem Normalised.last {q : List UInt8} (h : Normalised q) (hlast : q.getLast? = some sep) :
    q = [sep] := by
  rcases h with rfl | ⟨isAbs, ups, names, rfl, hnames, -, hrel⟩
  · exact absurd (Option.some.inj hlast) dot_ne_sep
  · by_cases hparts : List.replicate ups [dot, dot] ++ names = []
    · cases isAbs with
      | true =>
        rw [hparts]
        rfl
      | false => exact absurd hparts (hrel rfl)
    · have hcs : ∀ d ∈ List.replicate ups [dot, dot] ++ names, sep ∉ d ∧ d ≠ [] := by
        intro d hd
        rcases List.mem_append.mp hd with hd | hd
        · rw [List.eq_of_mem_replicate hd]
          exact ⟨by decide, by decide⟩
        · exact ⟨(hnames d hd).noSep, (hnames d hd).ne_nil⟩
      obtain ⟨c, hc, hne⟩ := getLast?_intercalate hcs hparts
      rw [List.getLast?_append, hc] at hlast
      exact absurd (Option.some.inj hlast) hne

/-- A result of `path_norm` is a path. -/
theorem notNul_render (hb : 0 ∉ bytes) : 0 ∉ render sep dot (location bytes) := fun h => by
  rcases mem_render_locate h with h | h | h
  · exact hb h
  · exact absurd h (by decide)
  · exact absurd h (by decide)

theorem path_norm_exact (p : Path) : ∃ q : Path, pathNorm p.bytes = some q.bytes ∧
    location q.bytes = location p.bytes ∧ Normalised q.bytes ∧
    (q.bytes.getLast? = some sep → q.bytes = [sep]) ∧
    (location p.bytes = Location.start false → q.bytes = [dot]) ∧
    pathNorm q.bytes = some q.bytes ∧
    ∀ s, NormSteps p.bytes (normStart p.bytes) s →
      s.str.drop s.inp = (normStart p.bytes).str.drop s.inp ∧
      (s.out ≤ s.inp ∨ s.out = s.inp + 1 ∧ s.str[s.inp]? = some sep) := by
  have hvalid : (location p.bytes).Valid sep dot := valid_locate p.bytes
  obtain ⟨hnorm, hlen⟩ := pathNorm_eq p.noNul p.fits
  have hfits := p.fits
  have hloc : location (render sep dot (location p.bytes)) = location p.bytes :=
    hvalid.locate_render (Ne.symm dot_ne_sep)
  let q : Path := ⟨⟨render sep dot (location p.bytes), notNul_render p.noNul⟩, by
    show (render sep dot (location p.bytes)).length + 1 < _
    omega⟩
  refine ⟨q, hnorm, hloc, normalised_render hvalid, (normalised_render hvalid).last, fun h => ?_,
    ?_, fun s hs => ?_⟩
  · show render sep dot (location p.bytes) = _
    rw [h]
    rfl
  · have hagain := (pathNorm_eq q.noNul q.fits).1
    rwa [show location q.bytes = location p.bytes from hloc] at hagain
  · have hstage : Stage p.bytes s := hs.invariant
      (fun _ h hrun => (h.step p.noNul hrun).imp fun _ h => ⟨h.1, h.2.1⟩) (Stage.start p.bytes)
    have hall (r) (hbuf : Buffer p.bytes s r) : s.str.drop s.inp =
        (normStart p.bytes).str.drop s.inp ∧
        (s.out ≤ s.inp ∨ s.out = s.inp + 1 ∧ s.str[s.inp]? = some sep) := by
      refine ⟨hbuf.unread, hbuf.cursors.imp id fun h => ⟨h.1, ?_⟩⟩
      obtain ⟨r, rfl⟩ := List.head?_eq_some_iff.mp h.2
      exact hbuf.get_zero
    cases hstage with
    | between _ r _ hbuf => exact hall r hbuf
    | inside _ _ _ _ _ hbuf => exact hall _ hbuf
    | final _ hbuf => exact hall _ hbuf

end Nibble.PathUtils
