import Mathlib.Data.List.DropRight
import Nibble.PathUtils.Import
import Nibble.PathUtils.NormExact

/-!
# What an import resolves to

The candidates of an import are lexical: the directory that the kind of path names, then the
text. `get_import_abspath` finds the first that is a file, but where a file lies in the root
directory: the directory is an empty path then, to which nothing can be joined.
-/

namespace Nibble.PathUtils

open Lib Lib.Location
open Nibble.Front (PathErr)

variable {s t : NormState} {str p dir : List UInt8}

/-! ## Strings with terminators in them -/

/-- The buffer of a state goes on behind what the state needs. -/
def NormState.extend (tail : List UInt8) (s : NormState) : NormState :=
  { s with str := s.str ++ tail }

theorem getElem?_extend {i : Nat} {c : UInt8} (tail : List UInt8) (h : str[i]? = some c) :
    (str ++ tail)[i]? = some c := by
  obtain ⟨hlt, -⟩ := List.getElem?_eq_some_iff.mp h
  rw [List.getElem?_append_left hlt, h]

theorem store_extend {i : Nat} {c : UInt8} (tail : List UInt8) (h : store str i c = some p) :
    store (str ++ tail) i c = some (p ++ tail) ∧ i < p.length := by
  unfold store at h
  split at h
  · rename_i hlt
    cases h
    refine ⟨?_, by rw [List.length_set]; exact hlt⟩
    rw [store_of_lt (by rw [List.length_append]; omega), List.set_append_left i c hlt]
  · cases h

theorem newComp_extend (tail : List UInt8) (h : newComp s = some t) :
    newComp (s.extend tail) = some (t.extend tail) := by
  unfold newComp at h ⊢
  split at h
  · rename_i hle
    cases h
    exact if_pos hle
  · cases h

theorem backtrack_extend {isAbs : Bool} {c : UInt8} (tail : List UInt8)
    (h : backtrack isAbs c s = some t) :
    backtrack isAbs c (s.extend tail) = some (t.extend tail) := by
  have hcomps : (s.extend tail).comps = s.comps := rfl
  have hcursors : (s.extend tail).out = s.out ∧ (s.extend tail).inp = s.inp := ⟨rfl, rfl⟩
  unfold backtrack at h ⊢
  rw [hcomps]
  split
  · rename_i hcs
    simp only [hcs, Option.some.injEq] at h
    rw [← h]
    rfl
  · rename_i hcs
    split at h
    · exact absurd (by assumption) (hcs _ _ _)
    rw [hcursors.1, hcursors.2]
    split at h
    · rename_i habs
      cases h
      exact if_pos habs
    rename_i habs
    rw [if_neg habs]
    split at h
    · rename_i hne
      rw [if_pos hne]
      obtain ⟨str₁, h₁, h⟩ := Option.bind_eq_some_iff.mp h
      obtain ⟨str₂, h₂, h⟩ := Option.bind_eq_some_iff.mp h
      obtain ⟨str₃, h₃, h⟩ := Option.bind_eq_some_iff.mp h
      cases h
      refine Option.bind_eq_some_iff.mpr ⟨_, (store_extend tail h₁).1, ?_⟩
      refine Option.bind_eq_some_iff.mpr ⟨_, (store_extend tail h₂).1, ?_⟩
      exact Option.bind_eq_some_iff.mpr ⟨_, (store_extend tail h₃).1, rfl⟩
    · rename_i heq
      cases h
      exact if_neg heq

theorem skipStep_extend {isAbs : Bool} (tail : List UInt8) (h : skipStep isAbs s = some t) :
    skipStep isAbs (s.extend tail) = some (t.extend tail) := by
  have hnew := newComp_extend (s := s) (t := t) tail
  obtain ⟨c, hc, h⟩ := Option.bind_eq_some_iff.mp h
  refine Option.bind_eq_some_iff.mpr ⟨c, getElem?_extend tail hc, ?_⟩
  split at h
  · rename_i hsep
    cases h
    exact if_pos hsep
  rename_i hsep
  rw [if_neg hsep]
  split at h
  · rename_i hdot
    rw [if_pos hdot]
    obtain ⟨c₁, hc₁, h⟩ := Option.bind_eq_some_iff.mp h
    refine Option.bind_eq_some_iff.mpr ⟨c₁, getElem?_extend tail hc₁, ?_⟩
    split at h
    · rename_i hend
      cases h
      exact if_pos hend
    rename_i hend
    rw [if_neg hend]
    split at h
    · rename_i hdot₁
      rw [if_pos hdot₁]
      obtain ⟨c₂, hc₂, h⟩ := Option.bind_eq_some_iff.mp h
      refine Option.bind_eq_some_iff.mpr ⟨c₂, getElem?_extend tail hc₂, ?_⟩
      split at h
      · rename_i hend₂
        exact (if_pos hend₂).trans (backtrack_extend tail h)
      · rename_i hend₂
        exact (if_neg hend₂).trans (hnew h)
    · rename_i hdot₁
      exact (if_neg hdot₁).trans (hnew h)
  · rename_i hdot
    exact (if_neg hdot).trans (hnew h)

theorem copyStep_extend (tail : List UInt8) (h : copyStep s = some t) :
    copyStep (s.extend tail) = some (t.extend tail) := by
  obtain ⟨c, hc, h⟩ := Option.bind_eq_some_iff.mp h
  refine Option.bind_eq_some_iff.mpr ⟨c, getElem?_extend tail hc, ?_⟩
  split at h
  · rename_i hcopy
    obtain ⟨str, hstr, h⟩ := Option.bind_eq_some_iff.mp h
    cases h
    exact (if_pos hcopy).trans (Option.bind_eq_some_iff.mpr ⟨_, (store_extend tail hstr).1, rfl⟩)
  rename_i hcopy
  rw [if_neg hcopy]
  split at h
  · rename_i hsep
    obtain ⟨str, hstr, h⟩ := Option.bind_eq_some_iff.mp h
    cases h
    exact (if_pos hsep).trans (Option.bind_eq_some_iff.mpr ⟨_, (store_extend tail hstr).1, rfl⟩)
  · rename_i hsep
    cases h
    exact if_neg hsep

/-- No step depends on what stands behind the buffer that it needs. -/
theorem normStep_extend {isAbs : Bool} (tail : List UInt8) (h : normStep isAbs s = some t) :
    normStep isAbs (s.extend tail) = some (t.extend tail) := by
  have hphase : (s.extend tail).phase = s.phase := rfl
  unfold normStep at h ⊢
  rw [hphase]
  cases hp : s.phase with
  | loop =>
    rw [hp] at h
    obtain ⟨c, hc, h⟩ := Option.bind_eq_some_iff.mp h
    cases h
    exact Option.bind_eq_some_iff.mpr ⟨c, getElem?_extend tail hc, rfl⟩
  | skip =>
    rw [hp] at h
    exact skipStep_extend tail h
  | copy =>
    rw [hp] at h
    exact copyStep_extend tail h
  | done =>
    rw [hp] at h
    cases h
    rfl

theorem normTrim_extend {out : Nat} (tail : List UInt8) (h : normTrim s = some (str, out)) :
    normTrim (s.extend tail) = some (str ++ tail, out) := by
  have hout : (s.extend tail).out = s.out := rfl
  unfold normTrim at h ⊢
  simp only [hout] at h ⊢
  split at h
  · rename_i hzero
    obtain ⟨str', hstr, h⟩ := Option.bind_eq_some_iff.mp h
    cases h
    exact (if_pos hzero).trans (Option.bind_eq_some_iff.mpr ⟨_, (store_extend tail hstr).1, rfl⟩)
  rename_i hzero
  rw [if_neg hzero]
  split at h
  · rename_i hlast
    obtain ⟨c, hc, h⟩ := Option.bind_eq_some_iff.mp h
    cases h
    exact (if_pos hlast).trans (Option.bind_eq_some_iff.mpr ⟨c, getElem?_extend tail hc, rfl⟩)
  · rename_i hlast
    cases h
    exact if_neg hlast

theorem normFinish_extend {len len' : Nat} (tail : List UInt8) (hlen : len ≤ len')
    (h : normFinish len s = some p) : normFinish len' (s.extend tail) = some p := by
  obtain ⟨⟨str, out⟩, htrim, h⟩ := Option.bind_eq_some_iff.mp h
  obtain ⟨str', hstr, h⟩ := Option.bind_eq_some_iff.mp h
  obtain ⟨hstore, hlt⟩ := store_extend tail hstr
  refine Option.bind_eq_some_iff.mpr ⟨_, normTrim_extend tail htrim,
    Option.bind_eq_some_iff.mpr ⟨_, hstore, ?_⟩⟩
  have hle : u32 (out + 1) ≤ out + 1 := Nat.mod_le _ _
  dsimp only at h ⊢
  split at h
  · cases h
    rw [if_pos (by omega), List.take_append_of_le_length (by omega)]
  · cases h

theorem notNul_cText (str : List UInt8) : 0 ∉ cText str := fun h => by
  have hall := List.all_takeWhile (p := fun c => decide (c ≠ 0)) (l := str)
  exact of_decide_eq_true (List.all_eq_true.mp hall 0 h) rfl

theorem cText_of_notNul (h : 0 ∉ str) : cText str = str :=
  List.takeWhile_eq_self_iff.mpr fun _ hc => decide_eq_true fun h0 => h (h0 ▸ hc)

theorem cText_append_nul (h : 0 ∉ str) (tail : List UInt8) : cText (str ++ 0 :: tail) = str := by
  have hall : ∀ c ∈ str, decide (c ≠ 0) = true := fun _ hc => decide_eq_true fun h0 => h (h0 ▸ hc)
  unfold cText
  rw [List.takeWhile_append_of_pos hall]
  exact List.append_nil str

theorem length_cText_le (str : List UInt8) : (cText str).length ≤ str.length :=
  (List.takeWhile_sublist _).length_le

/-- A string is its text, or goes on behind a terminator. -/
theorem eq_cText_or (str : List UInt8) :
    str = cText str ∨ ∃ tail, str = cText str ++ 0 :: tail := by
  have hsplit : cText str ++ str.dropWhile (· ≠ 0) = str := List.takeWhile_append_dropWhile
  cases hd : str.dropWhile (· ≠ 0) with
  | nil =>
    rw [hd, List.append_nil] at hsplit
    exact .inl hsplit.symm
  | cons c tail =>
    have hc := List.head?_dropWhile_not (fun c => decide (c ≠ 0)) str
    rw [hd] at hc
    obtain rfl : c = 0 := by simpa using hc
    rw [hd] at hsplit
    exact .inr ⟨tail, hsplit.symm⟩

/-- The path of what a text names, whatever files there are. -/
def lex (text : List UInt8) : List UInt8 := render sep dot (location text)

theorem pathIsabs_append (hstr : str ≠ []) (tail : List UInt8) :
    pathIsabs (str ++ tail) = pathIsabs str := by
  unfold pathIsabs
  rw [List.head?_append_of_ne_nil str hstr]

theorem normStart_extend (hstr : str ≠ []) (tail : List UInt8) :
    normStart (str ++ 0 :: tail) = (normStart str).extend (tail ++ [0]) := by
  have hpos : 0 < str.length := List.length_pos_of_ne_nil hstr
  have hpad (w : List UInt8) : reserve (str ++ 0 :: w) 2 = str ++ 0 :: w := by
    unfold reserve
    rw [List.length_append, List.length_cons, Nat.sub_eq_zero_of_le (by omega)]
    exact List.append_nil _
  unfold normStart NormState.extend
  rw [pathIsabs_append hstr, List.append_assoc, List.cons_append, hpad, hpad, List.append_assoc]
  rfl

theorem pathNorm_nul (tail : List UInt8) (hfits : tail.length + 2 < 2 ^ 32) :
    pathNorm (0 :: tail) = some (lex []) := by
  have hnul : (0 :: tail ++ [0])[(0 :: tail).length]? = some 0 := by
    rw [List.getElem?_append_right (Nat.le_refl _), Nat.sub_self]
    rfl
  have hstart : normStart (0 :: tail) = ⟨0 :: (tail ++ [0]), 0, 0, [0], .loop⟩ := by
    unfold normStart reserve
    rw [List.length_append, List.length_cons, List.length_singleton,
      Nat.sub_eq_zero_of_le (by omega)]
    simp only [List.replicate_zero, List.append_nil]
    rfl
  have htail : 0 < (tail ++ [0]).length := by simp
  unfold pathNorm
  rw [u32_of_lt (by rw [List.length_cons]; omega)]
  simp only [hnul, hstart, Option.bind_eq_bind, Option.bind_some, if_true]
  show normFinish _ ⟨0 :: (tail ++ [0]), 0, 0, [0], .done⟩ = _
  refine (@normFinish_of_trim _ (dot :: (tail ++ [0])) _ 1 rfl ?_ ?_ (by omega)).trans rfl
  · rw [List.length_cons]
    omega
  · omega

/-- `path_norm` reads no further than the first terminator. -/
theorem pathNorm_cText (hfits : str.length + 1 < 2 ^ 32) :
    pathNorm str = some (lex (cText str)) := by
  have hle := length_cText_le str
  have hnul := notNul_cText str
  have hshort := (pathNorm_eq hnul (by omega)).1
  rcases eq_cText_or str with heq | ⟨tail, heq⟩
  · rwa [← heq] at hshort ⊢
  by_cases hnil : cText str = []
  · rw [hnil, List.nil_append] at heq
    rw [hnil, heq]
    exact pathNorm_nul tail (by rw [heq, List.length_cons] at hfits; omega)
  obtain ⟨c, -, hrest⟩ := Option.bind_eq_some_iff.mp hshort
  split at hrest
  · obtain ⟨s, hrun, hfinish⟩ := Option.bind_eq_some_iff.mp hrest
    have hlong : runSteps (normStep (pathIsabs (cText str))) (·.phase = .done) (3 * str.length + 4)
        ((normStart (cText str)).extend (tail ++ [0])) = some (s.extend (tail ++ [0])) :=
      runSteps_simulates (fun _ => Iff.rfl) (fun _ _ h => normStep_extend _ h) (by omega) hrun
    rw [← normStart_extend hnil, ← heq] at hlong
    have habs : pathIsabs (cText str) = pathIsabs str := by
      rw [heq, cText_append_nul hnul, pathIsabs_append hnil]
    have hend : (str ++ [0])[str.length]? = some 0 := by
      rw [List.getElem?_append_right (Nat.le_refl _), Nat.sub_self]
      rfl
    rw [habs] at hlong
    rw [u32_of_lt (by omega)] at hfinish
    unfold pathNorm
    simp only [u32_of_lt (Nat.lt_of_succ_lt hfits), hend, hlong, Option.bind_eq_bind,
      Option.bind_some, if_true]
    exact normFinish_extend _ hle hfinish
  · cases hrest

/-! ## Joining -/

theorem location_isAbs (p : List UInt8) : (location p).isAbs = pathIsabs p := locate_isAbs p

theorem location_lex (p : List UInt8) : location (lex p) = location p :=
  (valid_locate p).locate_render (Ne.symm dot_ne_sep)

theorem lex_lex (p : List UInt8) : lex (lex p) = lex p := congrArg (render sep dot) (location_lex p)

theorem pathIsabs_lex (p : List UInt8) : pathIsabs (lex p) = pathIsabs p := by
  rw [← location_isAbs, location_lex, location_isAbs]

theorem normalised_lex (p : List UInt8) : Normalised (lex p) := normalised_render (valid_locate p)

theorem ne_nil_of_pathIsabs (h : pathIsabs p = true) : p ≠ [] := fun hnil => by
  rw [hnil] at h
  cases h

theorem length_pathSet_le (str : List UInt8) (n : Nat) :
    (pathSet str n).length ≤ str.length + 1 := by
  unfold pathSet
  rw [List.length_take, List.length_append, List.length_singleton]
  exact Nat.min_le_right _ _

theorem pathSet_length (str : List UInt8) : pathSet str str.length = str := List.take_left

theorem length_pathJoin_le (dir str : List UInt8) (n : Nat) :
    (pathJoin dir str n).length ≤ dir.length + str.length + 1 := by
  have hset := length_pathSet_le str n
  have htext := length_cText_le str
  unfold pathJoin
  split
  · omega
  split
  · omega
  · rw [List.length_append]
    split
    · omega
    · rw [List.length_append, List.length_singleton]
      omega

theorem pathJoin_nil {n : Nat} (hn : n ≠ 0) (str : List UInt8) :
    pathJoin [] str n = pathSet str n := by
  unfold pathJoin
  rw [if_neg hn, if_pos (.inl rfl)]

theorem pathJoin_absolute {n : Nat} (hn : n ≠ 0) (habs : pathIsabs str = true) (dir : List UInt8) :
    pathJoin dir str n = pathSet str n := by
  unfold pathJoin
  rw [if_neg hn, if_pos (.inr habs)]

theorem pathJoin_relative {n : Nat} (hn : n ≠ 0) (hdir : dir ≠ []) (hrel : pathIsabs str = false) :
    pathJoin dir str n = (if dir.getLast? = some sep then dir else dir ++ [sep]) ++ cText str := by
  unfold pathJoin
  rw [if_neg hn, if_neg (by rw [hrel]; simp [hdir])]

/-- A directory that ends with a separator needs no other. -/
theorem walk_slash (hlast : dir.getLast? = some sep) (l : Location UInt8) (text : List UInt8) :
    walk sep dot l (dir ++ text) = walk sep dot l (dir ++ sep :: text) := by
  obtain ⟨d, rfl⟩ := List.getLast?_eq_some_iff.mp hlast
  have hstep : d ++ [sep] ++ text = d ++ sep :: text := by simp
  rw [hstep, walk_join, walk_join, walk_join, walk_nil]

/-- What is joined to a directory is followed from there. -/
theorem exists_pathJoin {n : Nat} (hn : n = 0 → str = []) (hdir : dir ≠ []) (hnul : 0 ∉ dir)
    (hrel : pathIsabs str = false) : ∃ w, pathJoin dir str n = dir ++ w ∧ 0 ∉ dir ++ w ∧
      ∀ l, walk sep dot l (dir ++ w) = walk sep dot l (dir ++ sep :: cText str) := by
  have htext := notNul_cText str
  by_cases hzero : n = 0
  · refine ⟨[], ?_, by rwa [List.append_nil], fun l => ?_⟩
    · rw [pathJoin, if_pos hzero, List.append_nil]
    · rw [hn hzero, walk_join, List.append_nil]
      exact (walk_nil _).symm
  rw [pathJoin_relative hzero hdir hrel]
  split
  · rename_i hlast
    exact ⟨_, rfl, fun h => (List.mem_append.mp h).elim hnul htext, fun l => walk_slash hlast l _⟩
  · refine ⟨sep :: cText str, by rw [List.append_assoc, List.singleton_append], ?_, fun _ => rfl⟩
    intro h
    rcases List.mem_append.mp h with h | h
    · exact hnul h
    · rcases List.mem_cons.mp h with h | h
      · exact absurd h (by decide)
      · exact htext h

theorem location_append {w v : List UInt8} (hdir : dir ≠ [])
    (hwalk : ∀ l, walk sep dot l (dir ++ w) = walk sep dot l (dir ++ v)) :
    location (dir ++ w) = location (dir ++ v) := by
  unfold location
  rw [locate_eq_walk, locate_eq_walk, List.head?_append_of_ne_nil dir hdir,
    List.head?_append_of_ne_nil dir hdir, hwalk]

/-- A text is joined to a directory and normalised. -/
theorem pathNorm_pathJoin {n : Nat} (hn : n = 0 → str = []) (hdir : dir ≠ []) (hnul : 0 ∉ dir)
    (hrel : pathIsabs str = false) (hfits : dir.length + str.length + 2 < 2 ^ 32) :
    pathNorm (pathJoin dir str n) = some (lex (dir ++ sep :: cText str)) := by
  have hlen := length_pathJoin_le dir str n
  obtain ⟨w, hw, hwnul, hwalk⟩ := exists_pathJoin hn hdir hnul hrel
  rw [pathNorm_cText (by omega), hw, cText_of_notNul hwnul, lex, location_append hdir hwalk]
  rfl

/-- A name is joined to a path that is normalised without normalising again. -/
theorem pathJoin_lex {name : List UInt8} (hname : IsName sep dot name) (hnul : 0 ∉ name)
    (habs : pathIsabs p = true) :
    pathJoin (lex p) name name.length = lex (p ++ sep :: name) := by
  have hvalid : (location p).Valid sep dot := valid_locate p
  have hrel : pathIsabs name = false := decide_eq_false fun h =>
    hname.noSep (List.mem_of_mem_head? h)
  have hdir : lex p ≠ [] := ne_nil_of_pathIsabs ((pathIsabs_lex p).trans habs)
  have hlen : name.length ≠ 0 := fun h => hname.ne_nil (List.eq_nil_of_length_eq_zero h)
  have hbody : body sep dot (location p) =
      if (lex p).getLast? = some sep then lex p else lex p ++ [sep] :=
    hvalid.body_eq_render (Ne.symm dot_ne_sep) ((location_isAbs p).trans habs)
  have hloc : location (p ++ sep :: name) =
      { location p with names := name :: (location p).names } := by
    unfold location
    rw [locate_join (ne_nil_of_pathIsabs habs), walk_comp hname.noSep, follow_name hname]
  rw [pathJoin_relative hlen hdir hrel, cText_of_notNul hnul, ← hbody, lex, hloc, render_name]

/-! ## Taking apart -/

/-- Behind the last `c`, or the start. -/
theorem ptrBehind_eq {c : UInt8} {n : Nat} (hn : n ≤ p.length) :
    ptrBehind c p n = ((p.take n).rdropWhile (· ≠ c)).length := by
  induction n with
  | zero => rfl
  | succ n ih =>
    have hget : p[n]? = some p[n] := List.getElem?_eq_getElem hn
    have htake : p.take (n + 1) = p.take n ++ [p[n]] := by rw [List.take_add_one, hget]; rfl
    rw [ptrBehind, hget, htake, List.rdropWhile_concat, ih (Nat.le_of_succ_le hn)]
    by_cases hc : p[n] = c
    · rw [if_pos (congrArg some hc), if_neg (by simpa using hc), ← htake, List.length_take,
        Nat.min_eq_left hn]
    · rw [if_neg fun h => hc (Option.some.inj h), if_pos (by simpa using hc)]

/-- The directory of a path: what stands before its last separator. -/
def dirText (p : List UInt8) : List UInt8 := (p.rdropWhile (· ≠ sep)).dropLast

theorem take_basename (p : List UInt8) : p.take (pathBasenamePtr p - 1) = dirText p := by
  have hpre : p.rdropWhile (· ≠ sep) <+: p := List.rdropWhile_prefix _ p
  unfold pathBasenamePtr dirText
  rw [ptrBehind_eq (Nat.le_refl _), List.take_length, List.dropLast_eq_take]
  conv_rhs => rw [List.prefix_iff_eq_take.mp hpre]
  rw [List.take_take, List.length_take, Nat.min_eq_left hpre.length_le,
    Nat.min_eq_left (Nat.sub_le _ _)]

/-- `.nib` -/
def dotNib : List UInt8 := dot :: nibExt

theorem drop_ext (p : List UInt8) : p.drop (pathExtPtr p) = p.rtakeWhile (· ≠ dot) := by
  unfold pathExtPtr
  rw [ptrBehind_eq (Nat.le_refl _), List.take_length]
  have hdrop : (p.rdropWhile (· ≠ dot) ++ p.rtakeWhile (· ≠ dot)).drop
      (p.rdropWhile (· ≠ dot)).length = p.rtakeWhile (· ≠ dot) := List.drop_left
  rwa [List.rdropWhile_append_rtakeWhile] at hdrop

/-- A path that begins with a separator is no extension itself. -/
theorem hasNibExt_iff (habs : pathIsabs p = true) (hnul : 0 ∉ p) :
    hasNibExt p = true ↔ dotNib <:+ p := by
  have hext : 0 ∉ p.rtakeWhile (· ≠ dot) := fun h => hnul ((List.rtakeWhile_suffix _ p).mem h)
  unfold hasNibExt
  rw [drop_ext, cText_of_notNul hext, decide_eq_true_iff]
  constructor
  · intro hnib
    have hsplit : p.rdropWhile (· ≠ dot) ++ p.rtakeWhile (· ≠ dot) = p :=
      List.rdropWhile_append_rtakeWhile
    rw [hnib] at hsplit
    by_cases hnil : p.rdropWhile (· ≠ dot) = []
    · rw [hnil, List.nil_append] at hsplit
      rw [← hsplit] at habs
      exact absurd habs (by decide)
    · have hlast := List.rdropWhile_last_not _ _ hnil
      have hdot : (p.rdropWhile (· ≠ dot)).getLast hnil = dot := by simpa using hlast
      refine ⟨(p.rdropWhile (· ≠ dot)).dropLast, ?_⟩
      rw [← List.dropLast_append_getLast hnil, hdot, List.append_assoc] at hsplit
      exact hsplit
  · rintro ⟨w, rfl⟩
    have happend : w ++ dotNib = w ++ [dot] ++ [110] ++ [105] ++ [98] := by simp [dotNib, nibExt]
    rw [happend, List.rtakeWhile_concat_pos _ _ _ (by decide),
      List.rtakeWhile_concat_pos _ _ _ (by decide), List.rtakeWhile_concat_pos _ _ _ (by decide),
      List.rtakeWhile_concat_neg _ _ _ (by decide)]
    rfl

/-! ## What an import stands for -/

/-- A search path, from the directory in which the compiler runs. -/
def absolute (cwd path : List UInt8) : List UInt8 :=
  if pathIsabs path then path else cwd ++ sep :: path

/-- The paths that an import may stand for. Nothing is put before a remainder that is absolute
itself. -/
def candidates (imp : Import) : List (List UInt8) :=
  let text := cText imp.pathStr
  match pathRelativity imp.pathStr with
  | .root => [lex text]
  | .curr => [lex (dirText imp.importer.bytes ++ sep :: text)]
  | .progEntry =>
    let rest := text.drop 2
    [lex (if pathIsabs rest then rest else dirText imp.mainPath.bytes ++ sep :: rest)]
  | .unknown =>
    imp.modulePaths.map fun path => lex (absolute imp.workingDir.bytes path.bytes ++ sep :: text)
  | .invalid => []

section

variable (kind : List UInt8 → FileKind)

/-- The module of a path: the path itself, or what a directory has for it. -/
def moduleOf (path : List UInt8) : List UInt8 :=
  if kind path = .dir then lex (path ++ sep :: dirModuleEntry) else path

def IsModule (path : List UInt8) : Bool := decide (kind path = .reg ∧ dotNib <:+ path)

/-- The first module that an import may stand for. -/
def found (paths : List (List UInt8)) : Option (List UInt8) :=
  (paths.map (moduleOf kind)).find? (IsModule kind)

/-- No assertion fails, and the result is the module that is found, if there is one: an absolute
path that is normalised. -/
def ImportMeets (imp : Import) : Prop :=
  ∃ r, getImportAbspath kind imp = some r ∧ ∀ path,
    (r = .ok path ↔ found kind (candidates imp) = some path) ∧
    (r = .ok path → pathIsabs path = true ∧ Normalised path)

/-- The directory on which the import depends is not the root. -/
def BelowRoot (imp : Import) : Prop :=
  (pathRelativity imp.pathStr = .curr → dirText imp.importer.bytes ≠ []) ∧
  (pathRelativity imp.pathStr = .progEntry →
    dirText imp.mainPath.bytes ≠ [] ∨ pathIsabs (imp.pathStr.drop 2) = true)

end

/-- A path of an absolute text. -/
def Lexical (path : List UInt8) : Prop := ∃ text, pathIsabs text = true ∧ 0 ∉ text ∧ path = lex text

namespace Lexical

variable {kind : List UInt8 → FileKind} {path : List UInt8}

theorem pathIsabs (h : Lexical path) : pathIsabs path = true := by
  obtain ⟨text, habs, -, rfl⟩ := h
  exact (pathIsabs_lex text).trans habs

theorem normalised (h : Lexical path) : Normalised path := by
  obtain ⟨text, -, -, rfl⟩ := h
  exact normalised_lex text

theorem notNul (h : Lexical path) : 0 ∉ path := by
  obtain ⟨text, -, hnul, rfl⟩ := h
  exact notNul_render hnul

theorem isName_entry : IsName sep dot dirModuleEntry :=
  ⟨by decide, by decide, by decide, by decide⟩

theorem moduleFile_eq (h : Lexical path) : moduleFile kind path = moduleOf kind path := by
  have hjoin : pathJoin path dirModuleEntry dirModuleEntry.length =
      lex (path ++ sep :: dirModuleEntry) := by
    obtain ⟨text, habs, -, rfl⟩ := h
    have hagain := pathJoin_lex isName_entry (by decide) ((pathIsabs_lex text).trans habs)
    rwa [lex_lex] at hagain
  unfold moduleFile moduleOf
  rw [hjoin]

theorem moduleOf (h : Lexical path) : Lexical (moduleOf kind path) := by
  unfold PathUtils.moduleOf
  split
  · refine ⟨_, (pathIsabs_append (ne_nil_of_pathIsabs h.pathIsabs) _).trans h.pathIsabs, ?_, rfl⟩
    intro hnul
    rcases List.mem_append.mp hnul with hnul | hnul
    · exact h.notNul hnul
    · exact absurd hnul (by decide)
  · exact h

theorem isModule_iff (h : Lexical path) :
    IsModule kind path = true ↔ kind path = .reg ∧ hasNibExt path = true := by
  unfold IsModule
  rw [decide_eq_true_iff, hasNibExt_iff h.pathIsabs h.notNul]

end Lexical

/-! ## The branches -/

variable {kind : List UInt8 → FileKind} {imp : Import}

/-- What a branch is to return for its candidates. -/
def Returns (kind : List UInt8 → FileKind) (paths : List (List UInt8))
    (r? : Option (Except PathErr (List UInt8))) : Prop :=
  ∃ r, r? = some r ∧ ∀ path, (r = .ok path ↔ found kind paths = some path) ∧
    (r = .ok path → pathIsabs path = true ∧ Normalised path)

theorem returns_ok {path : List UInt8} {paths : List (List UInt8)} (h : Lexical path)
    (hfound : found kind paths = some path) : Returns kind paths (some (.ok path)) := by
  refine ⟨_, rfl, fun q => ⟨?_, fun hq => ?_⟩⟩
  · rw [hfound, Except.ok.injEq, Option.some.injEq]
  · cases hq
    exact ⟨h.pathIsabs, h.normalised⟩

theorem returns_error {err : PathErr} {paths : List (List UInt8)}
    (hfound : found kind paths = none) : Returns kind paths (some (.error err)) := by
  refine ⟨_, rfl, fun q => ⟨?_, nofun⟩⟩
  rw [hfound]
  exact ⟨nofun, nofun⟩

theorem found_cons_of_isModule {path : List UInt8} {paths : List (List UInt8)}
    (h : IsModule kind (moduleOf kind path) = true) :
    found kind (path :: paths) = some (moduleOf kind path) := by
  unfold found
  rw [List.map_cons, List.find?_cons_of_pos h]

theorem found_cons_of_not {path : List UInt8} {paths : List (List UInt8)}
    (h : ¬ IsModule kind (moduleOf kind path) = true) :
    found kind (path :: paths) = found kind paths := by
  unfold found
  rw [List.map_cons, List.find?_cons_of_neg h]

theorem checkImport_returns {path : List UInt8} (h : Lexical path) :
    Returns kind [path] (checkImport kind path) := by
  have hmod : Lexical (moduleOf kind path) := h.moduleOf
  have hiff := @hmod.isModule_iff kind
  unfold checkImport
  simp only [if_pos h.pathIsabs, h.moduleFile_eq]
  split
  · rename_i hkind
    exact returns_error (found_cons_of_not fun hm => hkind (hiff.mp hm).1)
  rename_i hkind
  split
  · rename_i hext
    exact returns_error (found_cons_of_not fun hm => by simp [(hiff.mp hm).2] at hext)
  · rename_i hext
    have hfile := hiff.mpr ⟨not_not.mp hkind, by simpa using hext⟩
    exact returns_ok hmod (found_cons_of_isModule hfile)

theorem checkImport_relative {path : List UInt8} (h : pathIsabs path = false) :
    checkImport kind path = none := if_neg (by simp [h])

/-- The loop over the search paths, where each leads to its candidate. -/
theorem searchImport_returns {cwd : List UInt8} {cand : List UInt8 → List UInt8} (last : FileKind)
    (paths : List (List UInt8)) (hcand : ∀ path ∈ paths, Lexical (cand path) ∧
      pathAbs (pathJoin (pathSet path path.length) str str.length) cwd = some (cand path)) :
    Returns kind (paths.map cand) (searchImport kind str cwd last paths) := by
  induction paths generalizing last with
  | nil => exact returns_error rfl
  | cons path paths ih =>
    obtain ⟨h, habs⟩ := hcand path List.mem_cons_self
    have hmod : Lexical (moduleOf kind (cand path)) := h.moduleOf
    have hiff := @hmod.isModule_iff kind
    rw [searchImport, habs]
    simp only [Option.bind_eq_bind, Option.bind_some, h.moduleFile_eq, List.map_cons]
    split
    · rename_i hfile
      rw [if_pos hmod.pathIsabs]
      exact returns_ok hmod (found_cons_of_isModule (hiff.mpr hfile))
    · rename_i hfile
      have hrest := ih (kind (moduleOf kind (cand path)))
        fun p hp => hcand p (List.mem_cons_of_mem path hp)
      unfold Returns at hrest ⊢
      rwa [found_cons_of_not fun hm => hfile (hiff.mp hm)]

theorem pathIsabs_cText (str : List UInt8) : pathIsabs (cText str) = pathIsabs str := by
  cases str with
  | nil => rfl
  | cons c str =>
    unfold cText pathIsabs
    rw [List.takeWhile_cons]
    split
    · rfl
    · rename_i hc
      obtain rfl : c = 0 := by simpa using hc
      rfl

theorem lexical_join (habs : pathIsabs dir = true) (hnul : 0 ∉ dir) (str : List UInt8) :
    Lexical (lex (dir ++ sep :: cText str)) := by
  refine ⟨_, (pathIsabs_append (ne_nil_of_pathIsabs habs) _).trans habs, ?_, rfl⟩
  intro h
  rcases List.mem_append.mp h with h | h
  · exact hnul h
  · rcases List.mem_cons.mp h with h | h
    · exact absurd h (by decide)
    · exact notNul_cText str h

theorem absolute_spec {cwd path : List UInt8} (hcwd : pathIsabs cwd = true) (hcwdNul : 0 ∉ cwd)
    (hnul : 0 ∉ path) : pathIsabs (absolute cwd path) = true ∧ 0 ∉ absolute cwd path := by
  unfold absolute
  split
  · exact ⟨by assumption, hnul⟩
  · refine ⟨(pathIsabs_append (ne_nil_of_pathIsabs hcwd) _).trans hcwd, fun h => ?_⟩
    rcases List.mem_append.mp h with h | h
    · exact hcwdNul h
    · rcases List.mem_cons.mp h with h | h
      · exact absurd h (by decide)
      · exact hnul h

/-- A search path, from the working directory, with the text behind it. -/
theorem pathAbs_pathJoin {cwd path : List UInt8} (hcwd : pathIsabs cwd = true) (hcwdNul : 0 ∉ cwd)
    (hnul : 0 ∉ path) (hrel : pathIsabs str = false)
    (hfits : cwd.length + path.length + str.length + 4 < 2 ^ 32) :
    pathAbs (pathJoin (pathSet path path.length) str str.length) cwd =
      some (lex (absolute cwd path ++ sep :: cText str)) := by
  have hne := ne_nil_of_pathIsabs hcwd
  have hlen := length_pathJoin_le path str str.length
  rw [pathSet_length]
  unfold pathAbs absolute
  by_cases hpath : path = []
  · -- The text is joined to an empty path, and what that gives to the working directory.
    have hjoin : pathJoin [] str str.length = str := by
      by_cases hstr : str.length = 0
      · rw [pathJoin, if_pos hstr, List.eq_nil_of_length_eq_zero hstr]
      · rw [pathJoin_nil hstr, pathSet_length]
    rw [hpath, hjoin, if_neg (by simp [hrel]), if_pos hcwd, if_neg (by decide),
      pathNorm_pathJoin (fun h => absurd h (Nat.succ_ne_zero _)) hne hcwdNul hrel (by omega)]
    refine congrArg (fun l => some (render sep dot l)) ?_
    rw [List.append_assoc, List.cons_append, List.nil_append]
    exact location_append hne fun l => by rw [walk_join, walk_join, walk_sep]
  obtain ⟨w, hw, hwnul, hwalk⟩ := exists_pathJoin (n := str.length)
    (fun h => List.eq_nil_of_length_eq_zero h) hpath hnul hrel
  have hsame : pathIsabs (pathJoin path str str.length) = pathIsabs path := by
    rw [hw, pathIsabs_append hpath]
  rw [hsame]
  split
  · exact pathNorm_pathJoin (fun h => List.eq_nil_of_length_eq_zero h) hpath hnul hrel (by omega)
  · rename_i habs
    have hjoinRel : pathIsabs (path ++ w) = false := by
      rw [pathIsabs_append hpath]
      simpa using habs
    rw [pathNorm_pathJoin (fun h => absurd h (Nat.succ_ne_zero _)) hne hcwdNul
      (by rw [hw]; exact hjoinRel) (by omega), hw, cText_of_notNul hwnul]
    refine congrArg (fun l => some (render sep dot l)) ?_
    rw [List.append_assoc, List.cons_append]
    exact location_append hne fun l => by rw [walk_join, walk_join, hwalk]

theorem isPrefix_dirText (p : List UInt8) : dirText p <+: p :=
  (List.dropLast_prefix _).trans (List.rdropWhile_prefix _ p)

/-- A directory below the root, as a path to which a text is joined. -/
theorem dirText_absolute (habs : pathIsabs p = true) (hnul : 0 ∉ p) (hdir : dirText p ≠ []) :
    pathIsabs (dirText p) = true ∧ 0 ∉ dirText p ∧ (dirText p).length ≤ p.length := by
  have hpre := isPrefix_dirText p
  refine ⟨?_, fun h => hnul (hpre.mem h), hpre.length_le⟩
  obtain ⟨w, hw⟩ := hpre
  rw [← pathIsabs_append hdir w, hw, habs]

/-- The kinds of imports, by how their texts begin. -/
theorem pathRelativity_cases (str : List UInt8) :
    (pathRelativity str = .invalid ∧ str = []) ∨
    (pathRelativity str = .root ∧ pathIsabs str = true) ∨
    (pathRelativity str = .curr ∧ pathIsabs str = false ∧ str ≠ []) ∨
    (pathRelativity str = .progEntry ∧ str = dollar :: sep :: str.drop 2) ∨
    (pathRelativity str = .unknown ∧ pathIsabs str = false) := by
  unfold pathRelativity
  by_cases hlen : str.length = 0
  · exact .inl ⟨if_pos hlen, List.eq_nil_of_length_eq_zero hlen⟩
  have hne : str ≠ [] := fun h => hlen (congrArg List.length h)
  rw [if_neg hlen]
  by_cases habs : pathIsabs str = true
  · exact .inr (.inl ⟨if_pos habs, habs⟩)
  have hrel : pathIsabs str = false := by simpa using habs
  rw [if_neg habs]
  by_cases hdot : str.take 2 = [dot, sep]
  · exact .inr (.inr (.inl ⟨if_pos hdot, hrel, hne⟩))
  rw [if_neg hdot]
  by_cases hdots : str.take 3 = [dot, dot, sep]
  · exact .inr (.inr (.inl ⟨if_pos hdots, hrel, hne⟩))
  rw [if_neg hdots]
  by_cases hmain : str.take 2 = [dollar, sep]
  · refine .inr (.inr (.inr (.inl ⟨if_pos hmain, ?_⟩)))
    have hsplit := List.take_append_drop 2 str
    rw [hmain] at hsplit
    exact hsplit.symm
  · exact .inr (.inr (.inr (.inr ⟨if_neg hmain, hrel⟩)))

theorem cText_cons {c : UInt8} (hc : c ≠ 0) (str : List UInt8) :
    cText (c :: str) = c :: cText str :=
  List.takeWhile_cons_of_pos (decide_eq_true hc)

/-- What stands behind `$/` is joined to a directory. -/
theorem progEntry_norm (hrel : pathIsabs str = false ∧ dir ≠ [] ∨ pathIsabs str = true)
    (hdir : dir ≠ [] → pathIsabs dir = true ∧ 0 ∉ dir)
    (hfits : dir.length + str.length + 2 < 2 ^ 32) :
    ∃ path, Lexical path ∧ pathNorm (pathJoin dir str str.length) = some path ∧
      path = lex (if pathIsabs (cText str) then cText str else dir ++ sep :: cText str) := by
  rw [pathIsabs_cText]
  rcases hrel with ⟨hrel, hne⟩ | habs
  · obtain ⟨hdirAbs, hnul⟩ := hdir hne
    refine ⟨_, lexical_join hdirAbs hnul str, ?_, ?_⟩
    · exact pathNorm_pathJoin (fun h => List.eq_nil_of_length_eq_zero h) hne hnul hrel hfits
    · rw [hrel]
      rfl
  · have hlen : str.length ≠ 0 := fun h =>
      ne_nil_of_pathIsabs habs (List.eq_nil_of_length_eq_zero h)
    refine ⟨lex (cText str), ⟨_, (pathIsabs_cText str).trans habs, notNul_cText str, rfl⟩, ?_, ?_⟩
    · rw [pathJoin_absolute hlen habs, pathSet_length, pathNorm_cText (by omega)]
    · rw [habs]
      rfl

/-- Below the root each branch returns what its candidates lead to. -/
theorem getImportAbspath_returns (kind : List UInt8 → FileKind) (h : BelowRoot imp) :
    Returns kind (candidates imp) (getImportAbspath kind imp) := by
  have hfits (q : Front.OsPath) (hq : q ∈ [imp.importer, imp.mainPath] ++ imp.modulePaths) :=
    imp.fits q hq
  have himporter := hfits imp.importer (by simp)
  have hmain := hfits imp.mainPath (by simp)
  unfold getImportAbspath candidates
  rcases pathRelativity_cases imp.pathStr with ⟨hk, -⟩ | ⟨hk, habs⟩ | ⟨hk, hrel, -⟩ | ⟨hk, hstr⟩ |
    ⟨hk, hrel⟩
  · simp only [hk]
    exact returns_error rfl
  · have hnorm : pathNorm imp.pathStr = some (lex (cText imp.pathStr)) := pathNorm_cText (by omega)
    simp only [hk, pathSet_length, hnorm, Option.bind_eq_bind, Option.bind_some]
    exact checkImport_returns ⟨_, (pathIsabs_cText _).trans habs, notNul_cText _, rfl⟩
  · have hne := h.1 hk
    obtain ⟨hdir, hnul, hlen⟩ := dirText_absolute imp.importer_abs imp.importer.noNul hne
    simp only [hk, pathSet_length, take_basename]
    rw [pathNorm_pathJoin (fun h => List.eq_nil_of_length_eq_zero h) hne hnul hrel (by omega)]
    exact checkImport_returns (lexical_join hdir hnul _)
  · have hlen := (isPrefix_dirText imp.mainPath.bytes).length_le
    have hrest : (cText imp.pathStr).drop 2 = cText (imp.pathStr.drop 2) := by
      rw [hstr, cText_cons (by decide), cText_cons (by decide)]
      rfl
    have hdrop : imp.pathStr.length - 2 = (imp.pathStr.drop 2).length := List.length_drop.symm
    have hjoin : pathIsabs (imp.pathStr.drop 2) = false ∧ dirText imp.mainPath.bytes ≠ [] ∨
        pathIsabs (imp.pathStr.drop 2) = true := by
      cases habs : pathIsabs (imp.pathStr.drop 2) with
      | true => exact .inr rfl
      | false => exact .inl ⟨rfl, (h.2 hk).resolve_right fun h => by simp [habs] at h⟩
    obtain ⟨path, hlex, hnorm, hpath⟩ := progEntry_norm hjoin
      (fun hne => ⟨(dirText_absolute imp.mainPath_abs imp.mainPath.noNul hne).1,
        (dirText_absolute imp.mainPath_abs imp.mainPath.noNul hne).2.1⟩) (by omega)
    simp only [hk, pathSet_length, pathDirname, take_basename, hrest, hdrop, hnorm, ← hpath,
      Option.bind_eq_bind, Option.bind_some]
    exact checkImport_returns hlex
  · simp only [hk]
    have hreturns := @searchImport_returns imp.pathStr kind imp.workingDir.bytes
      (fun path => lex (absolute imp.workingDir.bytes path ++ sep :: cText imp.pathStr)) .none
      (imp.modulePaths.map (·.bytes)) ?_
    · rwa [List.map_map] at hreturns
    · intro path hpath
      obtain ⟨q, hq, rfl⟩ := List.mem_map.mp hpath
      have hcwd := imp.workingDir.noNul
      obtain ⟨habs, hnul⟩ := absolute_spec imp.workingDir_abs hcwd q.noNul
      exact ⟨lexical_join habs hnul _, pathAbs_pathJoin imp.workingDir_abs hcwd q.noNul hrel
        (hfits q (by simp [hq]))⟩

/-- In the root the directory is an empty path, and what is joined to it is relative. -/
theorem getImportAbspath_fails (kind : List UInt8 → FileKind) (h : ¬ BelowRoot imp) :
    getImportAbspath kind imp = none := by
  have hfits := imp.fits imp.importer (by simp)
  have hnorm {w : List UInt8} (hw : w.length ≤ imp.pathStr.length) (hrel : pathIsabs w = false) :
      (pathNorm w >>= checkImport kind) = none := by
    rw [pathNorm_cText (by omega)]
    exact checkImport_relative (by rw [pathIsabs_lex, pathIsabs_cText, hrel])
  unfold BelowRoot at h
  unfold getImportAbspath
  rcases pathRelativity_cases imp.pathStr with ⟨hk, -⟩ | ⟨hk, -⟩ | ⟨hk, hrel, hne⟩ | ⟨hk, hstr⟩ |
    ⟨hk, -⟩
  · simp [hk] at h
  · simp [hk] at h
  · have hdir : dirText imp.importer.bytes = [] := by simpa [hk] using h
    have hlen : imp.pathStr.length ≠ 0 := fun h => hne (List.eq_nil_of_length_eq_zero h)
    simp only [hk, pathSet_length, take_basename, hdir, pathJoin_nil hlen]
    exact hnorm (Nat.le_refl _) hrel
  · have hmain : dirText imp.mainPath.bytes = [] ∧ pathIsabs (imp.pathStr.drop 2) = false := by
      simpa [hk] using h
    have hdrop : imp.pathStr.length - 2 = (imp.pathStr.drop 2).length := List.length_drop.symm
    have hjoin : pathJoin [] (imp.pathStr.drop 2) (imp.pathStr.drop 2).length =
        imp.pathStr.drop 2 := by
      by_cases hlen : (imp.pathStr.drop 2).length = 0
      · rw [pathJoin, if_pos hlen, List.eq_nil_of_length_eq_zero hlen]
      · rw [pathJoin_nil hlen, pathSet_length]
    simp only [hk, pathSet_length, pathDirname, take_basename, hmain.1, hdrop, hjoin]
    exact hnorm (by rw [← hdrop]; exact Nat.sub_le _ _) hmain.2
  · simp [hk] at h

theorem get_import_abspath_exact (kind : List UInt8 → FileKind) (imp : Import) :
    ImportMeets kind imp ↔ BelowRoot imp := by
  constructor
  · rintro ⟨r, hr, -⟩
    by_contra h
    rw [getImportAbspath_fails kind h] at hr
    cases hr
  · exact fun h => getImportAbspath_returns kind h

theorem noNul_aNib : 0 ∉ [(47 : UInt8), 97, 46, 110, 105, 98] := by decide

/-- `/a.nib` imports `./b.nib`. -/
def rootImport : Import where
  pathStr := [46, 47, 98, 46, 110, 105, 98]
  importer := ⟨[47, 97, 46, 110, 105, 98], noNul_aNib⟩
  importer_abs := rfl
  mainPath := ⟨[47, 97, 46, 110, 105, 98], noNul_aNib⟩
  mainPath_abs := rfl
  workingDir := ⟨[47], by decide⟩
  workingDir_abs := rfl
  modulePaths := []
  fits := by decide

theorem import_from_root_fails : ¬ ImportMeets (fun _ => .reg) rootImport := by
  rintro ⟨r, hr, -⟩
  have hnone : getImportAbspath (fun _ => .reg) rootImport = none := by decide
  rw [hnone] at hr
  cases hr

end Nibble.PathUtils
