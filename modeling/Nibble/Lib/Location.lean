import Mathlib.Data.List.Basic

/-!
# Lexical paths

A path is a list of characters, its components what lies between separators. A location is
what a path names without looking at any file: how many directories up it leads, and the
names below. Each location has one path that renders it.
-/

namespace Nibble.Lib

/-- What a path names. The last name is the first of `names`. -/
structure Location (α : Type*) where
  isAbs : Bool
  ups : Nat
  names : List (List α)

namespace Location

variable {α : Type*} [DecidableEq α] (sep dot : α)

/-- A component taken from a location: nothing and `.` stay, `..` leaves the last name. -/
def follow (l : Location α) (comp : List α) : Location α :=
  if comp = [] ∨ comp = [dot] then l
  else if comp = [dot, dot] then
    match l.names with
    | _ :: names => { l with names }
    | [] => if l.isAbs then l else { l with ups := l.ups + 1 }
  else { l with names := comp :: l.names }

/-- Where a path begins. -/
def start (isAbs : Bool) : Location α := ⟨isAbs, 0, []⟩

/-- The location of a path. -/
def locate (s : List α) : Location α :=
  (s.splitOn sep).foldl (follow dot) (start (decide (s.head? = some sep)))

/-- A component that stands for itself. -/
structure IsName (comp : List α) : Prop where
  ne_nil : comp ≠ []
  ne_dot : comp ≠ [dot]
  ne_dotDot : comp ≠ [dot, dot]
  noSep : sep ∉ comp

/-- The names of a location are names, and none lies above the root. -/
structure Valid (l : Location α) : Prop where
  names : ∀ n ∈ l.names, IsName sep dot n
  root : l.isAbs = true → l.ups = 0

/-- The components of a location, in the order of a path. -/
def parts (l : Location α) : List (List α) := List.replicate l.ups [dot, dot] ++ l.names.reverse

/-- The separator of an absolute path. -/
def root (isAbs : Bool) : List α := if isAbs then [sep] else []

/-- The one path of a location that has nothing to spare. -/
def render (l : Location α) : List α :=
  if l.isAbs = false ∧ parts dot l = [] then [dot]
  else root sep l.isAbs ++ [sep].intercalate (parts dot l)

variable {sep dot} {l : Location α} {s pre rest comp : List α}

/-! ## Following components -/

@[simp] theorem follow_nil (l : Location α) : l.follow dot [] = l := if_pos (.inl rfl)

@[simp] theorem follow_dot (l : Location α) : l.follow dot [dot] = l := if_pos (.inr rfl)

theorem follow_name (h : IsName sep dot comp) (l : Location α) :
    l.follow dot comp = { l with names := comp :: l.names } := by
  unfold follow
  rw [if_neg (not_or.mpr ⟨h.ne_nil, h.ne_dot⟩), if_neg h.ne_dotDot]

theorem follow_dotDot_cons {n : List α} {names : List (List α)} (h : l.names = n :: names) :
    l.follow dot [dot, dot] = { l with names } := by
  unfold follow
  rw [if_neg (by simp), if_pos rfl, h]

theorem follow_dotDot_nil (h : l.names = []) : l.follow dot [dot, dot] =
    if l.isAbs then l else { l with ups := l.ups + 1 } := by
  unfold follow
  rw [if_neg (by simp), if_pos rfl, h]

theorem follow_isAbs (l : Location α) (comp : List α) :
    (l.follow dot comp).isAbs = l.isAbs := by
  unfold follow
  split
  · rfl
  · split
    · split
      · rfl
      · split <;> rfl
    · rfl

theorem Valid.follow (h : l.Valid sep dot) (hcomp : sep ∉ comp) :
    (l.follow dot comp).Valid sep dot := by
  unfold Location.follow
  split
  · exact h
  · rename_i hplain
    rw [not_or] at hplain
    split
    · split
      · rename_i n names hnames
        exact ⟨fun m hm => h.names m (hnames ▸ List.mem_cons_of_mem n hm), h.root⟩
      · split
        · exact h
        · rename_i habs
          exact ⟨h.names, fun htrue => absurd htrue habs⟩
    · rename_i hup
      refine ⟨fun m hm => ?_, h.root⟩
      rcases List.mem_cons.mp hm with rfl | hm
      · exact ⟨hplain.1, hplain.2, hup, hcomp⟩
      · exact h.names m hm

omit [DecidableEq α] in
theorem valid_start (isAbs : Bool) : (start isAbs : Location α).Valid sep dot :=
  ⟨fun _ hn => absurd hn List.not_mem_nil, fun _ => rfl⟩

theorem Valid.foldl {comps : List (List α)} (h : l.Valid sep dot) (hcomps : ∀ c ∈ comps, sep ∉ c) :
    (comps.foldl (Location.follow dot) l).Valid sep dot := by
  induction comps generalizing l with
  | nil => exact h
  | cons c cs ih =>
    exact ih (h.follow (hcomps c List.mem_cons_self))
      fun d hd => hcomps d (List.mem_cons_of_mem _ hd)

theorem notMem_of_mem_splitOn : ∀ {s comp : List α}, comp ∈ s.splitOn sep → sep ∉ comp
  | [], _, h => by
    rw [List.splitOn_nil, List.mem_singleton] at h
    rw [h]
    exact List.not_mem_nil
  | c :: s, comp, h => by
    rw [List.splitOn_cons_eq_if_modifyHead] at h
    split at h
    · rcases List.mem_cons.mp h with rfl | h
      · exact List.not_mem_nil
      · exact notMem_of_mem_splitOn h
    · rename_i hc
      have hne : sep ≠ c := fun heq => hc (beq_iff_eq.mpr heq.symm)
      obtain ⟨d, ds, hsplit⟩ := List.exists_cons_of_ne_nil (List.splitOn_ne_nil sep s)
      have hmem := fun e (he : e ∈ d :: ds) =>
        notMem_of_mem_splitOn (hsplit ▸ he : e ∈ s.splitOn sep)
      rw [hsplit] at h
      rcases List.mem_cons.mp h with rfl | h
      · exact List.not_mem_cons_of_ne_of_not_mem hne (hmem d List.mem_cons_self)
      · exact hmem comp (List.mem_cons_of_mem _ h)

theorem valid_locate (s : List α) : (locate sep dot s).Valid sep dot :=
  (valid_start _).foldl fun _ hc => notMem_of_mem_splitOn hc

theorem foldl_isAbs (comps : List (List α)) (l : Location α) :
    (comps.foldl (Location.follow dot) l).isAbs = l.isAbs := by
  induction comps generalizing l with
  | nil => rfl
  | cons c cs ih => rw [List.foldl_cons, ih, follow_isAbs]

theorem locate_isAbs (s : List α) : (locate sep dot s).isAbs = decide (s.head? = some sep) :=
  foldl_isAbs _ _

/-! ## What a path leads to -/

/-- The components of a text, followed from a location. -/
def walk (sep dot : α) (l : Location α) (s : List α) : Location α :=
  (s.splitOn sep).foldl (Location.follow dot) l

@[simp] theorem walk_nil (l : Location α) : walk sep dot l [] = l := by
  rw [walk, List.splitOn_nil, List.foldl_cons, follow_nil, List.foldl_nil]

@[simp] theorem walk_sep (l : Location α) (s : List α) :
    walk sep dot l (sep :: s) = walk sep dot l s := by
  unfold walk
  rw [List.splitOn_cons_eq_if_modifyHead, if_pos (beq_self_eq_true sep), List.foldl_cons,
    follow_nil]

/-- The first component, if a separator ends it. -/
theorem walk_append (hpre : sep ∉ pre) (l : Location α) (s : List α) :
    walk sep dot l (pre ++ sep :: s) = walk sep dot (l.follow dot pre) s := by
  unfold walk
  rw [List.splitOn_append_cons_self_of_not_mem hpre, List.foldl_cons]

theorem walk_comp (hcomp : sep ∉ comp) (l : Location α) :
    walk sep dot l comp = l.follow dot comp := by
  unfold walk
  rw [List.splitOn_eq_singleton hcomp, List.foldl_cons, List.foldl_nil]

/-- The first component, with what follows it. -/
theorem walk_first (hpre : sep ∉ pre) (hrest : rest = [] ∨ rest.head? = some sep)
    (l : Location α) : walk sep dot l (pre ++ rest) = walk sep dot (l.follow dot pre) rest := by
  rcases hrest with rfl | hrest
  · rw [List.append_nil, walk_comp hpre, walk_nil]
  · obtain ⟨s, rfl⟩ := List.head?_eq_some_iff.mp hrest
    rw [walk_append hpre, walk_sep]

theorem locate_eq_walk (s : List α) :
    locate sep dot s = walk sep dot (start (decide (s.head? = some sep))) s := rfl

/-- A path that goes on behind a separator is walked from where it led before. -/
theorem walk_join (l : Location α) (s rest : List α) :
    walk sep dot l (s ++ sep :: rest) = walk sep dot (walk sep dot l s) rest := by
  unfold walk
  rw [List.splitOn_append_cons_self, List.foldl_append]

theorem locate_join (hs : s ≠ []) (rest : List α) :
    locate sep dot (s ++ sep :: rest) = walk sep dot (locate sep dot s) rest := by
  rw [locate_eq_walk, locate_eq_walk, List.head?_append_of_ne_nil s hs, walk_join]

/-! ## Rendering -/

theorem foldl_ups (n k : Nat) : (List.replicate n [dot, dot]).foldl (Location.follow dot)
    (⟨false, k, []⟩ : Location α) = ⟨false, k + n, []⟩ := by
  induction n generalizing k with
  | zero => rfl
  | succ n ih =>
    rw [List.replicate_succ, List.foldl_cons, follow_dotDot_nil rfl, if_neg Bool.false_ne_true, ih,
      Nat.add_right_comm, Nat.add_assoc]

theorem foldl_names {names : List (List α)} (h : ∀ n ∈ names, IsName sep dot n) (l : Location α) :
    names.foldl (Location.follow dot) l = { l with names := names.reverse ++ l.names } := by
  induction names generalizing l with
  | nil => rfl
  | cons n names ih =>
    rw [List.foldl_cons, follow_name (h n List.mem_cons_self),
      ih fun m hm => h m (List.mem_cons_of_mem _ hm), List.reverse_cons, List.append_assoc]
    rfl

/-- The components of a location lead to it. -/
theorem Valid.foldl_parts (h : l.Valid sep dot) :
    (parts dot l).foldl (Location.follow dot) (start l.isAbs) = l := by
  have hups : (List.replicate l.ups [dot, dot]).foldl (Location.follow dot) (start l.isAbs) =
      ⟨l.isAbs, l.ups, []⟩ := by
    cases habs : l.isAbs with
    | true =>
      rw [h.root habs]
      rfl
    | false =>
      rw [start, foldl_ups, Nat.zero_add]
  unfold parts
  rw [List.foldl_append, hups, foldl_names fun n hn => h.names n (List.mem_reverse.mp hn),
    List.reverse_reverse, List.append_nil]

omit [DecidableEq α] in
theorem Valid.noSep (h : l.Valid sep dot) (hne : sep ≠ dot) : ∀ c ∈ parts dot l, sep ∉ c := by
  intro c hc
  rcases List.mem_append.mp hc with hc | hc
  · rw [List.eq_of_mem_replicate hc]
    simp [hne]
  · exact (h.names c (List.mem_reverse.mp hc)).noSep

omit [DecidableEq α] in
theorem Valid.part_ne_nil (h : l.Valid sep dot) : ∀ c ∈ parts dot l, c ≠ [] := by
  intro c hc
  rcases List.mem_append.mp hc with hc | hc
  · rw [List.eq_of_mem_replicate hc]
    exact List.cons_ne_nil _ _
  · exact (h.names c (List.mem_reverse.mp hc)).ne_nil

theorem walk_intercalate {cs : List (List α)} (hcs : ∀ c ∈ cs, sep ∉ c) (l : Location α) :
    walk sep dot l ([sep].intercalate cs) = cs.foldl (Location.follow dot) l := by
  by_cases hnil : cs = []
  · rw [hnil, List.intercalate_nil, walk_nil, List.foldl_nil]
  · rw [walk, List.splitOn_intercalate sep hcs hnil]

omit [DecidableEq α] in
/-- The path begins with a character of its first component. -/
theorem head?_intercalate {cs : List (List α)} (hcs : ∀ c ∈ cs, c ≠ []) :
    ([sep].intercalate cs).head? = cs.head?.bind List.head? := by
  match cs with
  | [] => rfl
  | [c] =>
    rw [List.intercalate_singleton]
    rfl
  | c :: d :: cs =>
    obtain ⟨a, as, rfl⟩ := List.exists_cons_of_ne_nil (hcs c List.mem_cons_self)
    rw [List.intercalate_cons_cons]
    rfl

/-- The path of a location names it. -/
theorem Valid.locate_render (h : l.Valid sep dot) (hne : sep ≠ dot) :
    locate sep dot (render sep dot l) = l := by
  have hfold := h.foldl_parts
  unfold render
  split
  · rename_i hempty
    rw [hempty.2, hempty.1] at hfold
    rw [locate_eq_walk, walk_comp (by simpa using hne), follow_dot,
      show decide (([dot] : List α).head? = some sep) = false by simp [Ne.symm hne]]
    exact hfold
  · rename_i hempty
    cases habs : l.isAbs with
    | true =>
      rw [habs] at hfold
      show walk sep dot (start (decide (some sep = some sep)))
        (sep :: [sep].intercalate (parts dot l)) = l
      rw [decide_eq_true rfl, walk_sep, walk_intercalate (h.noSep hne), hfold]
    | false =>
      have hhead : ([sep].intercalate (parts dot l)).head? ≠ some sep := by
        rw [head?_intercalate h.part_ne_nil]
        intro hsome
        obtain ⟨c, hc, hchead⟩ := Option.bind_eq_some_iff.mp hsome
        exact h.noSep hne c (List.mem_of_mem_head? hc) (List.mem_of_mem_head? hchead)
      rw [habs] at hfold
      show walk sep dot (start (decide (([sep].intercalate (parts dot l)).head? = some sep))) _ = l
      rw [decide_eq_false hhead]
      show walk sep dot (start false) ([sep].intercalate (parts dot l)) = l
      rw [walk_intercalate (h.noSep hne), hfold]

omit [DecidableEq α] in
theorem mem_intercalate_of_mem {cs : List (List α)} {c : α} (h : comp ∈ cs) (hc : c ∈ comp) :
    c ∈ [sep].intercalate cs := by
  induction cs with
  | nil => exact absurd h List.not_mem_nil
  | cons d ds ih =>
    rcases List.mem_cons.mp h with rfl | h
    · cases ds with
      | nil => rwa [List.intercalate_singleton]
      | cons e es =>
        rw [List.intercalate_cons_cons]
        simp [hc]
    · rw [List.intercalate_cons_of_ne_nil (List.ne_nil_of_mem h)]
      exact List.mem_append_right _ (ih h)

omit [DecidableEq α] in
theorem mem_of_mem_intercalate {cs : List (List α)} {c : α} (h : c ∈ [sep].intercalate cs) :
    c = sep ∨ ∃ d ∈ cs, c ∈ d := by
  induction cs with
  | nil => exact absurd h List.not_mem_nil
  | cons d ds ih =>
    by_cases hnil : ds = []
    · rw [hnil, List.intercalate_singleton] at h
      exact .inr ⟨d, List.mem_cons_self, h⟩
    · rw [List.intercalate_cons_of_ne_nil hnil, List.mem_append, List.mem_append] at h
      rcases h with (h | h) | h
      · exact .inr ⟨d, List.mem_cons_self, h⟩
      · exact .inl (List.mem_singleton.mp h)
      · exact (ih h).imp id fun ⟨e, he, hc⟩ => ⟨e, List.mem_cons_of_mem d he, hc⟩

theorem mem_of_mem_splitOn {c : α} (h : comp ∈ s.splitOn sep) (hc : c ∈ comp) : c ∈ s :=
  @List.intercalate_splitOn _ s _ _ sep ▸ mem_intercalate_of_mem h hc

theorem foldl_names_mem {P : α → Prop} {comps : List (List α)} (hcomps : ∀ d ∈ comps, ∀ c ∈ d, P c)
    (hl : ∀ n ∈ l.names, ∀ c ∈ n, P c) :
    ∀ n ∈ (comps.foldl (Location.follow dot) l).names, ∀ c ∈ n, P c := by
  induction comps generalizing l with
  | nil => exact hl
  | cons d ds ih =>
    refine ih (fun e he => hcomps e (List.mem_cons_of_mem d he)) ?_
    unfold Location.follow
    split
    · exact hl
    · split
      · split
        · rename_i n names hnames
          exact fun m hm => hl m (hnames ▸ List.mem_cons_of_mem n hm)
        · split <;> exact hl
      · intro n hn
        rcases List.mem_cons.mp hn with rfl | hn
        · exact hcomps n List.mem_cons_self
        · exact hl n hn

/-- What is rendered comes from the path, but for dots and separators. -/
theorem mem_render_locate {c : α} (h : c ∈ render sep dot (locate sep dot s)) :
    c ∈ s ∨ c = sep ∨ c = dot := by
  unfold render at h
  split at h
  · exact .inr (.inr (List.mem_singleton.mp h))
  · rcases List.mem_append.mp h with h | h
    · unfold root at h
      split at h
      · exact .inr (.inl (List.mem_singleton.mp h))
      · exact absurd h List.not_mem_nil
    · rcases mem_of_mem_intercalate h with h | ⟨d, hd, hc⟩
      · exact .inr (.inl h)
      · rcases List.mem_append.mp hd with hd | hd
        · rw [List.eq_of_mem_replicate hd] at hc
          exact .inr (.inr (by simpa using hc))
        · refine .inl (foldl_names_mem (P := (· ∈ s)) (fun e he c hc => mem_of_mem_splitOn he hc)
            (fun _ hn => absurd hn List.not_mem_nil) d (List.mem_reverse.mp hd) c hc)

/-! ## Components with their separators -/

/-- The components that have been read, each with a separator after it. -/
def body (sep dot : α) (l : Location α) : List α :=
  root sep l.isAbs ++ (parts dot l).flatMap (· ++ [sep])

omit [DecidableEq α] in
theorem body_name (l : Location α) (n : List α) :
    body sep dot { l with names := n :: l.names } = body sep dot l ++ (n ++ [sep]) := by
  unfold body parts
  simp only [List.reverse_cons, List.flatMap_append, List.flatMap_singleton, List.append_assoc]

omit [DecidableEq α] in
theorem body_cons {n : List α} {names : List (List α)} (h : l.names = n :: names) :
    body sep dot l = body sep dot { l with names } ++ (n ++ [sep]) := by
  rw [← body_name, ← h]

omit [DecidableEq α] in
theorem body_ups (h : l.names = []) :
    body sep dot { l with ups := l.ups + 1 } = body sep dot l ++ [dot, dot, sep] := by
  unfold body parts
  simp only [h, List.reverse_nil, List.append_nil, List.replicate_succ', List.flatMap_append,
    List.flatMap_singleton, List.append_assoc]
  rfl

omit [DecidableEq α] in
theorem flatMap_eq_intercalate {cs : List (List α)} (hcs : cs ≠ []) :
    cs.flatMap (· ++ [sep]) = [sep].intercalate cs ++ [sep] := by
  induction cs with
  | nil => exact absurd rfl hcs
  | cons c cs ih =>
    by_cases hnil : cs = []
    · rw [hnil, List.flatMap_singleton, List.intercalate_singleton]
    · rw [List.flatMap_cons, ih hnil, List.intercalate_cons_of_ne_nil hnil]
      simp only [List.append_assoc]

omit [DecidableEq α] in
theorem body_eq (h : parts dot l ≠ []) :
    body sep dot l = root sep l.isAbs ++ [sep].intercalate (parts dot l) ++ [sep] := by
  rw [body, flatMap_eq_intercalate h, List.append_assoc]

omit [DecidableEq α] in
theorem body_of_nil (h : parts dot l = []) : body sep dot l = root sep l.isAbs := by
  rw [body, h, List.flatMap_nil, List.append_nil]

omit [DecidableEq α] in
/-- The last character before the last separator is one of a component. -/
theorem getLast?_intercalate {cs : List (List α)} (hcs : ∀ c ∈ cs, sep ∉ c ∧ c ≠ [])
    (hne : cs ≠ []) : ∃ a, ([sep].intercalate cs).getLast? = some a ∧ a ≠ sep := by
  induction cs with
  | nil => exact absurd rfl hne
  | cons c cs ih =>
    by_cases hnil : cs = []
    · obtain ⟨hsep, hc⟩ := hcs c List.mem_cons_self
      rw [hnil, List.intercalate_singleton, List.getLast?_eq_some_getLast hc]
      exact ⟨_, rfl, fun heq => hsep (heq ▸ List.getLast_mem hc)⟩
    · obtain ⟨a, ha, hane⟩ := ih (fun d hd => hcs d (List.mem_cons_of_mem c hd)) hnil
      rw [List.intercalate_cons_of_ne_nil hnil, List.getLast?_append, ha]
      exact ⟨a, rfl, hane⟩

omit [DecidableEq α] in
/-- A name is rendered behind the components before it. -/
theorem render_name (l : Location α) (n : List α) :
    render sep dot { l with names := n :: l.names } = body sep dot l ++ n := by
  have hparts : parts dot { l with names := n :: l.names } ≠ [] := by simp [parts]
  have hbody := @body_name _ sep dot l n
  rw [body_eq hparts, ← List.append_assoc] at hbody
  rw [render, if_neg fun h => hparts h.2]
  exact List.append_cancel_right hbody

/-- Behind a path of the root stands nothing, behind any other a separator. -/
theorem Valid.body_eq_render (h : l.Valid sep dot) (hne : sep ≠ dot)
    (habs : l.isAbs = true) : body sep dot l =
      if (render sep dot l).getLast? = some sep then render sep dot l
      else render sep dot l ++ [sep] := by
  have hrender : render sep dot l = Location.root sep l.isAbs ++ [sep].intercalate (parts dot l) :=
    if_neg fun hrel => Bool.false_ne_true (hrel.1.symm.trans habs)
  by_cases hparts : parts dot l = []
  · rw [hrender, hparts, body_of_nil hparts, habs, List.intercalate_nil, List.append_nil]
    exact (if_pos rfl).symm
  · obtain ⟨c, hlast, hc⟩ := @getLast?_intercalate _ sep (parts dot l)
      (fun d hd => ⟨h.noSep hne d hd, h.part_ne_nil d hd⟩) hparts
    rw [hrender, body_eq hparts, List.getLast?_append, hlast]
    exact (if_neg fun heq => hc (Option.some.inj heq)).symm

end Location

end Nibble.Lib
