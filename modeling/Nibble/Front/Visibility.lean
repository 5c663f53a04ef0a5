import Nibble.Front.Module
import Mathlib.Data.List.Nodup
import Mathlib.Data.List.Perm.Basic

/-!
# What import statements bring in

A module's symbol table after its import statements, when the export tables of the imported
modules are given. Adding symbols without replacing any gives the union of the table and what is
added, whatever the order, and fails just where the union gives a name two meanings. A symbol is
replaced only by an import namespace, and a greedy import adds declared names.
-/

namespace Nibble.Front

/-! ## Tables as finite maps -/

theorem lookup_filter_ne (t : SymTable) (n m : Identifier) :
    (t.filter fun e => e.1 ≠ n).lookup m = if m = n then none else t.lookup m := by
  induction t with
  | nil => simp
  | cons e t ih =>
    obtain ⟨k, s⟩ := e
    by_cases hk : k = n
    · subst hk
      rw [List.filter_cons_of_neg (by simp), ih]
      by_cases hm : m = k
      · simp [hm]
      · rw [if_neg hm, if_neg hm, List.lookup_cons, beq_false_of_ne hm]
    · rw [List.filter_cons_of_pos (by simpa using hk), List.lookup_cons, List.lookup_cons, ih]
      by_cases hm : m = k
      · simp [hm, hk]
      · simp [beq_false_of_ne hm]

theorem lookup_put (t : SymTable) (n m : Identifier) (s : Symbol) :
    (t.put n s).lookup m = if m = n then some s else t.lookup m := by
  rw [SymTable.put, List.lookup_append, lookup_filter_ne]
  by_cases hm : m = n
  · simp [hm]
  · simp [hm, List.lookup_cons, beq_false_of_ne hm]

/-- Each name of the table stands in one entry. -/
def SymTable.KeysNodup (t : SymTable) : Prop := (t.map Prod.fst).Nodup

theorem SymTable.KeysNodup.put {t : SymTable} (h : t.KeysNodup) (n : Identifier) (s : Symbol) :
    (t.put n s).KeysNodup := by
  rw [KeysNodup, SymTable.put, List.map_append]
  refine List.nodup_append.mpr ⟨h.sublist (List.filter_sublist.map _), List.nodup_singleton _, ?_⟩
  intro a ha b hb hab
  obtain ⟨e, he, rfl⟩ := List.mem_map.mp ha
  obtain rfl := List.mem_singleton.mp hb
  exact absurd hab (of_decide_eq_true (List.mem_filter.mp he).2)

theorem SymTable.KeysNodup.mem_iff {t : SymTable} (h : t.KeysNodup) {n : Identifier} {s : Symbol} :
    (n, s) ∈ t ↔ t.lookup n = some s := by
  induction t with
  | nil => simp
  | cons e t ih =>
    obtain ⟨k, x⟩ := e
    obtain ⟨hk, ht⟩ := List.nodup_cons.mp h
    rw [List.mem_cons, ih ht, List.lookup_cons]
    by_cases hn : n = k
    · subst hn
      have hnone : t.lookup n ≠ some s := fun hs =>
        hk (List.mem_map.mpr ⟨(n, s), (ih ht).mpr hs, rfl⟩)
      simp [hnone, eq_comm]
    · simp [hn, beq_false_of_ne hn]

/-! ## Adding symbols -/

section

variable {self : OsPath} {t t' : SymTable} {n : Identifier} {s : Symbol}
  {l : List (Identifier × Symbol)}

/-- `module_add_global_sym` for each of some names. -/
def addAll (self : OsPath) (t : SymTable) (l : List (Identifier × Symbol)) : Except Stop SymTable :=
  l.foldlM (fun t e => moduleAddGlobalSym self t e.1 e.2) t

/-- A symbol of the module itself. -/
def Symbol.Native (self : OsPath) (s : Symbol) : Prop := s.home = some self

instance (self : OsPath) (s : Symbol) : Decidable (s.Native self) := decEq (α := Option OsPath) ..

/-- What one addition does: the name was free, or had this symbol, or gets this symbol of the
module in place of one from elsewhere. -/
theorem moduleAddGlobalSym_eq_ok (h : moduleAddGlobalSym self t n s = .ok t') :
    (∀ m, t'.lookup m = if m = n then some s else t.lookup m) ∧
    (t.lookup n = none ∨ t.lookup n = some s ∨
      s.Native self ∧ ∃ old, t.lookup n = some old ∧ ¬ old.Native self) := by
  simp only [moduleAddGlobalSym] at h
  split at h
  next hsame =>
    cases h
    refine ⟨fun m => ?_, .inr (.inl hsame.symm)⟩
    split
    next hm => rw [hm, hsame]
    next => rfl
  next =>
    split at h
    next old hold =>
      split at h
      next => cases h
      next hrep =>
        cases h
        rw [not_or] at hrep
        have hnative : s.home = some self := by simpa using hrep.1
        exact ⟨fun m => lookup_put .., .inr (.inr ⟨hnative, old, hold, hrep.2⟩)⟩
    next hnone =>
      cases h
      exact ⟨fun m => lookup_put .., .inl hnone⟩

theorem moduleAddGlobalSym_isOk (h : t.lookup n = none ∨ t.lookup n = some s) :
    ∃ t', moduleAddGlobalSym self t n s = .ok t' := by
  simp only [moduleAddGlobalSym]
  rcases h with h | h
  · rw [h]
    exact ⟨_, rfl⟩
  · rw [h]
    exact ⟨_, if_pos rfl⟩

/-- The table and what is added to it, as a relation. -/
def Joined (t : SymTable) (l : List (Identifier × Symbol)) (n : Identifier) (s : Symbol) : Prop :=
  t.lookup n = some s ∨ (n, s) ∈ l

/-- No symbol of the module is added under a name that has a symbol from elsewhere. -/
def NoReplace (self : OsPath) (t : SymTable) (l : List (Identifier × Symbol)) : Prop :=
  ∀ n s, (n, s) ∈ l → s.Native self → ∀ old, Joined t l n old → old.Native self

theorem addAll_cons (e : Identifier × Symbol) :
    addAll self t (e :: l) = moduleAddGlobalSym self t e.1 e.2 >>= fun t => addAll self t l :=
  List.foldlM_cons

theorem joined_cons (hlook : ∀ m, t'.lookup m = if m = n then some s else t.lookup m)
    (hfree : t.lookup n = none ∨ t.lookup n = some s) (m : Identifier) (x : Symbol) :
    Joined t' l m x ↔ Joined t ((n, s) :: l) m x := by
  rw [Joined, Joined, hlook, List.mem_cons, Prod.mk.injEq]
  by_cases hm : m = n
  · subst hm
    rcases hfree with h | h <;> simp [h, eq_comm]
  · simp [hm]

theorem NoReplace.tail (h : NoReplace self t ((n, s) :: l))
    (hlook : ∀ m, t'.lookup m = if m = n then some s else t.lookup m)
    (hfree : t.lookup n = none ∨ t.lookup n = some s) : NoReplace self t' l :=
  fun m x hmem hx old hold =>
    h m x (.tail _ hmem) hx old ((joined_cons hlook hfree m old).mp hold)

/-- Nothing is replaced where no symbol of the module meets one from elsewhere. -/
theorem NoReplace.free (h : NoReplace self t ((n, s) :: l))
    (hadd : moduleAddGlobalSym self t n s = .ok t') :
    t.lookup n = none ∨ t.lookup n = some s := by
  rcases (moduleAddGlobalSym_eq_ok hadd).2 with hn | hs | ⟨hnative, old, hold, hforeign⟩
  · exact .inl hn
  · exact .inr hs
  · exact absurd (h n s (.head _) hnative old (.inl hold)) hforeign

theorem lookup_addAll (h : addAll self t l = .ok t') (hrep : NoReplace self t l) :
    ∀ m x, t'.lookup m = some x ↔ Joined t l m x := by
  induction l generalizing t with
  | nil =>
    cases h
    exact fun m x => (or_iff_left List.not_mem_nil).symm
  | cons e l ih =>
    obtain ⟨n, s⟩ := e
    rw [addAll_cons] at h
    cases hadd : moduleAddGlobalSym self t n s with
    | error e => rw [hadd] at h; cases h
    | ok t₁ =>
      rw [hadd] at h
      have hlook := (moduleAddGlobalSym_eq_ok hadd).1
      have hfree := hrep.free hadd
      intro m x
      rw [ih h (hrep.tail hlook hfree), joined_cons hlook hfree]

/-- No name has two meanings. -/
def Functional (r : Identifier → Symbol → Prop) : Prop := ∀ n s s', r n s → r n s' → s = s'

theorem exists_addAll (hrep : NoReplace self t l) (hfun : Functional (Joined t l)) :
    ∃ t', addAll self t l = .ok t' := by
  induction l generalizing t with
  | nil => exact ⟨t, rfl⟩
  | cons e l ih =>
    obtain ⟨n, s⟩ := e
    have hfree : t.lookup n = none ∨ t.lookup n = some s := by
      cases hold : t.lookup n with
      | none => exact .inl rfl
      | some old => exact .inr (congrArg some (hfun n old s (.inl hold) (.inr (.head _))))
    obtain ⟨t₁, hadd⟩ : ∃ t₁, moduleAddGlobalSym self t n s = .ok t₁ :=
      moduleAddGlobalSym_isOk hfree
    have hlook := (moduleAddGlobalSym_eq_ok hadd).1
    have hfun₁ : Functional (Joined t₁ l) := fun m x x' hx hx' =>
      hfun m x x' ((joined_cons hlook hfree m x).mp hx) ((joined_cons hlook hfree m x').mp hx')
    obtain ⟨t', h⟩ := ih (hrep.tail hlook hfree) hfun₁
    refine ⟨t', ?_⟩
    rw [addAll_cons, hadd]
    exact h

/-- A symbol of the module keeps its name, and no other may be added under it. -/
theorem native_stays (h : addAll self t l = .ok t') (hs : t.lookup n = some s)
    (hnative : s.Native self) : t'.lookup n = some s ∧ ∀ x, (n, x) ∈ l → x = s := by
  induction l generalizing t with
  | nil =>
    cases h
    exact ⟨hs, fun _ hx => absurd hx List.not_mem_nil⟩
  | cons e l ih =>
    obtain ⟨m, y⟩ := e
    rw [addAll_cons] at h
    cases hadd : moduleAddGlobalSym self t m y with
    | error e => rw [hadd] at h; cases h
    | ok t₁ =>
      rw [hadd] at h
      obtain ⟨hlook, hcase⟩ := moduleAddGlobalSym_eq_ok hadd
      have hsame : n = m → y = s := by
        rintro rfl
        rcases hcase with hn | hy | ⟨-, old, hold, hforeign⟩
        · rw [hs] at hn
          cases hn
        · rw [hs] at hy
          cases hy
          rfl
        · rw [hs] at hold
          cases hold
          exact absurd hnative hforeign
      have hs₁ : t₁.lookup n = some s := by
        rw [hlook]
        split
        next hm => rw [hsame hm]
        next => exact hs
      obtain ⟨hs', hl⟩ := ih h hs₁
      refine ⟨hs', fun x hx => ?_⟩
      rcases List.mem_cons.mp hx with hx | hx
      · cases hx
        exact hsame rfl
      · exact hl x hx

end

/-! ## Import statements -/

/-- An import statement of a module, with the module that its path leads to and the export table
of that module. -/
structure Import where
  index : Nat
  stmt : StmtImport
  src : OsPath
  exports : SymTable

namespace Import

def IsNamespace (i : Import) : Prop := i.stmt.modNamespace ≠ none

def IsSelective (i : Import) : Prop := i.stmt.modNamespace = none ∧ i.stmt.importSyms ≠ []

def IsGreedy (i : Import) : Prop := i.stmt.modNamespace = none ∧ i.stmt.importSyms = []

/-- The symbol of an import namespace. -/
def namespaceSym (self : OsPath) (i : Import) (ns : Identifier) : Symbol :=
  .module self i.index ns i.stmt i.src

/-- A selective import chooses an exported symbol, under the name or its replacement. -/
def Chooses (i : Import) (n : Identifier) (s : Symbol) : Prop :=
  i.IsSelective ∧ ∃ isym ∈ i.stmt.importSyms,
    isym.rename.getD isym.name = n ∧ i.exports.lookup isym.name = some s

/-- What the import statement is to make visible. -/
def Means (self : OsPath) (i : Import) (n : Identifier) (s : Symbol) : Prop :=
  (i.stmt.modNamespace = some n ∧ s = i.namespaceSym self n) ∨ i.Chooses n s ∨
  (i.IsGreedy ∧ i.exports.lookup n = some s)

/-- What the code adds for an import statement; `none` if a chosen symbol is not exported. -/
def adds (self : OsPath) (i : Import) : Option (List (Identifier × Symbol)) :=
  match i.stmt.modNamespace with
  | some ns => some [(ns, i.namespaceSym self ns)]
  | none =>
    if i.stmt.importSyms ≠ [] then
      i.stmt.importSyms.mapM fun isym =>
        (i.exports.lookup isym.name).map fun s => (isym.rename.getD isym.name, s)
    else some (i.exports.map fun e => (e.2.name, e.2))

end Import

/-- The import statements of a module, one after the other. -/
def bindImports (self : OsPath) (is : List Import) (t : SymTable) : Except Stop SymTable :=
  is.foldlM (fun t i => importStmtSyms self i.index i.stmt i.src i.exports t) t

section

variable {self : OsPath} {t t' : SymTable}

theorem importModSyms_eq_ok {src : OsPath} {exports : SymTable} (isyms : List ImportSymbol) :
    ∀ t, importModSyms self src t exports isyms = .ok t' ↔
      ∃ l, isyms.mapM (fun isym => (exports.lookup isym.name).map fun s =>
        (isym.rename.getD isym.name, s)) = some l ∧ addAll self t l = .ok t' := by
  induction isyms with
  | nil =>
    intro t
    simp only [importModSyms, List.foldlM_nil, List.mapM_nil, addAll]
    exact ⟨fun h => ⟨[], rfl, h⟩, fun ⟨_, hl, h⟩ => by cases hl; exact h⟩
  | cons isym isyms ih =>
    intro t
    rw [importModSyms, List.foldlM_cons, List.mapM_cons]
    cases hlook : exports.lookup isym.name with
    | none =>
      simp only [Option.map_none]
      exact ⟨nofun, fun ⟨_, hl, _⟩ => by cases hl⟩
    | some s =>
      simp only [Option.map_some, Option.bind_eq_bind, Option.bind_some]
      cases hadd : moduleAddGlobalSym self t (isym.rename.getD isym.name) s with
      | error e =>
        refine ⟨nofun, fun ⟨l, hl, h⟩ => ?_⟩
        obtain ⟨l', -, hl'⟩ := Option.bind_eq_some_iff.mp hl
        cases hl'
        rw [addAll_cons, hadd] at h
        cases h
      | ok t₁ =>
        refine (ih t₁).trans ⟨?_, ?_⟩
        · rintro ⟨l, hl, h⟩
          refine ⟨_ :: l, by rw [hl]; rfl, ?_⟩
          rw [addAll_cons, hadd]
          exact h
        · rintro ⟨l, hl, h⟩
          obtain ⟨l', hl'', hl'⟩ := Option.bind_eq_some_iff.mp hl
          cases hl'
          rw [addAll_cons, hadd] at h
          exact ⟨l', hl'', h⟩

theorem importStmtSyms_eq_ok (i : Import) (t : SymTable) :
    importStmtSyms self i.index i.stmt i.src i.exports t = .ok t' ↔
      ∃ l, i.adds self = some l ∧ addAll self t l = .ok t' := by
  cases hns : i.stmt.modNamespace with
  | some ns =>
    have hsingle : addAll self t [(ns, i.namespaceSym self ns)] =
        moduleAddGlobalSym self t ns (.module self i.index ns i.stmt i.src) := by
      rw [addAll_cons]
      exact bind_pure _
    simp only [importStmtSyms, Import.adds, hns, Option.some.injEq, exists_eq_left', hsingle]
  | none =>
    by_cases hsyms : i.stmt.importSyms = []
    · have hmap : addAll self t (i.exports.map fun e => (e.2.name, e.2)) =
          importAllModSyms self t i.exports := List.foldlM_map ..
      simp only [importStmtSyms, Import.adds, hns, hsyms, ne_eq, not_true_eq_false, if_false,
        Option.some.injEq, exists_eq_left', hmap]
    · simp only [importStmtSyms, Import.adds, hns, ne_eq, hsyms, not_false_eq_true, if_true]
      exact importModSyms_eq_ok _ t

/-- What the code adds for all import statements. -/
def allAdds (self : OsPath) (is : List Import) : List (Identifier × Symbol) :=
  is.flatMap fun i => (i.adds self).getD []

theorem addAll_append (l₁ l₂ : List (Identifier × Symbol)) :
    addAll self t (l₁ ++ l₂) = addAll self t l₁ >>= fun t => addAll self t l₂ :=
  List.foldlM_append

theorem bindImports_eq_ok (is : List Import) :
    ∀ t, bindImports self is t = .ok t' ↔
      (∀ i ∈ is, i.adds self ≠ none) ∧ addAll self t (allAdds self is) = .ok t' := by
  induction is with
  | nil => exact fun t => (and_iff_right fun _ h => absurd h List.not_mem_nil).symm
  | cons i is ih =>
    intro t
    rw [bindImports, List.foldlM_cons, List.forall_mem_cons, allAdds, List.flatMap_cons,
      addAll_append]
    cases hi : importStmtSyms self i.index i.stmt i.src i.exports t with
    | error e =>
      refine ⟨nofun, fun ⟨⟨hsome, _⟩, h⟩ => ?_⟩
      obtain ⟨l, hl⟩ := Option.ne_none_iff_exists'.mp hsome
      rw [hl] at h
      cases hadd : addAll self t l with
      | error e => rw [Option.getD_some, hadd] at h; cases h
      | ok t₁ =>
        have := (importStmtSyms_eq_ok i t).mpr ⟨l, hl, hadd⟩
        rw [hi] at this
        cases this
    | ok t₁ =>
      obtain ⟨l, hl, hadd⟩ := (importStmtSyms_eq_ok i t).mp hi
      rw [hl, Option.getD_some, hadd]
      refine (ih t₁).trans ⟨fun h => ⟨⟨nofun, h.1⟩, h.2⟩, fun h => ⟨h.1.2, h.2⟩⟩

/-- What an import statement adds: the declared names of a greedy import. -/
theorem mem_adds {i : Import} {l : List (Identifier × Symbol)} (hl : i.adds self = some l)
    (n : Identifier) (s : Symbol) :
    (n, s) ∈ l ↔ (i.stmt.modNamespace = some n ∧ s = i.namespaceSym self n) ∨ i.Chooses n s ∨
      (i.IsGreedy ∧ n = s.name ∧ ∃ k, (k, s) ∈ i.exports) := by
  rw [Import.adds] at hl
  cases hns : i.stmt.modNamespace with
  | some ns =>
    have hnone : i.stmt.modNamespace ≠ none := by rw [hns]; nofun
    rw [hns] at hl
    cases hl
    rw [List.mem_singleton, Prod.mk.injEq, or_iff_left, Option.some.injEq, eq_comm (a := n)]
    · exact and_congr_right fun h => by rw [h]
    · rintro (h | h)
      · exact hnone h.1.1
      · exact hnone h.1.1
  | none =>
    rw [hns] at hl
    have hno : ¬ ((none : Option Identifier) = some n ∧ s = i.namespaceSym self n) := fun h => nomatch h.1
    rw [or_iff_right hno]
    by_cases hsyms : i.stmt.importSyms = []
    · simp only [hsyms, ne_eq, not_true_eq_false, if_false, Option.some.injEq] at hl
      subst hl
      rw [or_iff_right fun h => h.1.2 hsyms, and_iff_right ⟨hns, hsyms⟩, List.mem_map]
      constructor
      · rintro ⟨⟨k, x⟩, hmem, he⟩
        cases he
        exact ⟨rfl, k, hmem⟩
      · rintro ⟨rfl, k, hmem⟩
        exact ⟨(k, s), hmem, rfl⟩
    · simp only [ne_eq, hsyms, not_false_eq_true, if_true] at hl
      rw [or_iff_left fun h => hsyms h.1.2, Import.Chooses, and_iff_right ⟨hns, hsyms⟩]
      rw [← List.mapM'_eq_mapM] at hl
      clear hns hno hsyms
      generalize i.stmt.importSyms = isyms at hl
      induction isyms generalizing l with
      | nil =>
        cases hl
        exact iff_of_false List.not_mem_nil fun ⟨_, h, _⟩ => List.not_mem_nil h
      | cons isym isyms ih =>
        rw [List.mapM'_cons] at hl
        obtain ⟨e, he, hl⟩ := Option.bind_eq_some_iff.mp hl
        obtain ⟨l', hl', hl⟩ := Option.bind_eq_some_iff.mp hl
        cases hl
        obtain ⟨x, hx, rfl⟩ := Option.map_eq_some_iff.mp he
        rw [List.mem_cons, List.exists_mem_cons_iff, hx, Prod.mk.injEq, Option.some.injEq,
          eq_comm (a := n), eq_comm (a := s)]
        exact or_congr_right (ih hl')

theorem mem_allAdds {is : List Import} (hsome : ∀ i ∈ is, i.adds self ≠ none) (n : Identifier)
    (s : Symbol) :
    (n, s) ∈ allAdds self is ↔ ∃ i ∈ is,
      (i.stmt.modNamespace = some n ∧ s = i.namespaceSym self n) ∨ i.Chooses n s ∨
      (i.IsGreedy ∧ n = s.name ∧ ∃ k, (k, s) ∈ i.exports) := by
  rw [allAdds, List.mem_flatMap]
  refine exists_congr fun i => and_congr_right fun hi => ?_
  obtain ⟨l, hl⟩ := Option.ne_none_iff_exists'.mp (hsome i hi)
  rw [hl, Option.getD_some]
  exact mem_adds hl n s

end

/-! ## The visible names -/

section

variable (self : OsPath) (own : Identifier → Symbol → Prop) (t₀ : SymTable) (is : List Import)

/-- The names that are visible, with what they mean, are the module's own and those that
its import statements are to make visible. -/
def Visible (t : SymTable) : Prop :=
  ∀ n s, t.lookup n = some s ↔ own n s ∨ ∃ i ∈ is, i.Means self n s

/-- The import statements give the same in any order. -/
def OrderFree (t : SymTable) : Prop :=
  ∀ is' : List Import, is'.Perm is →
    ∃ t', bindImports self is' t₀ = .ok t' ∧ ∀ n, t'.lookup n = t.lookup n

/-- No import namespace has the name of a builtin, of a declaration or of a symbol that
another import statement brings in. -/
def NamespacesApart : Prop :=
  ∀ i ∈ is, ∀ ns, i.stmt.modNamespace = some ns → (∀ s, ¬ own ns s) ∧
    ∀ j ∈ is, (∀ s, ¬ j.Chooses ns s) ∧ (j.IsGreedy → ∀ e ∈ j.exports, e.2.name ≠ ns)

/-- A symbol of a greedily imported module is exported under its declared name; or else it is
also chosen under the exported name, and there is an import that makes it visible under the
declared one. -/
def ExportsNamed : Prop :=
  ∀ i ∈ is, i.IsGreedy → ∀ k s, i.exports.lookup k = some s → k ≠ s.name →
    (∃ j ∈ is, j.Chooses k s) ∧ ∃ j ∈ is, j.Means self s.name s

/-- The tables that a module is given: its own has builtins and declarations, and the exported
symbols are declared elsewhere. -/
structure Given (p : OsPath) (t₀ : SymTable) (is : List Import) : Prop where
  own : ∀ n s, t₀.lookup n = some s → s.home = none ∨ ∃ d, s = .decl p d
  foreign : ∀ i ∈ is, ∀ n s, i.exports.lookup n = some s → ¬ s.Native p ∧ s.home ≠ none
  keys : ∀ i ∈ is, i.exports.KeysNodup

end

/-- What a table says. -/
def SymTable.Says (t : SymTable) (n : Identifier) (s : Symbol) : Prop := t.lookup n = some s

section

variable {self : OsPath} {t₀ t : SymTable} {is : List Import}

theorem Given.chosen (hg : Given self t₀ is) {i : Import} (hi : i ∈ is) {n : Identifier} {s : Symbol}
    (h : i.Chooses n s) : ¬ s.Native self ∧ s.home ≠ none := by
  obtain ⟨-, isym, -, -, hlook⟩ := h
  exact hg.foreign i hi _ s hlook

theorem Given.exported (hg : Given self t₀ is) {i : Import} (hi : i ∈ is) {k : Identifier}
    {s : Symbol} (h : (k, s) ∈ i.exports) : ¬ s.Native self ∧ s.home ≠ none :=
  hg.foreign i hi k s ((hg.keys i hi).mem_iff.mp h)

/-- An exported symbol is none of the module's own. -/
theorem Given.not_own (hg : Given self t₀ is) {n : Identifier} {s : Symbol}
    (h : ¬ s.Native self ∧ s.home ≠ none) : t₀.lookup n ≠ some s := by
  intro hs
  rcases hg.own n s hs with h0 | ⟨d, rfl⟩
  · exact h.2 h0
  · exact h.1 rfl

theorem noReplace (hg : Given self t₀ is) (hsome : ∀ i ∈ is, i.adds self ≠ none)
    (hns : NamespacesApart t₀.Says is) : NoReplace self t₀ (allAdds self is) := by
  intro n s hmem hnative old hold
  obtain ⟨i, hi, ⟨hname, -⟩ | h | ⟨-, -, k, hk⟩⟩ := (mem_allAdds hsome n s).mp hmem
  · obtain ⟨hfree, hapart⟩ := hns i hi n hname
    rcases hold with hold | hold
    · exact absurd hold (hfree old)
    · obtain ⟨j, hj, ⟨-, rfl⟩ | h | ⟨hgreedy, rfl, k, hk⟩⟩ := (mem_allAdds hsome n old).mp hold
      · rfl
      · exact absurd h ((hapart j hj).1 old)
      · exact absurd rfl ((hapart j hj).2 hgreedy _ hk)
  · exact absurd hnative (hg.chosen hi h).1
  · exact absurd hnative (hg.exported hi hk).1

/-- Without replacements, any order of the import statements gives the same. -/
theorem orderFree (hg : Given self t₀ is) (h : bindImports self is t₀ = .ok t)
    (hns : NamespacesApart t₀.Says is) : OrderFree self t₀ is t := by
  obtain ⟨hsome, hadd⟩ := (bindImports_eq_ok is t₀).mp h
  have hrep := noReplace hg hsome hns
  have hlook := lookup_addAll hadd hrep
  intro is' hperm
  have hmem n s : (n, s) ∈ allAdds self is' ↔ (n, s) ∈ allAdds self is :=
    (hperm.flatMap_right _).mem_iff
  have hjoin n s : Joined t₀ (allAdds self is') n s ↔ Joined t₀ (allAdds self is) n s :=
    or_congr_right (hmem n s)
  have hrep' : NoReplace self t₀ (allAdds self is') := fun n s hs hnative old hold =>
    hrep n s ((hmem n s).mp hs) hnative old ((hjoin n old).mp hold)
  have hfun : Functional (Joined t₀ (allAdds self is')) := by
    intro n s s' hs hs'
    rw [hjoin, ← hlook] at hs hs'
    rw [hs] at hs'
    cases hs'
    rfl
  obtain ⟨t', hadd'⟩ := exists_addAll hrep' hfun
  refine ⟨t', (bindImports_eq_ok is' t₀).mpr ⟨fun i hi => hsome i (hperm.mem_iff.mp hi), hadd'⟩, ?_⟩
  intro n
  refine Option.ext fun s => ?_
  rw [lookup_addAll hadd' hrep', hjoin, hlook]

theorem visible (hg : Given self t₀ is) (h : bindImports self is t₀ = .ok t)
    (hns : NamespacesApart t₀.Says is) : Visible self t₀.Says is t ↔ ExportsNamed self is := by
  obtain ⟨hsome, hadd⟩ := (bindImports_eq_ok is t₀).mp h
  have hlook := lookup_addAll hadd (noReplace hg hsome hns)
  constructor
  · intro hvis i hi hgreedy k s hk hne
    have hforeign := hg.foreign i hi k s hk
    constructor
    · have hks : Joined t₀ (allAdds self is) k s := by
        rw [← hlook, hvis]
        exact .inr ⟨i, hi, .inr (.inr ⟨hgreedy, hk⟩)⟩
      obtain ⟨j, hj, ⟨-, rfl⟩ | hc | ⟨-, hname, -⟩⟩ :=
        (mem_allAdds hsome k s).mp (hks.resolve_left (hg.not_own hforeign))
      · exact absurd rfl hforeign.1
      · exact ⟨j, hj, hc⟩
      · exact absurd hname hne
    · have hs : t.lookup s.name = some s := by
        rw [hlook]
        exact .inr ((mem_allAdds hsome _ s).mpr
          ⟨i, hi, .inr (.inr ⟨hgreedy, rfl, k, (hg.keys i hi).mem_iff.mpr hk⟩)⟩)
      exact ((hvis _ s).mp hs).resolve_left (hg.not_own hforeign)
  · intro hexp n s
    rw [hlook, Joined, mem_allAdds hsome]
    refine or_congr_right ⟨?_, ?_⟩
    · rintro ⟨i, hi, hn | hc | ⟨hgreedy, rfl, k, hk⟩⟩
      · exact ⟨i, hi, .inl hn⟩
      · exact ⟨i, hi, .inr (.inl hc)⟩
      · have hk' := (hg.keys i hi).mem_iff.mp hk
        by_cases hne : k = s.name
        · exact ⟨i, hi, .inr (.inr ⟨hgreedy, hne ▸ hk'⟩)⟩
        · exact (hexp i hi hgreedy k s hk' hne).2
    · rintro ⟨i, hi, hn | hc | ⟨hgreedy, hk⟩⟩
      · exact ⟨i, hi, .inl hn⟩
      · exact ⟨i, hi, .inr (.inl hc)⟩
      · by_cases hne : n = s.name
        · exact ⟨i, hi, .inr (.inr ⟨hgreedy, hne, n, (hg.keys i hi).mem_iff.mpr hk⟩)⟩
        · obtain ⟨j, hj, hc⟩ := (hexp i hi hgreedy n s hk hne).1
          exact ⟨j, hj, .inr (.inl hc)⟩

/-- With the import namespace first, no other statement may bring in its name. -/
theorem namespacesApart (hg : Given self t₀ is) (h : bindImports self is t₀ = .ok t)
    (hvis : Visible self t₀.Says is t) (hord : OrderFree self t₀ is t) : NamespacesApart t₀.Says is := by
  intro i hi ns hname
  have hmodule : t.lookup ns = some (i.namespaceSym self ns) :=
    (hvis ns _).mpr (.inr ⟨i, hi, .inl ⟨hname, rfl⟩⟩)
  constructor
  · intro old hold
    rw [(hvis ns old).mpr (.inl hold)] at hmodule
    cases hmodule
    rcases hg.own ns _ hold with h0 | ⟨d, h0⟩ <;> cases h0
  · obtain ⟨l₁, l₂, rfl⟩ := List.append_of_mem hi
    have hfirst : (i :: (l₁ ++ l₂)).Perm (l₁ ++ i :: l₂) := List.perm_middle.symm
    obtain ⟨t', h', -⟩ := hord _ hfirst
    obtain ⟨hsome, hadd⟩ := (bindImports_eq_ok _ t₀).mp h'
    have hi' : i.adds self = some [(ns, i.namespaceSym self ns)] := by
      rw [Import.adds, hname]
    rw [allAdds, List.flatMap_cons, hi', Option.getD_some, List.singleton_append, addAll_cons] at hadd
    cases hns : moduleAddGlobalSym self t₀ ns (i.namespaceSym self ns) with
    | error e => rw [hns] at hadd; cases hadd
    | ok t₁ =>
      rw [hns] at hadd
      have hlook : t₁.lookup ns = some (i.namespaceSym self ns) := by
        rw [(moduleAddGlobalSym_eq_ok hns).1, if_pos rfl]
      have hstays := (native_stays hadd hlook rfl).2
      have hsame j (hj : j ∈ l₁ ++ i :: l₂) s
          (hjs : j.Chooses ns s ∨ j.IsGreedy ∧ ns = s.name ∧ ∃ k, (k, s) ∈ j.exports) :
          s = i.namespaceSym self ns := by
        rcases List.mem_cons.mp (hfirst.mem_iff.mpr hj) with rfl | hj'
        · rcases hjs with hjs | hjs
          · rw [hjs.1.1] at hname
            cases hname
          · rw [hjs.1.1] at hname
            cases hname
        · refine hstays s ((mem_allAdds (fun j hj => hsome j (.tail _ hj)) ns s).mpr ⟨j, hj', ?_⟩)
          exact .inr hjs
      intro j hj
      refine ⟨fun s hc => ?_, fun hgreedy e he hen => ?_⟩
      · have := hsame j hj s (.inl hc)
        subst this
        exact (hg.chosen hj hc).1 rfl
      · have := hsame j hj e.2 (.inr ⟨hgreedy, hen.symm, e.1, he⟩)
        exact (hg.exported hj he).1 (this ▸ rfl)

/-- What is visible in an accepted module, and that the order of its import statements does not
matter, are as they should be just when its import namespaces have names of their own and greedy
imports meet declared names. -/
theorem bindImports_right_iff (hg : Given self t₀ is) (h : bindImports self is t₀ = .ok t) :
    (Visible self t₀.Says is t ∧ OrderFree self t₀ is t) ↔
      (NamespacesApart t₀.Says is ∧ ExportsNamed self is) := by
  constructor
  · rintro ⟨hvis, hord⟩
    have hns := namespacesApart hg h hvis hord
    exact ⟨hns, (visible hg h hns).mp hvis⟩
  · rintro ⟨hns, hexp⟩
    exact ⟨(visible hg h hns).mpr hexp, orderFree hg h hns⟩

end

end Nibble.Front
