import Nibble.Ast.Intern
import Mathlib.Data.List.Find

/-!
# Interning is exact

A request finds a type exactly if the search of its cache does, and the record
of the type it finds says which request it was: its kind tells the caches
apart, and its components the requests of one cache. New records and new chain
heads do not hide older ones.
-/

namespace Nibble.Ast

open Nibble.Lib

namespace TypeState

variable {H : HashFns} {s s' : TypeState}

/-- What the search of the cache finds. -/
def lookup (H : HashFns) (s : TypeState) : TypeRequest → Option TypePtr
  | .ptr base => s.cache.ptrs.get base
  | .array base len => (chain s.cache.arrays (H.mix (H.ptr base) len)).find? (s.isArray base len)
  | .slice elem => s.cache.slices.get elem
  | .proc params ret v =>
    (chain s.cache.procs (procKey H params ret v)).find? (s.isProc params ret v)
  | .anon kind fields =>
    (chain (s.anonCache kind) (hashAggregateFields H (toFields fields))).find?
      (s.isAnon (toFields fields))

/-- The request that a type answers. -/
def meaning (s : TypeState) (p : TypePtr) : Option TypeRequest :=
  match s.body p with
  | some (.ptr base) => some (.ptr base)
  | some (.array base len) => some (.array base len)
  | some (.proc params ret v) => some (.proc params ret v)
  | some (.aggregate kind false fields) => some (.anon kind (sigs fields))
  | some (.aggregate _ true [_, data]) =>
    match s.body data.type with
    | some (.ptr elem) => some (.slice elem)
    | _ => none
  | _ => none

/-- Each cache holds types of its kind. -/
structure Inv (s : TypeState) : Prop where
  ptrs : ∀ {b p}, s.cache.ptrs.get b = some p → s.body p = some (.ptr b)
  arrays : ∀ {key p}, p ∈ chain s.cache.arrays key → ∃ b l, s.body p = some (.array b l)
  procs : ∀ {key p}, p ∈ chain s.cache.procs key → ∃ ps r v, s.body p = some (.proc ps r v)
  slices : ∀ {e p}, s.cache.slices.get e = some p → ∃ len data,
    s.body p = some (.aggregate .struct true [len, data]) ∧ s.body data.type = some (.ptr e)
  anon : ∀ {kind key p}, p ∈ chain (s.anonCache kind) key → ∃ fs,
    s.body p = some (.aggregate kind false fs)

/-- Records are kept, except that incomplete types are completed. -/
def Extends (s s' : TypeState) : Prop :=
  ∀ p b, s.body p = some b → b ≠ .incomplete → s'.body p = some b

@[simp] theorem sigs_toFields (fs : List (TypePtr × Option IdentPtr)) : sigs (toFields fs) = fs := by
  simp only [sigs, toFields, List.map_map]
  exact List.map_id'' (fun _ => rfl) fs

/-! ## Lookups are sound -/

theorem isArray_iff {b : TypePtr} {l : BitVec 64} {p : TypePtr} :
    s.isArray b l p = true ↔ s.body p = some (.array b l) := by
  unfold isArray
  split
  case h_1 b' l' h =>
    rw [h]
    simp [and_comm]
  case h_2 h =>
    simp only [Bool.false_eq_true, false_iff]
    exact h b l

theorem isProc_iff {ps : List TypePtr} {r : TypePtr} {v : Bool} {p : TypePtr} :
    s.isProc ps r v p = true ↔ s.body p = some (.proc ps r v) := by
  unfold isProc
  split
  case h_1 ps' r' v' h =>
    rw [h]
    simp only [Bool.and_eq_true, decide_eq_true_eq, Option.some.injEq, TypeBody.proc.injEq]
    constructor
    · rintro ⟨⟨⟨h1, -⟩, h2⟩, h3⟩
      exact ⟨h3, h2, h1⟩
    · rintro ⟨rfl, rfl, rfl⟩
      exact ⟨⟨⟨rfl, rfl⟩, rfl⟩, rfl⟩
  case h_2 h =>
    simp only [Bool.false_eq_true, false_iff]
    exact h ps r v

theorem isAnon_iff {fs : List Field} {p : TypePtr} :
    s.isAnon fs p = true ↔ ∃ k w fs', s.body p = some (.aggregate k w fs') ∧ sigs fs' = sigs fs := by
  unfold isAnon
  split
  case h_1 k w fs' h =>
    rw [h]
    simp only [Bool.and_eq_true, decide_eq_true_eq, Option.some.injEq, TypeBody.aggregate.injEq]
    constructor
    · rintro ⟨-, h2⟩
      exact ⟨k, w, fs', ⟨rfl, rfl, rfl⟩, h2⟩
    · rintro ⟨k', w', fs'', ⟨rfl, rfl, rfl⟩, h2⟩
      exact ⟨by simpa [sigs] using congrArg List.length h2, h2⟩
  case h_2 h =>
    simp only [Bool.false_eq_true, false_iff]
    rintro ⟨k, w, fs', h', -⟩
    exact h k w fs' h'

theorem Inv.sound (hs : s.Inv) {r : TypeRequest} {p : TypePtr} (h : s.lookup H r = some p) :
    s.meaning p = some r := by
  unfold meaning
  cases r with
  | ptr base => rw [hs.ptrs h]
  | array base len => rw [isArray_iff.mp (List.find?_some h)]
  | slice elem =>
    obtain ⟨len, data, h1, h2⟩ := hs.slices h
    rw [h1]
    simp only [h2]
  | proc params ret v => rw [isProc_iff.mp (List.find?_some h)]
  | anon kind fields =>
    obtain ⟨fs, h1⟩ := hs.anon (List.mem_of_find?_eq_some h)
    obtain ⟨k, w, fs', h2, h3⟩ := isAnon_iff.mp (List.find?_some h)
    rw [h1] at h2
    cases h2
    rw [h1]
    simp [h3]

/-! ## Records and chains -/

theorem body_lt {p : TypePtr} {b : TypeBody} (h : s.body p = some b) : p < s.types.length := by
  obtain ⟨t, ht, -⟩ := Option.map_eq_some_iff.mp h
  exact (List.getElem?_eq_some_iff.mp ht).1

theorem extends_of_prefix (h : s.types <+: s'.types) : Extends s s' := by
  intro p b hb _
  obtain ⟨ts, hts⟩ := h
  have hlt := body_lt hb
  rw [body, ← hts, List.getElem?_append_left hlt]
  exact hb

/-- The record of the type just allocated. -/
theorem body_of_append {t : TypeRec} (h : s'.types = s.types ++ [t]) :
    s'.body s.types.length = some t.body := by
  rw [body, h]
  simp

theorem chain_put (m : Chains) (key k : BitVec 64) (c : List TypePtr) :
    chain (m.put key c) k = if key = k then c else chain m k := by
  unfold chain
  rw [HMap.get_put]
  split <;> rfl

theorem mem_chain_put {m : Chains} {key k : BitVec 64} {t p : TypePtr}
    (h : p ∈ chain (m.put key (t :: chain m key)) k) : p = t ∨ p ∈ chain m k := by
  rw [chain_put] at h
  split at h
  · rename_i hk
    subst hk
    exact List.mem_cons.mp h
  · exact .inr h

theorem chain_put_cases (m : Chains) (key k : BitVec 64) (t : TypePtr) :
    chain (m.put key (t :: chain m key)) k = chain m k ∨
      chain (m.put key (t :: chain m key)) k = t :: chain m k := by
  rw [chain_put]
  split
  · rename_i hk
    subst hk
    exact .inr rfl
  · exact .inl rfl

theorem find?_chain_keep {c c' : List TypePtr} {t o : TypePtr} {P P' : TypePtr → Bool}
    (hc : c' = c ∨ c' = t :: c) (ht : c' = t :: c → P' t = false) (hP : ∀ p ∈ c, P' p = P p)
    (h : c.find? P = some o) : c'.find? P' = some o := by
  have hfind : c.find? P' = some o := by rw [List.find?_congr hP, h]
  rcases hc with rfl | rfl
  · exact hfind
  · rw [List.find?_cons_of_neg (by simp [ht rfl]), hfind]

/-- What a request may change: one new type `t`, and entries for it. -/
structure Grows (s s' : TypeState) (t : TypePtr) : Prop where
  exts : Extends s s'
  ptrs : ∀ {b p}, s.cache.ptrs.get b = some p → s'.cache.ptrs.get b = some p
  slices : ∀ {e p}, s.cache.slices.get e = some p → s'.cache.slices.get e = some p
  arrays : ∀ k, chain s'.cache.arrays k = chain s.cache.arrays k ∨
    chain s'.cache.arrays k = t :: chain s.cache.arrays k
  procs : ∀ k, chain s'.cache.procs k = chain s.cache.procs k ∨
    chain s'.cache.procs k = t :: chain s.cache.procs k
  anon : ∀ kind k, chain (s'.anonCache kind) k = chain (s.anonCache kind) k ∨
    chain (s'.anonCache kind) k = t :: chain (s.anonCache kind) k

theorem Extends.body_eq (h : Extends s s') {p : TypePtr} {b : TypeBody} (hb : s.body p = some b)
    (hne : b ≠ .incomplete) : s'.body p = s.body p := by rw [hb, h p b hb hne]

/-- Lookups are kept if the new type answers no request that had an answer. -/
theorem Grows.keeps {t : TypePtr} (h : Grows s s' t) (hs : s.Inv) (hs' : s'.Inv)
    (hnew : ∀ r', s'.meaning t = some r' → s.lookup H r' = none) {r : TypeRequest} {o : TypePtr}
    (hr : s.lookup H r = some o) : s'.lookup H r = some o := by
  have hnot : s'.meaning t ≠ some r := fun hm => by
    rw [hnew r hm] at hr
    cases hr
  cases r with
  | ptr base => exact h.ptrs hr
  | slice elem => exact h.slices hr
  | array base len =>
    refine find?_chain_keep (h.arrays _) (fun _ => ?_) (fun p hp => ?_) hr
    · rw [Bool.eq_false_iff]
      intro hm
      exact hnot (by rw [meaning, isArray_iff.mp hm])
    · obtain ⟨b, l, hb⟩ := hs.arrays hp
      unfold isArray
      rw [h.exts.body_eq hb (by simp)]
  | proc params ret v =>
    refine find?_chain_keep (h.procs _) (fun _ => ?_) (fun p hp => ?_) hr
    · rw [Bool.eq_false_iff]
      intro hm
      exact hnot (by rw [meaning, isProc_iff.mp hm])
    · obtain ⟨ps, r, v, hb⟩ := hs.procs hp
      unfold isProc
      rw [h.exts.body_eq hb (by simp)]
  | anon kind fields =>
    refine find?_chain_keep (h.anon kind _) (fun hc => ?_) (fun p hp => ?_) hr
    · rw [Bool.eq_false_iff]
      intro hm
      obtain ⟨fs, hb⟩ := @Inv.anon s' hs' kind _ t (by rw [hc]; exact List.mem_cons_self)
      obtain ⟨k, w, fs', hb', hsig⟩ := isAnon_iff.mp hm
      rw [hb] at hb'
      cases hb'
      exact hnot (by rw [meaning, hb]; simp [hsig])
    · obtain ⟨fs, hb⟩ := hs.anon hp
      unfold isAnon
      rw [h.exts.body_eq hb (by simp)]

/-- A request answered with `o`. -/
def Answers (H : HashFns) (s s' : TypeState) (r : TypeRequest) (o : TypePtr) : Prop :=
  s'.Inv ∧ s'.lookup H r = some o ∧ ∀ r' o', s.lookup H r' = some o' → s'.lookup H r' = some o'

/-- A request that the cache answers. -/
theorem answers_cached (hs : s.Inv) {r : TypeRequest} {o : TypePtr} (h : s.lookup H r = some o) :
    Answers H s s r o := ⟨hs, h, fun _ _ h => h⟩

theorem Answers.after {s₁ : TypeState} {r : TypeRequest} {o : TypePtr}
    (hkeep : ∀ r' o', s.lookup H r' = some o' → s₁.lookup H r' = some o')
    (h : Answers H s₁ s' r o) : Answers H s s' r o :=
  ⟨h.1, h.2.1, fun r' o' hr => h.2.2 r' o' (hkeep r' o' hr)⟩

/-- A request answered with a new type. -/
theorem Grows.answers {t : TypePtr} {r : TypeRequest} (h : Grows s s' t) (hs : s.Inv)
    (hs' : s'.Inv) (hnone : s.lookup H r = none) (hr : s'.lookup H r = some t) :
    Answers H s s' r t := by
  refine ⟨hs', hr, fun r' o' h' => h.keeps hs hs' (fun r'' hm => ?_) h'⟩
  rw [hs'.sound hr] at hm
  cases hm
  exact hnone

/-- The entries of each cache are old, or have a record of the cache's kind. -/
theorem Inv.grow (hs : s.Inv) (h : Extends s s')
    (ptrs : ∀ {b p}, s'.cache.ptrs.get b = some p →
      s.cache.ptrs.get b = some p ∨ s'.body p = some (.ptr b))
    (arrays : ∀ {k p}, p ∈ chain s'.cache.arrays k →
      p ∈ chain s.cache.arrays k ∨ ∃ b l, s'.body p = some (.array b l))
    (procs : ∀ {k p}, p ∈ chain s'.cache.procs k →
      p ∈ chain s.cache.procs k ∨ ∃ ps r v, s'.body p = some (.proc ps r v))
    (slices : ∀ {e p}, s'.cache.slices.get e = some p →
      s.cache.slices.get e = some p ∨ ∃ len data,
        s'.body p = some (.aggregate .struct true [len, data]) ∧
          s'.body data.type = some (.ptr e))
    (anon : ∀ {kind k p}, p ∈ chain (s'.anonCache kind) k →
      p ∈ chain (s.anonCache kind) k ∨ ∃ fs, s'.body p = some (.aggregate kind false fs)) :
    s'.Inv where
  ptrs hp := (ptrs hp).elim (fun hp => h _ _ (hs.ptrs hp) (by simp)) id
  arrays hp := (arrays hp).elim
    (fun hp => by obtain ⟨b, l, hb⟩ := hs.arrays hp; exact ⟨b, l, h _ _ hb (by simp)⟩) id
  procs hp := (procs hp).elim
    (fun hp => by obtain ⟨ps, r, v, hb⟩ := hs.procs hp; exact ⟨ps, r, v, h _ _ hb (by simp)⟩) id
  slices hp := (slices hp).elim
    (fun hp => by obtain ⟨l, d, h1, h2⟩ := hs.slices hp; exact ⟨l, d, h _ _ h1 (by simp), h _ _ h2 (by simp)⟩) id
  anon hp := (anon hp).elim
    (fun hp => by obtain ⟨fs, hb⟩ := hs.anon hp; exact ⟨fs, h _ _ hb (by simp)⟩) id

/-! ## The requests -/

variable {B : Builtins}

theorem get_put_or {κ V : Type} [DecidableEq κ] {m : HMap κ V} {k j : κ} {v w : V}
    (h : (m.put k v).get j = some w) : m.get j = some w ∨ k = j ∧ v = w := by
  rw [HMap.get_put] at h
  split at h
  · rename_i hk
    cases h
    exact .inr ⟨hk, rfl⟩
  · exact .inl h

theorem get_put_keep {κ V : Type} [DecidableEq κ] {m : HMap κ V} {k j : κ} {v w : V}
    (hnone : m.get k = none) (h : m.get j = some w) : (m.put k v).get j = some w := by
  rw [HMap.get_put, if_neg, h]
  rintro rfl
  rw [hnone] at h
  cases h

theorem extends_of_append {t : TypeRec} (h : s'.types = s.types ++ [t]) : Extends s s' :=
  extends_of_prefix (h ▸ List.prefix_append _ _)

theorem anonCache_eq (h : s'.cache.structs = s.cache.structs) (h' : s'.cache.unions = s.cache.unions)
    (kind : AggregateKind) : s'.anonCache kind = s.anonCache kind := by
  cases kind
  · exact h
  · exact h'

theorem new_ptr (hs : s.Inv) {base : TypePtr} {t : TypeRec} (hnone : s.cache.ptrs.get base = none)
    (hbody : t.body = .ptr base) (htypes : s'.types = s.types ++ [t])
    (hcache : s'.cache = { s.cache with ptrs := s.cache.ptrs.put base s.types.length }) :
    Answers H s s' (.ptr base) s.types.length := by
  have hext := extends_of_append htypes
  have hanon := @anonCache_eq s s' (by rw [hcache]) (by rw [hcache])
  have hrec : s'.body s.types.length = some (.ptr base) := hbody ▸ body_of_append htypes
  have hinv : s'.Inv := by
    refine hs.grow hext (fun hp => ?_) (fun hp => .inl ?_) (fun hp => .inl ?_)
      (fun hp => .inl ?_) (fun {kind} _ _ hp => .inl (hanon kind ▸ hp))
    · rw [hcache] at hp
      rcases get_put_or hp with hp | ⟨rfl, rfl⟩
      · exact .inl hp
      · exact .inr hrec
    all_goals
      rw [hcache] at hp
      exact hp
  refine Grows.answers ⟨hext, fun hp => ?_, fun hp => ?_, fun k => .inl ?_, fun k => .inl ?_,
    fun kind k => .inl (by rw [hanon])⟩ hs hinv hnone ?_
  · rw [hcache]
    exact get_put_keep hnone hp
  · rw [hcache]
    exact hp
  · rw [hcache]
  · rw [hcache]
  · show s'.cache.ptrs.get base = _
    rw [hcache]
    exact HMap.get_put_self _ _ _

theorem typePtr_spec (hs : s.Inv) (base : TypePtr) :
    Answers H s (s.typePtr base).2 (.ptr base) (s.typePtr base).1 ∧
      s.types <+: (s.typePtr base).2.types ∧
      (s.typePtr base).2.cache.slices = s.cache.slices := by
  unfold typePtr
  cases h : s.cache.ptrs.get base with
  | some t => exact ⟨answers_cached hs h, List.prefix_refl _, rfl⟩
  | none => exact ⟨new_ptr hs h rfl rfl rfl, List.prefix_append _ _, rfl⟩

theorem new_array (hs : s.Inv) {base : TypePtr} {len : BitVec 64} {t : TypeRec}
    (hnone : s.lookup H (.array base len) = none) (hbody : t.body = .array base len)
    (htypes : s'.types = s.types ++ [t])
    (hcache : s'.cache = { s.cache with
      arrays := s.cache.arrays.put (H.mix (H.ptr base) len)
        (s.types.length :: chain s.cache.arrays (H.mix (H.ptr base) len)) }) :
    Answers H s s' (.array base len) s.types.length := by
  have hext := extends_of_append htypes
  have hanon := @anonCache_eq s s' (by rw [hcache]) (by rw [hcache])
  have hrec : s'.body s.types.length = some (.array base len) := hbody ▸ body_of_append htypes
  have hinv : s'.Inv := by
    refine hs.grow hext (fun hp => .inl ?_) (fun hp => ?_) (fun hp => .inl ?_)
      (fun hp => .inl ?_) (fun {kind} _ _ hp => .inl (hanon kind ▸ hp))
    case refine_2 =>
      rw [hcache] at hp
      rcases mem_chain_put hp with rfl | hp
      · exact .inr ⟨base, len, hrec⟩
      · exact .inl hp
    all_goals
      rw [hcache] at hp
      exact hp
  refine Grows.answers ⟨hext, fun hp => ?_, fun hp => ?_, fun k => ?_, fun k => .inl ?_,
    fun kind k => .inl (by rw [hanon])⟩ hs hinv hnone ?_
  · rw [hcache]
    exact hp
  · rw [hcache]
    exact hp
  · rw [hcache]
    exact chain_put_cases _ _ k _
  · rw [hcache]
  · show (chain s'.cache.arrays _).find? _ = _
    rw [hcache, chain_put, if_pos rfl, List.find?_cons_of_pos (isArray_iff.mpr hrec)]

theorem typeArray_spec (hs : s.Inv) {base : TypePtr} {len : BitVec 64} {o : TypePtr}
    (h : s.typeArray H base len = some (o, s')) : Answers H s s' (.array base len) o := by
  unfold typeArray at h
  simp only at h
  split at h
  · cases h
  split at h
  · rename_i t ht
    cases h
    exact answers_cached hs ht
  · rename_i hnone
    obtain ⟨baseRec, -, h⟩ := Option.bind_eq_some_iff.mp h
    cases h
    exact new_array hs hnone rfl rfl rfl

theorem new_proc (hs : s.Inv) {params : List TypePtr} {ret : TypePtr} {v : Bool} {t : TypeRec}
    (hnone : s.lookup H (.proc params ret v) = none) (hbody : t.body = .proc params ret v)
    (htypes : s'.types = s.types ++ [t])
    (hcache : s'.cache = { s.cache with
      procs := s.cache.procs.put (procKey H params ret v)
        (s.types.length :: chain s.cache.procs (procKey H params ret v)) }) :
    Answers H s s' (.proc params ret v) s.types.length := by
  have hext := extends_of_append htypes
  have hanon := @anonCache_eq s s' (by rw [hcache]) (by rw [hcache])
  have hrec : s'.body s.types.length = some (.proc params ret v) := hbody ▸ body_of_append htypes
  have hinv : s'.Inv := by
    refine hs.grow hext (fun hp => .inl ?_) (fun hp => .inl ?_) (fun hp => ?_)
      (fun hp => .inl ?_) (fun {kind} _ _ hp => .inl (hanon kind ▸ hp))
    case refine_3 =>
      rw [hcache] at hp
      rcases mem_chain_put hp with rfl | hp
      · exact .inr ⟨params, ret, v, hrec⟩
      · exact .inl hp
    all_goals
      rw [hcache] at hp
      exact hp
  refine Grows.answers ⟨hext, fun hp => ?_, fun hp => ?_, fun k => .inl ?_, fun k => ?_,
    fun kind k => .inl (by rw [hanon])⟩ hs hinv hnone ?_
  · rw [hcache]
    exact hp
  · rw [hcache]
    exact hp
  · rw [hcache]
  · rw [hcache]
    exact chain_put_cases _ _ k _
  · show (chain s'.cache.procs (procKey H params ret v)).find? _ = _
    rw [hcache, chain_put, if_pos rfl, List.find?_cons_of_pos (isProc_iff.mpr hrec)]

theorem typeProc_spec (hs : s.Inv) {params : List TypePtr} {ret : TypePtr} {v : Bool}
    {o : TypePtr} (h : s.typeProc H params ret v = some (o, s')) :
    Answers H s s' (.proc params ret v) o := by
  unfold typeProc at h
  simp only at h
  split at h
  · cases h
  split at h
  · rename_i t ht
    cases h
    exact answers_cached hs ht
  · rename_i hnone
    cases h
    exact new_proc hs hnone rfl rfl rfl

/-- The record just allocated is completed. -/
theorem complete_alloc (t : TypeRec) (w : Bool) (a : Aggregate TypePtr) :
    ((s.alloc t).2.complete (s.alloc t).1 w a).types =
      s.types ++ [⟨.aggregate a.kind w a.fields, a.size, a.align⟩] := by
  simp [alloc, complete]

/-- Completion keeps the types and names of the fields. -/
theorem sigs_completeType (M : TypeSizes TypePtr) (fields : List Field) (kind : AggregateKind) :
    sigs (completeType M fields kind).fields = sigs fields := by
  have hsame : List.Forall₂ TypeAggregateField.SameField fields
      (completeType M fields kind).fields := by
    cases kind
    · exact (placeFields_declares M fields 0 0 0).1
    · exact (overlayFields_declares M fields 0 0 0).1
  generalize (completeType M fields kind).fields = fs at hsame
  induction hsame with
  | nil => rfl
  | cons h _ ih =>
    simp only [sigs, List.map_cons] at ih ⊢
    rw [h.1, h.2, ih]

theorem new_anon (hs : s.Inv) {kind : AggregateKind} {fields : List (TypePtr × Option IdentPtr)}
    {fs : List Field} {t : TypeRec} (hnone : s.lookup H (.anon kind fields) = none)
    (htypes : s'.types = s.types ++ [t]) (hbody : t.body = .aggregate kind false fs)
    (hsigs : sigs fs = fields)
    (hcache : s'.cache = (s.setAnonCache ((s.anonCache kind).put
      (hashAggregateFields H (toFields fields)) (s.types.length ::
        chain (s.anonCache kind) (hashAggregateFields H (toFields fields)))) kind).cache) :
    Answers H s s' (.anon kind fields) s.types.length := by
  have hext := extends_of_append htypes
  have hrec : s'.body s.types.length = some (.aggregate kind false fs) :=
    hbody ▸ body_of_append htypes
  have hother : s'.cache.ptrs = s.cache.ptrs ∧ s'.cache.arrays = s.cache.arrays ∧
      s'.cache.procs = s.cache.procs ∧ s'.cache.slices = s.cache.slices := by
    rw [hcache]
    cases kind <;> exact ⟨rfl, rfl, rfl, rfl⟩
  obtain ⟨hptrs, harrays, hprocs, hslices⟩ := hother
  have hanon : ∀ k, s'.anonCache k = if k = kind then (s.anonCache kind).put
      (hashAggregateFields H (toFields fields)) (s.types.length ::
        chain (s.anonCache kind) (hashAggregateFields H (toFields fields)))
      else s.anonCache k := by
    intro k
    unfold anonCache
    rw [hcache]
    cases k <;> cases kind <;> rfl
  have hinv : s'.Inv := by
    refine hs.grow hext (fun hp => .inl (hptrs ▸ hp)) (fun hp => .inl (harrays ▸ hp))
      (fun hp => .inl (hprocs ▸ hp)) (fun hp => .inl (hslices ▸ hp)) fun {k} _ p hp => ?_
    rw [hanon] at hp
    split at hp
    · rename_i hk
      subst hk
      rcases mem_chain_put hp with rfl | hp
      · exact .inr ⟨fs, hrec⟩
      · exact .inl hp
    · exact .inl hp
  refine Grows.answers ⟨hext, fun hp => hptrs ▸ hp, fun hp => hslices ▸ hp,
    fun k => .inl (by rw [harrays]), fun k => .inl (by rw [hprocs]), fun k key => ?_⟩ hs hinv
    hnone ?_
  · rw [hanon]
    split
    · rename_i hk
      subst hk
      exact chain_put_cases _ _ key _
    · exact .inl rfl
  · show (chain (s'.anonCache kind) _).find? _ = _
    rw [hanon, if_pos rfl, chain_put, if_pos rfl, List.find?_cons_of_pos]
    exact isAnon_iff.mpr ⟨kind, false, fs, hrec, by rw [hsigs, sigs_toFields]⟩

theorem typeAnonAggregate_spec (hs : s.Inv) {kind : AggregateKind}
    {fields : List (TypePtr × Option IdentPtr)} {o : TypePtr}
    (h : s.typeAnonAggregate H kind (toFields fields) = some (o, s')) :
    Answers H s s' (.anon kind fields) o := by
  unfold typeAnonAggregate at h
  simp only at h
  split at h
  · cases h
  split at h
  · rename_i t ht
    cases h
    exact answers_cached hs ht
  · rename_i hnone
    split at h <;> cases h
    have hsigs : sigs (completeType (s.alloc ⟨.incomplete, 0, 0⟩).2.sizes (toFields fields)
        kind).fields = fields := by
      rw [sigs_completeType, sigs_toFields]
    have hkind : (completeType (s.alloc ⟨.incomplete, 0, 0⟩).2.sizes (toFields fields) kind).kind =
        kind := by
      cases kind <;> rfl
    have htypes := @complete_alloc s ⟨.incomplete, 0, 0⟩ false
      (completeType (s.alloc ⟨.incomplete, 0, 0⟩).2.sizes (toFields fields) kind)
    rw [hkind] at htypes
    cases kind
    · exact new_anon hs hnone htypes rfl hsigs rfl
    · exact new_anon hs hnone htypes rfl hsigs rfl

/-- An incomplete type is allocated. -/
theorem alloc_incomplete (hs : s.Inv) :
    (s.alloc ⟨.incomplete, 0, 0⟩).2.Inv ∧
      ∀ r o, s.lookup H r = some o → (s.alloc ⟨.incomplete, 0, 0⟩).2.lookup H r = some o := by
  have hext : Extends s (s.alloc ⟨.incomplete, 0, 0⟩).2 := extends_of_append rfl
  have hanon := @anonCache_eq s (s.alloc ⟨.incomplete, 0, 0⟩).2 rfl rfl
  have hinv : (s.alloc ⟨.incomplete, 0, 0⟩).2.Inv :=
    hs.grow hext .inl .inl .inl .inl fun {kind} _ _ hp => .inl (hanon kind ▸ hp)
  refine ⟨hinv, fun r o h => ?_⟩
  have hgrows : Grows s (s.alloc ⟨.incomplete, 0, 0⟩).2 s.types.length :=
    ⟨hext, id, id, fun _ => .inl rfl, fun _ => .inl rfl, fun kind k => .inl (by rw [hanon])⟩
  refine hgrows.keeps hs hinv (fun r' hm => ?_) h
  have hbody : (s.alloc ⟨.incomplete, 0, 0⟩).2.body s.types.length = some .incomplete :=
    @body_of_append s (s.alloc ⟨.incomplete, 0, 0⟩).2 ⟨.incomplete, 0, 0⟩ rfl
  rw [meaning, hbody] at hm
  cases hm

/-- The completion of a slice, and its entry. -/
theorem new_slice (hs : s.Inv) {elem t : TypePtr} {len data : Field} {r : TypeRec}
    (hnone : s.cache.slices.get elem = none) (ht : s.body t = some .incomplete)
    (htypes : s'.types = s.types.set t r) (hbody : r.body = .aggregate .struct true [len, data])
    (hdata : s.body data.type = some (.ptr elem))
    (hcache : s'.cache = { s.cache with slices := s.cache.slices.put elem t }) :
    Answers H s s' (.slice elem) t := by
  have hself : s'.body t = some (.aggregate .struct true [len, data]) := by
    rw [body, htypes, List.getElem?_set_self (body_lt ht), ← hbody]
    rfl
  have hext : Extends s s' := by
    intro p b hb hne
    by_cases hp : t = p
    · subst hp
      rw [ht] at hb
      cases hb
      exact absurd rfl hne
    · rw [body, htypes, List.getElem?_set_ne hp]
      exact hb
  have hanon := @anonCache_eq s s' (by rw [hcache]) (by rw [hcache])
  have hinv : s'.Inv := by
    refine hs.grow hext (fun hp => .inl ?_) (fun hp => .inl ?_) (fun hp => .inl ?_)
      (fun hp => ?_) (fun {kind} _ _ hp => .inl (hanon kind ▸ hp))
    case refine_4 =>
      rw [hcache] at hp
      rcases get_put_or hp with hp | ⟨rfl, rfl⟩
      · exact .inl hp
      · exact .inr ⟨len, data, hself, hext _ _ hdata (by simp)⟩
    all_goals
      rw [hcache] at hp
      exact hp
  refine Grows.answers ⟨hext, fun hp => ?_, fun hp => ?_, fun k => .inl ?_, fun k => .inl ?_,
    fun kind k => .inl (by rw [hanon])⟩ hs hinv hnone ?_
  · rw [hcache]
    exact hp
  · rw [hcache]
    exact get_put_keep hnone hp
  · rw [hcache]
  · rw [hcache]
  · show s'.cache.slices.get elem = _
    rw [hcache]
    exact HMap.get_put_self _ _ _

theorem typeSlice_spec (hs : s.Inv) {elem o : TypePtr} (h : s.typeSlice B elem = some (o, s')) :
    Answers H s s' (.slice elem) o := by
  unfold typeSlice at h
  split at h
  · rename_i t ht
    cases h
    exact answers_cached hs ht
  · rename_i hnone
    simp only at h
    split at h <;> cases h
    obtain ⟨hinv₁, hkeep₁⟩ := alloc_incomplete (H := H) hs
    obtain ⟨⟨hinv₂, hdata, hkeep₂⟩, hpre, hslices⟩ := typePtr_spec (H := H) hinv₁ elem
    have ht : (s.alloc ⟨.incomplete, 0, 0⟩).2.body s.types.length = some .incomplete :=
      @body_of_append s (s.alloc ⟨.incomplete, 0, 0⟩).2 ⟨.incomplete, 0, 0⟩ rfl
    have ht₂ : ((s.alloc ⟨.incomplete, 0, 0⟩).2.typePtr elem).2.body s.types.length =
        some .incomplete := by
      obtain ⟨ts, hts⟩ := hpre
      rw [body, ← hts, List.getElem?_append_left (body_lt ht)]
      exact ht
    have hnone₂ : ((s.alloc ⟨.incomplete, 0, 0⟩).2.typePtr elem).2.cache.slices.get elem = none := by
      rw [hslices]
      exact hnone
    have hptr : ((s.alloc ⟨.incomplete, 0, 0⟩).2.typePtr elem).2.body
        ((s.alloc ⟨.incomplete, 0, 0⟩).2.typePtr elem).1 = some (.ptr elem) := hinv₂.ptrs hdata
    refine Answers.after (fun r o hr => hkeep₂ r o (hkeep₁ r o hr)) ?_
    exact new_slice hinv₂ hnone₂ ht₂ rfl rfl hptr rfl

end TypeState

/-! ## Sequences of requests -/

open TypeState in
theorem request_spec {H : HashFns} {B : Builtins} {s s' : TypeState} {r : TypeRequest}
    {o : TypePtr} (hs : s.Inv) (h : r.request H B s = some (o, s')) : Answers H s s' r o := by
  cases r with
  | ptr base =>
    have hans := (typePtr_spec (H := H) hs base).1
    rw [Option.some.inj h] at hans
    exact hans
  | array base len => exact typeArray_spec hs h
  | slice elem => exact typeSlice_spec hs h
  | proc params ret v => exact typeProc_spec hs h
  | anon kind fields => exact typeAnonAggregate_spec hs h

/-- Requests that run: the keys of the chains are not zero, and the types that are looked into
exist. -/
def TypeRequest.Valid (H : HashFns) (B : Builtins) (s : TypeState) : TypeRequest → Prop
  | ptr _ => True
  | array base len => H.mix (H.ptr base) len ≠ 0 ∧ base < s.types.length
  | slice _ => B.usize < s.types.length
  | proc params ret isVariadic => TypeState.procKey H params ret isVariadic ≠ 0
  | anon _ fields => fields ≠ [] ∧ TypeState.hashAggregateFields H (toFields fields) ≠ 0 ∧
      ∀ f ∈ fields, f.1 < s.types.length

open TypeState in
theorem request_isSome {H : HashFns} {B : Builtins} {s : TypeState} {r : TypeRequest}
    (h : r.Valid H B s) : (r.request H B s).isSome := by
  cases r with
  | ptr base => rfl
  | array base len =>
    obtain ⟨hkey, hbase⟩ := h
    simp only [TypeRequest.request, typeArray, if_neg hkey]
    split
    · rfl
    · simp [List.getElem?_eq_getElem hbase]
  | slice elem =>
    replace h : B.usize < s.types.length := h
    simp only [TypeRequest.request, typeSlice]
    split
    · rfl
    · simp [alloc, h]
  | proc params ret v =>
    replace h : procKey H params ret v ≠ 0 := h
    simp only [TypeRequest.request, typeProc, if_neg h]
    split <;> rfl
  | anon kind fields =>
    obtain ⟨hne, hkey, hfields⟩ := h
    have hstart : ¬(toFields fields = [] ∨ hashAggregateFields H (toFields fields) = 0) := by
      simp [toFields, hne] at hkey ⊢
      exact hkey
    have hall : ((toFields fields).all fun f => f.type < s.types.length) = true := by
      simpa [toFields] using fun t n hf => hfields (t, n) hf
    simp only [TypeRequest.request, typeAnonAggregate, if_neg hstart, if_pos hall]
    split <;> rfl

/-- Requests for types, for any hash functions. -/
def typeInterner (H : HashFns) (B : Builtins) : Interner TypeState TypeRequest TypePtr where
  request := TypeRequest.request H B
  lookup := TypeState.lookup H
  meaning := TypeState.meaning
  Inv := TypeState.Inv
  sound := fun hs h => hs.sound h
  answer := request_spec

/-- The caches before the first request, with the types that are there already. -/
def TypeState.start (types : List TypeRec) : TypeState :=
  ⟨types, ⟨⟨[]⟩, ⟨[]⟩, ⟨[]⟩, ⟨[]⟩, ⟨[]⟩, ⟨[]⟩⟩⟩

open TypeState in
theorem TypeState.start_inv (types : List TypeRec) : (start types).Inv := by
  have hchain : ∀ key p, p ∉ chain (⟨[]⟩ : Chains) key := fun _ _ => List.not_mem_nil
  have hget : ∀ key p, (⟨[]⟩ : HMap TypePtr TypePtr).get key ≠ some p := fun _ _ h => nomatch h
  refine ⟨fun h => absurd h (hget _ _), fun h => absurd h (hchain _ _),
    fun h => absurd h (hchain _ _), fun h => absurd h (hget _ _), fun {kind} _ _ h => ?_⟩
  cases kind <;> exact absurd h (hchain _ _)

/-- One key for all chains. -/
def oneKey : HashFns := ⟨fun _ => 1, fun _ _ => 1, fun _ _ => 1, fun _ _ => 1⟩

/-- A struct, a union, a procedure with and without variadic arguments, and the struct again. -/
def collidingRequests : List TypeRequest :=
  [.anon .struct [(0, none)], .anon .union [(0, none)], .proc [0] 0 false, .proc [0] 0 true,
    .slice 0, .array 0 2, .array 0 3, .anon .struct [(0, none)]]

end Nibble.Ast
