import Nibble.Ast.InternExact
import Nibble.Front.Include

/-!
# Interned strings and identifiers

`intern_str_lit` and `intern_ident` of `nibble.c`, with `hash_bytes` and
`cstr_ncmp`. The objects of one hash are chained and told apart by their lengths
and by a comparison that ends at a terminator, so strings of one length and one
hash that agree up to a NUL share an object.
-/

namespace Nibble.Front

open Nibble.Lib

/-- `hash_bytes`; a `char` is signed. -/
def hashBytes (buf : List UInt8) (init : BitVec 64) : BitVec 64 :=
  buf.foldl (fun hash b => (hash ^^^ b.toBitVec.signExtend 64) * 0x00000100000001b3) init

/-- Which of the two functions is called. -/
inductive InternKind where
  | strLit | ident
  deriving DecidableEq, Repr

/-- A map of interned strings. An object is the place of its bytes among the allocated ones, and the
chain of a hash has the latest object first. -/
structure InternTable where
  objs : List (List UInt8)
  map : Ast.Chains

namespace InternTable

/-- No object. -/
def empty : InternTable := ⟨[], .empty⟩

/-- The comparison with an object of the chain. -/
def same (t : InternTable) (str : List UInt8) (it : Nat) : Bool :=
  match t.objs[it]? with
  | some s => s.length = str.length && cstrNcmp s str str.length = 0
  | none => false

/-- `intern_str_lit` and `intern_ident`, which differ in the map they are called with. Key zero fails
an assertion of the map. -/
def intern (hash : List UInt8 → BitVec 64) (t : InternTable) (str : List UInt8) :
    Option (Nat × InternTable) :=
  let key := hash str
  let chain := Ast.TypeState.chain t.map key
  if key = 0 then none
  else
    match chain.find? (t.same str) with
    | some it => some (it, t)
    | none =>
      let new := t.objs.length
      some (new, ⟨t.objs ++ [str], t.map.put key (new :: chain)⟩)

end InternTable

/-- The maps of a compilation. -/
structure InternMaps where
  strLitMap : InternTable
  identMap : InternTable

namespace InternMaps

def empty : InternMaps := ⟨.empty, .empty⟩

def table (m : InternMaps) : InternKind → InternTable
  | .strLit => m.strLitMap
  | .ident => m.identMap

def setTable (m : InternMaps) (t : InternTable) : InternKind → InternMaps
  | .strLit => { m with strLitMap := t }
  | .ident => { m with identMap := t }

theorem table_setTable (m : InternMaps) (t : InternTable) (k j : InternKind) :
    (m.setTable t k).table j = if k = j then t else m.table j := by
  cases k <;> cases j <;> rfl

end InternMaps

/-- A call of `intern_str_lit` or of `intern_ident`. -/
structure InternCall where
  kind : InternKind
  str : List UInt8
  deriving DecidableEq, Repr

/-- A call. Objects of the two maps are never the same. -/
def InternCall.exec (hash : List UInt8 → BitVec 64) (c : InternCall) (m : InternMaps) :
    Option ((InternKind × Nat) × InternMaps) := do
  let (it, t) ← (m.table c.kind).intern hash c.str
  return ((c.kind, it), m.setTable t c.kind)

/-! ## What the comparison sees -/

/-- The bytes in front of the first NUL. -/
def cText (str : List UInt8) : List UInt8 := str.takeWhile (· ≠ 0)

/-- `cstr_ncmp` on strings of one length compares them up to the first NUL. -/
theorem cstrNcmpLoop_eq_zero {str₁ str₂ : List UInt8} {num : Nat} (h₁ : str₁.length = num + 1)
    (h₂ : str₂.length = num + 1) :
    cstrNcmpLoop str₁ str₂ num = 0 ↔ cText str₁ = cText str₂ := by
  induction num generalizing str₁ str₂ with
  | zero =>
    obtain ⟨a, rfl⟩ := List.length_eq_one_iff.mp h₁
    obtain ⟨b, rfl⟩ := List.length_eq_one_iff.mp h₂
    have hsub : ((a.toNat : Int) - b.toNat = 0) ↔ a = b := by
      rw [Int.sub_eq_zero, Int.ofNat_inj, UInt8.toNat_inj]
    simp only [cstrNcmpLoop, List.headD_cons, hsub, cText]
    by_cases ha : a = 0 <;> by_cases hb : b = 0 <;> simp [List.takeWhile, ha, hb]
    exact fun h => hb h.symm
  | succ num ih =>
    obtain ⟨a, str₁, rfl⟩ := List.exists_cons_of_length_eq_add_one h₁
    obtain ⟨b, str₂, rfl⟩ := List.exists_cons_of_length_eq_add_one h₂
    simp only [List.length_cons, Nat.add_right_cancel_iff] at h₁ h₂
    rw [cstrNcmpLoop]
    split
    · rename_i hab
      obtain ⟨rfl, ha, -⟩ := hab
      rw [ih h₁ h₂]
      simp [cText, ha]
    · rename_i hab
      have hsub : ((a.toNat : Int) - b.toNat = 0) ↔ a = b := by
        rw [Int.sub_eq_zero, Int.ofNat_inj, UInt8.toNat_inj]
      rw [hsub]
      by_cases ha : a = 0 <;> by_cases hb : b = 0 <;> simp_all [cText, List.takeWhile]
      exact fun h => hb h.symm

theorem cstrNcmp_eq_zero {str₁ str₂ : List UInt8} (h : str₁.length = str₂.length) :
    cstrNcmp str₁ str₂ str₂.length = 0 ↔ cText str₁ = cText str₂ := by
  cases hn : str₂.length with
  | zero =>
    rw [List.length_eq_zero_iff.mp (h.trans hn), List.length_eq_zero_iff.mp hn]
    simp [cstrNcmp]
  | succ num => exact cstrNcmpLoop_eq_zero (h.trans hn) hn

/-- Different strings of one length look the same if they agree up to a NUL. -/
theorem cText_eq_iff {x y : List UInt8} (hlen : x.length = y.length) (hne : x ≠ y) :
    cText x = cText y ↔ ∃ pre u v, x = pre ++ 0 :: u ∧ y = pre ++ 0 :: v := by
  have hsplit : ∀ s : List UInt8, s = cText s ∨ ∃ u, s = cText s ++ 0 :: u := by
    intro s
    induction s with
    | nil => exact .inl rfl
    | cons b s ih =>
      by_cases hb : b = 0
      · exact .inr ⟨s, by simp [cText, hb]⟩
      · have hcons : cText (b :: s) = b :: cText s := by simp [cText, hb]
        rw [hcons]
        rcases ih with h | ⟨u, h⟩
        · exact .inl (congrArg (b :: ·) h)
        · exact .inr ⟨u, congrArg (b :: ·) h⟩
  constructor
  · intro htext
    rcases hsplit x with hx | ⟨u, hx⟩ <;> rcases hsplit y with hy | ⟨v, hy⟩
    · exact absurd (hx.trans (htext.trans hy.symm)) hne
    · have h1 := congrArg List.length hx
      have h2 := congrArg List.length hy
      rw [htext] at h1
      simp only [List.length_append, List.length_cons] at h2
      omega
    · have h1 := congrArg List.length hx
      have h2 := congrArg List.length hy
      rw [htext] at h1
      simp only [List.length_append, List.length_cons] at h1
      omega
    · exact ⟨cText x, u, v, hx, by rw [htext]; exact hy⟩
  · rintro ⟨pre, u, v, rfl, rfl⟩
    clear hlen hne
    have hpre : ∀ w, cText (pre ++ 0 :: w) = cText pre := by
      intro w
      induction pre with
      | nil => simp [cText]
      | cons b pre ih =>
        by_cases hb : b = 0
        · simp [cText, hb]
        · simpa [cText, hb] using ih
    rw [hpre, hpre]

/-! ## Each table is an interner -/

/-- All that a call lets the table see of a string. -/
structure StrKey where
  len : Nat
  hash : BitVec 64
  text : List UInt8
  deriving DecidableEq

def strKey (hash : List UInt8 → BitVec 64) (str : List UInt8) : StrKey :=
  ⟨str.length, hash str, cText str⟩

namespace InternTable

open Ast.TypeState (chain)

variable {hash : List UInt8 → BitVec 64} {t t' : InternTable} {str : List UInt8} {k : StrKey}
  {it : Nat}

/-- An object with the bytes that a key asks for. -/
def fits (t : InternTable) (k : StrKey) (it : Nat) : Bool :=
  (t.objs[it]?).any fun s => s.length = k.len && cText s = k.text

def lookup (t : InternTable) (k : StrKey) : Option Nat := (chain t.map k.hash).find? (t.fits k)

def meaning (hash : List UInt8 → BitVec 64) (t : InternTable) (it : Nat) : Option StrKey :=
  (t.objs[it]?).map (strKey hash)

/-- The objects of a chain have its hash. -/
def Inv (hash : List UInt8 → BitVec 64) (t : InternTable) : Prop :=
  ∀ key, ∀ it ∈ chain t.map key, ∃ s, t.objs[it]? = some s ∧ hash s = key

theorem same_eq_fits (hash : List UInt8 → BitVec 64) (t : InternTable) (str : List UInt8) :
    t.same str = t.fits (strKey hash str) := by
  funext it
  unfold same fits
  cases t.objs[it]? with
  | none => rfl
  | some s =>
    by_cases hlen : s.length = str.length
    · exact congrArg (_ && ·) (decide_eq_decide.mpr (cstrNcmp_eq_zero hlen))
    · simp [strKey, hlen]

theorem Inv.sound (h : t.Inv hash) (hk : t.lookup k = some it) : t.meaning hash it = some k := by
  obtain ⟨s, hs, hkey⟩ := h _ it (List.mem_of_find?_eq_some hk)
  have hfits := List.find?_some hk
  simp only [fits, hs, Option.any_some, Bool.and_eq_true, decide_eq_true_eq] at hfits
  simp only [meaning, hs, Option.map_some, strKey, hkey, hfits.1, hfits.2]

/-- A call fails only at the assertion of the map. -/
theorem intern_isSome : (t.intern hash str).isSome ↔ hash str ≠ 0 := by
  unfold intern
  by_cases hkey : hash str = 0
  · simp [hkey]
  · simp only [if_neg hkey]
    split <;> simpa using hkey

theorem intern_spec (h : t.Inv hash) (hi : t.intern hash str = some (it, t')) :
    t'.Inv hash ∧ t'.lookup (strKey hash str) = some it ∧
      ∀ k it', t.lookup k = some it' → t'.lookup k = some it' := by
  simp only [intern] at hi
  split at hi
  · cases hi
  · split at hi
    · rename_i o hfind
      cases hi
      rw [same_eq_fits hash] at hfind
      exact ⟨h, hfind, fun _ _ hk => hk⟩
    · rename_i hfind
      cases hi
      rw [same_eq_fits hash] at hfind
      have hnew : (t.objs ++ [str])[t.objs.length]? = some str := List.getElem?_concat_length
      have hold : ∀ key, ∀ p ∈ chain t.map key, (t.objs ++ [str])[p]? = t.objs[p]? := by
        intro key p hp
        obtain ⟨s, hs, -⟩ := h key p hp
        exact List.getElem?_append_left (List.getElem?_eq_some_iff.mp hs).1
      refine ⟨?_, ?_, ?_⟩
      · intro key p hp
        rw [Ast.TypeState.chain_put] at hp
        split at hp
        · rename_i hk
          rcases List.mem_cons.mp hp with rfl | hp
          · exact ⟨str, hnew, hk⟩
          · obtain ⟨s, hs, hkey⟩ := h _ p hp
            exact ⟨s, (hold _ p hp).trans hs, hkey.trans hk⟩
        · obtain ⟨s, hs, hkey⟩ := h _ p hp
          exact ⟨s, (hold _ p hp).trans hs, hkey⟩
      · simp only [lookup, strKey, Ast.TypeState.chain_put, if_true]
        exact List.find?_cons_of_pos (by simp [fits])
      · intro k it' hk
        refine Ast.TypeState.find?_chain_keep
          (Ast.TypeState.chain_put_cases t.map (hash str) k.hash t.objs.length) (fun hc => ?_)
          (fun p hp => ?_) hk
        · rw [Bool.eq_false_iff]
          intro hfits
          -- a key that the new object fits is that of the string, which no object had
          have hkey : hash str = k.hash := by
            by_contra hne
            rw [Ast.TypeState.chain_put, if_neg hne] at hc
            exact absurd (congrArg List.length hc) (by simp)
          simp only [fits, hnew, Option.any_some, Bool.and_eq_true, decide_eq_true_eq] at hfits
          have hk' : strKey hash str = k := by
            cases k
            simp only [strKey, StrKey.mk.injEq]
            exact ⟨hfits.1, hkey, hfits.2⟩
          rw [← hk'] at hk
          exact absurd (hfind.symm.trans hk) (by simp)
        · simp only [fits, hold _ p hp]

end InternTable

/-! ## Sequences of calls -/

open InternTable in
theorem exec_spec {hash : List UInt8 → BitVec 64} {m m' : InternMaps} {c : InternCall}
    {o : InternKind × Nat} (h : ∀ kind, (m.table kind).Inv hash)
    (he : c.exec hash m = some (o, m')) :
    (∀ kind, (m'.table kind).Inv hash) ∧
      ((m'.table c.kind).lookup (strKey hash c.str)).map (c.kind, ·) = some o ∧
      ∀ kind k, ∀ it, (m.table kind).lookup k = some it → (m'.table kind).lookup k = some it := by
  obtain ⟨⟨it, t⟩, hi, he⟩ := Option.bind_eq_some_iff.mp he
  cases he
  obtain ⟨hinv, hfound, hkeep⟩ := intern_spec (h c.kind) hi
  refine ⟨fun kind => ?_, ?_, fun kind k o hk => ?_⟩
  · rw [InternMaps.table_setTable]
    split
    · exact hinv
    · exact h kind
  · rw [InternMaps.table_setTable, if_pos rfl, hfound]
    rfl
  · rw [InternMaps.table_setTable]
    split
    · rename_i heq
      subst heq
      exact hkeep k o hk
    · exact hk

/-- Calls of the two functions, for any hash function. -/
def strInterner (hash : List UInt8 → BitVec 64) :
    KeyedInterner InternMaps InternCall (InternKind × StrKey) (InternKind × Nat) where
  request := InternCall.exec hash
  key c := (c.kind, strKey hash c.str)
  lookup m k := ((m.table k.1).lookup k.2).map (k.1, ·)
  meaning m o := ((m.table o.1).meaning hash o.2).map (o.1, ·)
  Inv m := ∀ kind, (m.table kind).Inv hash
  sound := by
    intro m k o h hk
    obtain ⟨it, hit, rfl⟩ := Option.map_eq_some_iff.mp hk
    rw [(h k.1).sound hit]
    rfl
  answer := by
    intro m m' c o h he
    obtain ⟨hinv, hfound, hkeep⟩ := exec_spec h he
    refine ⟨hinv, hfound, fun k o' hk => ?_⟩
    obtain ⟨it, hit, rfl⟩ := Option.map_eq_some_iff.mp hk
    rw [hkeep k.1 k.2 it hit]
    rfl

theorem InternMaps.empty_inv (hash : List UInt8 → BitVec 64) (kind : InternKind) :
    (InternMaps.empty.table kind).Inv hash := by
  intro key it hit
  cases kind <;> exact absurd hit List.not_mem_nil

/-- Calls whose strings the maps keep apart: no hash is the key that stands for an empty slot, and no
two strings of one length and one hash agree up to a NUL. -/
def KeptApart (hash : List UInt8 → BitVec 64) (cs : List InternCall) : Prop :=
  (∀ c ∈ cs, hash c.str ≠ 0) ∧
    ∀ c ∈ cs, ∀ d ∈ cs, c.kind = d.kind → c.str ≠ d.str → c.str.length = d.str.length →
      hash c.str = hash d.str → ¬ ∃ pre u v, c.str = pre ++ 0 :: u ∧ d.str = pre ++ 0 :: v

/-- All calls are answered, and two get the same object exactly if they are for the same bytes. -/
def Interned (hash : List UInt8 → BitVec 64) (cs : List InternCall) : Prop :=
  ∃ os m, (strInterner hash).run cs .empty = some (os, m) ∧ os.length = cs.length ∧
    ∀ (j k : Nat) (cj ck : InternCall) (oj ok : InternKind × Nat), cs[j]? = some cj →
      cs[k]? = some ck → os[j]? = some oj → os[k]? = some ok → (oj = ok ↔ cj = ck)

/-- Calls of one key that are not the same are for strings that agree up to a NUL. -/
theorem strInterner_key {hash : List UInt8 → BitVec 64} {c d : InternCall} (hne : c ≠ d) :
    (strInterner hash).key c = (strInterner hash).key d ↔
      c.kind = d.kind ∧ c.str ≠ d.str ∧ c.str.length = d.str.length ∧ hash c.str = hash d.str ∧
        ∃ pre u v, c.str = pre ++ 0 :: u ∧ d.str = pre ++ 0 :: v := by
  simp only [strInterner, strKey, Prod.mk.injEq, StrKey.mk.injEq]
  constructor
  · rintro ⟨hkind, hlen, hhash, htext⟩
    have hstr : c.str ≠ d.str := fun h => hne (by cases c; cases d; cases h; cases hkind; rfl)
    exact ⟨hkind, hstr, hlen, hhash, (cText_eq_iff hlen hstr).mp htext⟩
  · rintro ⟨hkind, hstr, hlen, hhash, htext⟩
    exact ⟨hkind, hlen, hhash, (cText_eq_iff hlen hstr).mpr htext⟩

/-- Over any sequence of calls and for any hash function, the interned objects stand for the bytes
exactly if the strings are kept apart. -/
theorem interned_iff_keptApart (hash : List UInt8 → BitVec 64) (cs : List InternCall) :
    Interned hash cs ↔ KeptApart hash cs := by
  have hinv := InternMaps.empty_inv hash
  have hruns : ((strInterner hash).run cs .empty).isSome ↔ ∀ c ∈ cs, hash c.str ≠ 0 := by
    refine (strInterner hash).run_isSome (fun c m => ?_) _
    rw [← InternTable.intern_isSome (t := m.table c.kind)]
    simp only [strInterner, InternCall.exec]
    cases (m.table c.kind).intern hash c.str <;> rfl
  constructor
  · rintro ⟨os, m, hrun, hlen, hall⟩
    refine ⟨hruns.mp (by rw [hrun]; rfl), fun c hc d hd hkind hne hl hh hnul => hne ?_⟩
    obtain ⟨j, hj⟩ := List.mem_iff_getElem?.mp hc
    obtain ⟨k, hk⟩ := List.mem_iff_getElem?.mp hd
    have hcd : c ≠ d := fun h => hne (congrArg _ h)
    have hget : ∀ (i : Nat) (c : InternCall), cs[i]? = some c → ∃ o, os[i]? = some o := by
      intro i c hi
      have hlt := (List.getElem?_eq_some_iff.mp hi).1
      exact ⟨os[i], List.getElem?_eq_getElem (by omega)⟩
    obtain ⟨oj, hoj⟩ := hget j c hj
    obtain ⟨ok, hok⟩ := hget k d hk
    have hkey := (strInterner_key hcd).mpr ⟨hkind, hne, hl, hh, hnul⟩
    have hsame := ((strInterner hash).run_exact hinv hrun hj hk hoj hok).mpr hkey
    exact congrArg _ ((hall j k c d oj ok hj hk hoj hok).mp hsame)
  · rintro ⟨hzero, hapart⟩
    obtain ⟨⟨os, m⟩, hrun⟩ := Option.isSome_iff_exists.mp (hruns.mpr hzero)
    refine ⟨os, m, hrun, ((strInterner hash).run_found hinv hrun).2.1, ?_⟩
    intro j k cj ck oj ok hj hk hoj hok
    rw [(strInterner hash).run_exact hinv hrun hj hk hoj hok]
    refine ⟨fun hkey => ?_, fun h => by rw [h]⟩
    by_contra hne
    obtain ⟨hkind, hstr, hl, hh, hnul⟩ := (strInterner_key hne).mp hkey
    exact hapart cj (List.mem_of_getElem? hj) ck (List.mem_of_getElem? hk) hkind hstr hl hh hnul

/-- `"\0WF0v6yia1dj"`. -/
def nulLiteral : List UInt8 := [0, 87, 70, 48, 118, 54, 121, 105, 97, 49, 100, 106]

/-- `"\0G5SX93N1ddq"`. -/
def nulLiteral' : List UInt8 := [0, 71, 53, 83, 88, 57, 51, 78, 49, 100, 100, 113]

/-- Two literals of one length with one FNV hash, which differ behind a leading NUL, are one
object. -/
theorem not_interned_nulLiteral :
    ¬ Interned (hashBytes · Ast.fnvInit) [⟨.strLit, nulLiteral⟩, ⟨.strLit, nulLiteral'⟩] := by
  rintro ⟨os, m, hrun, -, hall⟩
  have hos : ((strInterner (hashBytes · Ast.fnvInit)).run
      [⟨.strLit, nulLiteral⟩, ⟨.strLit, nulLiteral'⟩] .empty).map (·.1) =
        some [(.strLit, 0), (.strLit, 0)] := by decide +kernel
  rw [hrun] at hos
  cases Option.some.inj hos
  have hsame := (hall 0 1 _ _ _ _ rfl rfl rfl rfl).mp rfl
  exact absurd hsame (by decide)

end Nibble.Front
