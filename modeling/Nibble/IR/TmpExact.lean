import Nibble.IR.TmpRun
import Nibble.Lib.Pool
import Nibble.Lib.Triple
import Mathlib.Order.Lattice.Nat

/-!
# Temporaries have storage of their own

When a statement ends, the temporaries of its list have distinct anonymous
objects, each at least as large as the temporary, or stand for another
temporary of the list, a variable or a place in memory. Nested statements use
the same objects, but their evaluations are others.
-/

namespace Nibble.IR

open Nibble.Lib

/-! ### The pool of anonymous objects -/

def AnonObj.extent (obj : AnonObj) : Nat × Nat := (obj.size, obj.align)

def TmpState.pool (st : TmpState) : List (Nat × Nat) := st.tmpObjs.map AnonObj.extent

theorem AnonObj.extent_enlarge (obj : AnonObj) (size align : Nat) :
    (obj.enlarge size align).extent = obj.extent ⊔ (size, align) := by
  have hmax : ∀ a b : Nat, (if a < b then b else a) = a ⊔ b := by
    intro a b
    split <;> omega
  exact Prod.ext (hmax _ _) (hmax _ _)

variable {st st' st'' : TmpState} {list : TmpObjList}

/-- `IR_alloc_tmp_anon_obj` places its request in the pool. -/
theorem allocTmpAnonObj_pool (size align : Nat) (hc : st.currTmpObj ≤ st.tmpObjs.length) :
    (allocTmpAnonObj size align st).1.pool = Pool.place st.pool st.currTmpObj (size, align) ∧
    (allocTmpAnonObj size align st).1.currTmpObj = st.currTmpObj + 1 ∧
    (allocTmpAnonObj size align st).1.memObjs = st.memObjs ∧
    (allocTmpAnonObj size align st).2 = st.currTmpObj := by
  unfold allocTmpAnonObj Pool.place TmpState.pool
  rw [List.getElem?_map]
  cases hobj : st.tmpObjs[st.currTmpObj]? with
  | some obj =>
    refine ⟨?_, rfl, rfl, rfl⟩
    rw [List.map_set, AnonObj.extent_enlarge]
    rfl
  | none =>
    have hlen : st.currTmpObj = st.tmpObjs.length :=
      Nat.le_antisymm hc (List.getElem?_eq_none_iff.mp hobj)
    exact ⟨List.map_append, congrArg (· + 1) hlen.symm, rfl, hlen.symm⟩

/-! ### The end of a statement -/

/-- What `IR_process_deferred_tmp_objs` does: temporaries without storage get successive objects,
all others are left. -/
structure Processed (list : TmpObjList) (st st' : TmpState) : Prop where
  curr_le : st.currTmpObj ≤ st'.currTmpObj
  curr_length : st'.currTmpObj ≤ st'.tmpObjs.length
  grown : Pool.Grown st.pool st'.pool
  length : st'.memObjs.length = st.memObjs.length
  keeps : ∀ o x, st.memObjs[o]? = some x → x ≠ .none ∨ o ∉ list.ids → st'.memObjs[o]? = some x
  placed : ∀ t ∈ list, st.memObjs[t.memObj]? = some .none → ∃ i, st.currTmpObj ≤ i ∧
    st'.memObjs[t.memObj]? = some (.anonObj i) ∧ ∃ y, st'.pool[i]? = some y ∧ (t.size, t.align) ≤ y
  apart : ∀ t ∈ list, ∀ u ∈ list, ∀ i, st.memObjs[t.memObj]? = some .none →
    st.memObjs[u.memObj]? = some .none → st'.memObjs[t.memObj]? = some (.anonObj i) →
    st'.memObjs[u.memObj]? = some (.anonObj i) → t.memObj = u.memObj

theorem Processed.nil (hc : st.currTmpObj ≤ st.tmpObjs.length) : Processed [] st st where
  curr_le := Nat.le_refl _
  curr_length := hc
  grown := .refl _
  length := rfl
  keeps _ _ h _ := h
  placed _ h := by cases h
  apart _ h := by cases h

theorem TmpObjList.mem_ids {t : TmpObj} (h : t ∈ list) : t.memObj ∈ list.ids :=
  List.mem_map_of_mem h

/-- A temporary that stands for something else is passed over. -/
theorem Processed.skip {t : TmpObj} (h : Processed list st st')
    (ht : st.memObjs[t.memObj]? ≠ some .none) : Processed (t :: list) st st' where
  curr_le := h.curr_le
  curr_length := h.curr_length
  grown := h.grown
  length := h.length
  keeps o x hx hor := h.keeps o x hx (hor.imp_right fun hn hm => hn (List.mem_cons_of_mem _ hm))
  placed u hu hnone := by
    rcases List.mem_cons.mp hu with rfl | hu
    · exact absurd hnone ht
    · exact h.placed u hu hnone
  apart u hu v hv i hun hvn := by
    rcases List.mem_cons.mp hu with rfl | hu
    · exact absurd hun ht
    rcases List.mem_cons.mp hv with rfl | hv
    · exact absurd hvn ht
    exact h.apart u hu v hv i hun hvn

/-- A temporary without storage gets the next object. -/
theorem Processed.alloc {t : TmpObj} {st₁ : TmpState} (hc : st.currTmpObj ≤ st.tmpObjs.length)
    (ht : st.memObjs[t.memObj]? = some .none) (hn : t.memObj ∉ list.ids)
    (hst₁ : st₁ = (allocTmpAnonObj t.size t.align st).1)
    (h : Processed list { st₁ with
      memObjs := st₁.memObjs.set t.memObj (.anonObj (allocTmpAnonObj t.size t.align st).2) } st') :
    Processed (t :: list) st st' := by
  obtain ⟨hpool, hcurr, hmem, hi⟩ := allocTmpAnonObj_pool t.size t.align hc
  rw [← hst₁] at hpool hcurr hmem
  rw [hi, hmem] at h
  have hlt : t.memObj < st.memObjs.length := (List.getElem?_eq_some_iff.mp ht).1
  have hown : st'.memObjs[t.memObj]? = some (.anonObj st.currTmpObj) :=
    h.keeps _ _ (List.getElem?_set_self hlt) (.inl (by simp))
  have hother : ∀ o ≠ t.memObj, ∀ x, st.memObjs[o]? = some x →
      (st.memObjs.set t.memObj (.anonObj st.currTmpObj))[o]? = some x := by
    intro o ho x hx
    rw [List.getElem?_set_ne (Ne.symm ho)]
    exact hx
  have hlater : ∀ u ∈ list, st.memObjs[u.memObj]? = some .none → ∀ i,
      st'.memObjs[u.memObj]? = some (.anonObj i) → st.currTmpObj < i := by
    intro u hu hnone i hi
    have hne : u.memObj ≠ t.memObj := fun he => hn (he ▸ TmpObjList.mem_ids hu)
    obtain ⟨i', hle, hi', -⟩ := h.placed u hu (hother _ hne _ hnone)
    cases hi.symm.trans hi'
    have hle : st₁.currTmpObj ≤ i := hle
    omega
  have hgrown : Pool.Grown st.pool st₁.pool := hpool ▸ Pool.grown_place
  refine ⟨?_, h.curr_length, hgrown.trans h.grown, ?_, ?_, ?_, ?_⟩
  · have hle : st₁.currTmpObj ≤ st'.currTmpObj := h.curr_le
    omega
  · rw [h.length, List.length_set]
  · intro o x hx hor
    by_cases ho : o = t.memObj
    · subst ho
      rcases hor with hne | hnot
      · exact absurd (Option.some.inj (hx.symm.trans ht)) hne
      · exact absurd List.mem_cons_self hnot
    · exact h.keeps o x (hother o ho x hx)
        (hor.imp_right fun hnot hm => hnot (List.mem_cons_of_mem _ hm))
  · intro u hu hnone
    rcases List.mem_cons.mp hu with rfl | hu
    · obtain ⟨y, hy, hle⟩ := Pool.place_covers (r := (u.size, u.align))
        (show st.currTmpObj ≤ st.pool.length by rw [TmpState.pool, List.length_map]; exact hc)
      obtain ⟨z, hz, hyz⟩ := h.grown _ y (hpool ▸ hy)
      exact ⟨_, Nat.le_refl _, hown, z, hz, hle.trans hyz⟩
    · have hne : u.memObj ≠ t.memObj := fun he => hn (he ▸ TmpObjList.mem_ids hu)
      obtain ⟨i, hle, hi, hfit⟩ := h.placed u hu (hother _ hne _ hnone)
      have hle : st₁.currTmpObj ≤ i := hle
      exact ⟨i, by omega, hi, hfit⟩
  · intro u hu v hv i hun hvn hui hvi
    rcases List.mem_cons.mp hu with rfl | hul <;> rcases List.mem_cons.mp hv with rfl | hvl
    · rfl
    · cases hui.symm.trans hown
      exact absurd (hlater v hvl hvn _ hvi) (Nat.lt_irrefl _)
    · cases hvi.symm.trans hown
      exact absurd (hlater u hul hun _ hui) (Nat.lt_irrefl _)
    · have hne : ∀ w ∈ list, w.memObj ≠ t.memObj := fun w hw he => hn (he ▸ TmpObjList.mem_ids hw)
      exact h.apart u hul v hvl i (hother _ (hne u hul) _ hun) (hother _ (hne v hvl) _ hvn) hui hvi

theorem processDeferredTmpObjs_processed (hn : list.ids.Nodup)
    (hc : st.currTmpObj ≤ st.tmpObjs.length) :
    Processed list st (processDeferredTmpObjs list st) := by
  induction list generalizing st with
  | nil => exact .nil hc
  | cons t list ih =>
    obtain ⟨hnot, hn⟩ := List.nodup_cons.mp hn
    unfold processDeferredTmpObjs
    split
    · rename_i ht
      obtain ⟨hpool, hcurr, -, -⟩ := allocTmpAnonObj_pool t.size t.align hc
      refine .alloc hc ht hnot rfl (ih hn ?_)
      have hlt := Pool.lt_length_place (r := (t.size, t.align))
        (show st.currTmpObj ≤ st.pool.length by rw [TmpState.pool, List.length_map]; exact hc)
      rw [← hpool, TmpState.pool, List.length_map] at hlt
      exact hcurr ▸ hlt
    · rename_i ht
      exact (ih hn hc).skip ht

/-! ### The list of a statement -/

/-- Objects that stand for something, or are placed, stay so, and no object shrinks. -/
def Persists (st st' : TmpState) : Prop :=
  (∀ (o : MemObjId) (x : MemObj), st.memObjs[o]? = some x → x ≠ .none → st'.memObjs[o]? = some x) ∧
    Pool.Grown st.pool st'.pool

/-- What the temporaries of a list that is still open refer to. -/
structure OpenList (base : Nat) (st : TmpState) (list : TmpObjList) : Prop where
  fresh : ∀ t ∈ list, base ≤ t.memObj ∧ t.memObj < st.memObjs.length
  nodup : list.ids.Nodup
  unplaced : ∀ t ∈ list, ∀ i, st.memObjs[t.memObj]? ≠ some (.anonObj i)
  closed : ∀ t ∈ list, ∀ o, RefersTo st.memObjs t.memObj o →
    o ∈ list.ids ∨ ∃ s, st.memObjs[o]? = some (.sym s)

/-- The temporaries of a list whose statement has ended. -/
structure ClosedList (st : TmpState) (list : TmpObjList) : Prop where
  resolved : ∀ t ∈ list, ∃ x : MemObj, st.memObjs[t.memObj]? = some x ∧ x ≠ .none
  fits : ∀ t ∈ list, ∀ i, st.memObjs[t.memObj]? = some (.anonObj i) →
    ∃ y, st.pool[i]? = some y ∧ (t.size, t.align) ≤ y
  apart : ∀ t ∈ list, ∀ u ∈ list, ∀ i, st.memObjs[t.memObj]? = some (.anonObj i) →
    st.memObjs[u.memObj]? = some (.anonObj i) → t.memObj = u.memObj
  closed : ∀ t ∈ list, ∀ o, RefersTo st.memObjs t.memObj o →
    o ∈ list.ids ∨ ∃ s, st.memObjs[o]? = some (.sym s)

/-- A reference stays what it is. -/
theorem RefersTo.of_eq {mem mem' : List MemObj} {o o' : MemObjId} (h : RefersTo mem o o')
    (he : mem[o]? = mem'[o]?) : RefersTo mem' o o' := by
  unfold RefersTo at h ⊢
  rwa [← he]

theorem ClosedList.persists (h : ClosedList st list) (hs : Persists st st') : ClosedList st' list := by
  have hback : ∀ t ∈ list, st.memObjs[t.memObj]? = st'.memObjs[t.memObj]? := by
    intro t ht
    obtain ⟨x, hx, hne⟩ := h.resolved t ht
    rw [hx, hs.1 _ x hx hne]
  refine ⟨?_, ?_, ?_, ?_⟩
  · intro t ht
    rw [← hback t ht]
    exact h.resolved t ht
  · intro t ht i hi
    obtain ⟨y, hy, hle⟩ := h.fits t ht i ((hback t ht).trans hi)
    obtain ⟨z, hz, hyz⟩ := hs.2 i y hy
    exact ⟨z, hz, hle.trans hyz⟩
  · intro t ht u hu i hti hui
    exact h.apart t ht u hu i ((hback t ht).trans hti) ((hback u hu).trans hui)
  · intro t ht o ho
    refine (h.closed t ht o (ho.of_eq (hback t ht).symm)).imp_right ?_
    rintro ⟨s, hs'⟩
    exact ⟨s, hs.1 o _ hs' (by simp)⟩

/-- At the end of its statement the list is closed. -/
theorem OpenList.close {base : Nat} (h : OpenList base st list) (hp : Processed list st st') :
    ClosedList st' list := by
  have hcase : ∀ t ∈ list, st.memObjs[t.memObj]? = some .none ∨
      ∃ x : MemObj, st.memObjs[t.memObj]? = some x ∧ x ≠ .none ∧ st'.memObjs[t.memObj]? = some x := by
    intro t ht
    obtain ⟨x, hx⟩ : ∃ x, st.memObjs[t.memObj]? = some x :=
      ⟨_, List.getElem?_eq_getElem (h.fresh t ht).2⟩
    by_cases hne : x = .none
    · exact .inl (hne ▸ hx)
    · exact .inr ⟨x, hx, hne, hp.keeps _ _ hx (.inl hne)⟩
  have hnone : ∀ t ∈ list, ∀ i, st'.memObjs[t.memObj]? = some (.anonObj i) →
      st.memObjs[t.memObj]? = some .none := by
    intro t ht i hi
    refine (hcase t ht).resolve_right ?_
    rintro ⟨x, hx, -, hx'⟩
    cases hx'.symm.trans hi
    exact h.unplaced t ht i hx
  refine ⟨?_, ?_, ?_, ?_⟩
  · intro t ht
    rcases hcase t ht with hn | ⟨x, -, hne, hx⟩
    · obtain ⟨i, -, hi, -⟩ := hp.placed t ht hn
      exact ⟨_, hi, by simp⟩
    · exact ⟨x, hx, hne⟩
  · intro t ht i hi
    obtain ⟨i', -, hi', hfit⟩ := hp.placed t ht (hnone t ht i hi)
    cases hi.symm.trans hi'
    exact hfit
  · intro t ht u hu i hti hui
    exact hp.apart t ht u hu i (hnone t ht i hti) (hnone u hu i hui) hti hui
  · intro t ht o ho
    rcases hcase t ht with hn | ⟨x, hx, -, hx'⟩
    · obtain ⟨i, -, hi, -⟩ := hp.placed t ht hn
      rcases ho with ho | ⟨a, ho, -⟩ <;> cases hi.symm.trans ho
    · refine (h.closed t ht o (ho.of_eq (hx'.trans hx.symm))).imp_right ?_
      rintro ⟨s, hs⟩
      exact ⟨s, hp.keeps o _ hs (.inl (by simp))⟩

theorem OpenList.nil (base : Nat) (st : TmpState) : OpenList base st [] :=
  ⟨by simp, List.nodup_nil, by simp, by simp⟩

/-- Memory objects that are added do not matter. -/
theorem OpenList.mono {base : Nat} (h : OpenList base st list)
    (hlen : st.memObjs.length ≤ st'.memObjs.length)
    (hmem : ∀ o < st.memObjs.length, st'.memObjs[o]? = st.memObjs[o]?) :
    OpenList base st' list := by
  refine ⟨fun t ht => ⟨(h.fresh t ht).1, Nat.lt_of_lt_of_le (h.fresh t ht).2 hlen⟩, h.nodup, ?_, ?_⟩
  · intro t ht i
    rw [hmem _ (h.fresh t ht).2]
    exact h.unplaced t ht i
  · intro t ht o ho
    refine (h.closed t ht o (ho.of_eq (hmem _ (h.fresh t ht).2))).imp_right ?_
    rintro ⟨s, hs⟩
    exact ⟨s, (hmem o (List.getElem?_eq_some_iff.mp hs).1).trans hs⟩

/-- A new temporary refers to nothing. -/
theorem OpenList.get {base : Nat} (h : OpenList base st list) (hbase : base ≤ st.memObjs.length)
    (size align : Nat) :
    OpenList base (getTmpObj size align st list).1 (getTmpObj size align st list).2 := by
  have hnew : (st.memObjs ++ [.none])[st.memObjs.length]? = some MemObj.none :=
    List.getElem?_concat_length
  have hmono : OpenList base { st with memObjs := st.memObjs ++ [.none] } list :=
    h.mono (by simp) fun o ho => List.getElem?_append_left ho
  refine ⟨?_, ?_, ?_, ?_⟩
  · intro t ht
    rcases List.mem_append.mp ht with ht | ht
    · exact hmono.fresh t ht
    · cases List.mem_singleton.mp ht
      exact ⟨hbase, by simp [getTmpObj]⟩
  · rw [getTmpObj, TmpObjList.ids, List.map_append]
    refine List.nodup_append.mpr ⟨h.nodup, List.pairwise_singleton _ _, ?_⟩
    rintro o ho _ hn rfl
    obtain ⟨t, ht, rfl⟩ := List.mem_map.mp ho
    exact absurd (h.fresh t ht).2 (Nat.lt_irrefl _ <| List.mem_singleton.mp hn ▸ ·)
  · intro t ht i
    rcases List.mem_append.mp ht with ht | ht
    · exact hmono.unplaced t ht i
    · cases List.mem_singleton.mp ht
      intro hi
      cases hnew.symm.trans hi
  · intro t ht o ho
    rcases List.mem_append.mp ht with ht | ht
    · refine (hmono.closed t ht o ho).imp_left fun hm => ?_
      rw [getTmpObj, TmpObjList.ids, List.map_append]
      exact List.mem_append_left _ hm
    · cases List.mem_singleton.mp ht
      rcases ho with ho | ⟨a, ho, -⟩ <;> cases hnew.symm.trans ho

/-- What the left side of an assignment refers to is in the list, or a variable. -/
theorem TmpDst.memObj_spec {lhs : TmpDst} {obj : MemObj} (h : lhs.memObj st list = some (st', obj)) :
    st'.tmpObjs = st.tmpObjs ∧ st'.currTmpObj = st.currTmpObj ∧
    st.memObjs.length ≤ st'.memObjs.length ∧
    (∀ o < st.memObjs.length, st'.memObjs[o]? = st.memObjs[o]?) ∧ obj ≠ .none ∧
    (∀ i, obj ≠ .anonObj i) ∧
    ∀ o, (obj = .alias o ∨ ∃ a, obj = .addr a ∧ a.base = .obj o) →
      o ∈ list.ids ∨ ∃ s, st'.memObjs[o]? = some (.sym s) := by
  have hlist : ∀ {k : Nat} {t : TmpObj}, list[k]? = some t → t.memObj ∈ list.ids :=
    fun hk => TmpObjList.mem_ids (List.mem_of_getElem? hk)
  unfold TmpDst.memObj at h
  split at h
  · obtain ⟨t, ht, he⟩ := Option.map_eq_some_iff.mp h
    cases he
    refine ⟨rfl, rfl, Nat.le_refl _, fun _ _ => rfl, by simp, by simp, ?_⟩
    rintro o (ho | ⟨a, ho, -⟩) <;> cases ho
    exact .inl (hlist ht)
  · cases h
    refine ⟨rfl, rfl, Nat.le_refl _, fun _ _ => rfl, by simp, by simp, ?_⟩
    rintro o (ho | ⟨a, ho, -⟩) <;> cases ho
  · obtain ⟨t, ht, he⟩ := Option.map_eq_some_iff.mp h
    cases he
    refine ⟨rfl, rfl, Nat.le_refl _, fun _ _ => rfl, by simp, by simp, ?_⟩
    rintro o (ho | ⟨a, ho, hb⟩) <;> cases ho
    cases hb
    exact .inl (hlist ht)
  · cases h
    refine ⟨rfl, rfl, by simp, fun o ho => List.getElem?_append_left ho, by simp, by simp, ?_⟩
    rintro o (ho | ⟨a, ho, hb⟩) <;> cases ho
    cases hb
    exact .inr ⟨_, List.getElem?_concat_length⟩
  · cases h
    refine ⟨rfl, rfl, Nat.le_refl _, fun _ _ => rfl, by simp, by simp, ?_⟩
    rintro o (ho | ⟨a, ho, hb⟩) <;> cases ho
    cases hb

/-- What emission does to a builder state while a list is open: objects that were there before the
statement stay, as do the anonymous objects. -/
structure Extends (base : Nat) (st st' : TmpState) : Prop where
  tmpObjs : st'.tmpObjs = st.tmpObjs
  curr : st'.currTmpObj = st.currTmpObj
  length : st.memObjs.length ≤ st'.memObjs.length
  frame : ∀ o < base, st'.memObjs[o]? = st.memObjs[o]?

theorem OpenList.assign {base : Nat} {lhs : TmpDst} {rhs : Nat} (h : OpenList base st list)
    (hbase : base ≤ st.memObjs.length) (ha : emitAssignTmp lhs rhs st list = some st') :
    OpenList base st' list ∧ Extends base st st' := by
  unfold emitAssignTmp at ha
  split at ha
  · rename_i t ht
    split at ha
    · rename_i hnone
      obtain ⟨⟨st₁, obj⟩, hobj, he⟩ := Option.map_eq_some_iff.mp ha
      obtain ⟨htmp, hcurr, hlen, hmem, -, hplace, hrefers⟩ := TmpDst.memObj_spec hobj
      have hmono : OpenList base st₁ list := h.mono hlen hmem
      have htl : t ∈ list := List.mem_of_getElem? ht
      have hself : (st₁.memObjs.set t.memObj obj)[t.memObj]? = some obj :=
        List.getElem?_set_self (hmono.fresh t htl).2
      have hother : ∀ o ≠ t.memObj, (st₁.memObjs.set t.memObj obj)[o]? = st₁.memObjs[o]? :=
        fun o ho => List.getElem?_set_ne (Ne.symm ho)
      have hsym : ∀ (o : MemObjId) (s : SymId), st₁.memObjs[o]? = some (MemObj.sym s) →
          (st₁.memObjs.set t.memObj obj)[o]? = some (MemObj.sym s) := by
        intro o s hs
        rw [hother o ?_]
        · exact hs
        · rintro rfl
          rw [hmem _ (h.fresh t htl).2, hnone] at hs
          cases hs
      subst he
      refine ⟨⟨?_, h.nodup, ?_, ?_⟩, htmp, hcurr, by simpa using hlen, ?_⟩
      · intro u hu
        simpa using hmono.fresh u hu
      · intro u hu i hi
        by_cases hut : u.memObj = t.memObj
        · rw [hut, hself] at hi
          exact hplace i (Option.some.inj hi)
        · exact hmono.unplaced u hu i ((hother _ hut).symm.trans hi)
      · intro u hu o ho
        by_cases hut : u.memObj = t.memObj
        · unfold RefersTo at ho
          rw [hut, hself] at ho
          simp only [Option.some.injEq] at ho
          exact (hrefers o ho).imp_right fun ⟨s, hs⟩ => ⟨s, hsym o s hs⟩
        · exact (hmono.closed u hu o (ho.of_eq (hother _ hut))).imp_right
            fun ⟨s, hs⟩ => ⟨s, hsym o s hs⟩
      · intro o ho
        have hne : o ≠ t.memObj := by
          have := (h.fresh t htl).1
          omega
        exact (hother o hne).trans (hmem o (Nat.lt_of_lt_of_le ho hbase))
    · cases ha
  · cases ha

theorem Extends.refl (base : Nat) (st : TmpState) : Extends base st st :=
  ⟨rfl, rfl, Nat.le_refl _, fun _ _ => rfl⟩

theorem Extends.trans {base : Nat} (h : Extends base st st') (h' : Extends base st' st'') :
    Extends base st st'' :=
  ⟨h'.tmpObjs.trans h.tmpObjs, h'.curr.trans h.curr, Nat.le_trans h.length h'.length,
    fun o ho => (h'.frame o ho).trans (h.frame o ho)⟩

theorem emitTmpOps_open {base : Nat} {ops : List TmpOp} {list' : TmpObjList}
    (hbase : base ≤ st.memObjs.length) (h : OpenList base st list)
    (he : emitTmpOps ops st list = some (st', list')) :
    OpenList base st' list' ∧ Extends base st st' := by
  induction ops generalizing st list with
  | nil =>
    cases he
    exact ⟨h, .refl base _⟩
  | cons op ops ih =>
    cases op with
    | get size align =>
      have hget : Extends base st (getTmpObj size align st list).1 :=
        ⟨rfl, rfl, by simp [getTmpObj], fun o ho =>
          List.getElem?_append_left (Nat.lt_of_lt_of_le ho hbase)⟩
      obtain ⟨hopen, hext⟩ := ih (Nat.le_trans hbase hget.length) (h.get hbase size align) he
      exact ⟨hopen, hget.trans hext⟩
    | assign lhs rhs =>
      simp only [emitTmpOps] at he
      split at he
      · rename_i st₁ ha
        obtain ⟨h₁, hassign⟩ := h.assign hbase ha
        obtain ⟨hopen, hext⟩ := ih (Nat.le_trans hbase hassign.length) h₁ he
        exact ⟨hopen, hassign.trans hext⟩
      · cases he

/-! ### Statements -/

/-- What the emission of a statement does: its lists are closed, and what was there before is
left. The iterator is back at the first object. -/
structure EmitSpec (st : TmpState) (lists : List TmpObjList) (st' : TmpState) : Prop where
  curr : st'.currTmpObj = 0
  length : st.memObjs.length ≤ st'.memObjs.length
  frame : ∀ o < st.memObjs.length, st'.memObjs[o]? = st.memObjs[o]?
  grown : Pool.Grown st.pool st'.pool
  closed : ∀ l ∈ lists, ClosedList st' l

/-- The same before the end of the statement, whose own list is still open. -/
structure BodySpec (st : TmpState) (lists : List TmpObjList) (list : TmpObjList)
    (st' : TmpState) : Prop where
  curr : st'.currTmpObj = 0
  length : st.memObjs.length ≤ st'.memObjs.length
  frame : ∀ o < st.memObjs.length, st'.memObjs[o]? = st.memObjs[o]?
  grown : Pool.Grown st.pool st'.pool
  closed : ∀ l ∈ lists, l = list ∨ ClosedList st' l
  isOpen : OpenList st.memObjs.length st' list

theorem EmitSpec.persists {lists : List TmpObjList} (h : EmitSpec st lists st') : Persists st st' :=
  ⟨fun o _ hx _ => (h.frame o (List.getElem?_eq_some_iff.mp hx).1).trans hx, h.grown⟩

theorem EmitSpec.nil (hc : st.currTmpObj = 0) : EmitSpec st [] st :=
  ⟨hc, Nat.le_refl _, fun _ _ => rfl, .refl _, by simp⟩

theorem EmitSpec.trans {lists lists' : List TmpObjList} (h : EmitSpec st lists st')
    (h' : EmitSpec st' lists' st'') : EmitSpec st (lists ++ lists') st'' := by
  refine ⟨h'.curr, Nat.le_trans h.length h'.length, fun o ho => ?_, h.grown.trans h'.grown, ?_⟩
  · exact (h'.frame o (Nat.lt_of_lt_of_le ho h.length)).trans (h.frame o ho)
  · intro l hl
    rcases List.mem_append.mp hl with hl | hl
    · exact (h.closed l hl).persists h'.persists
    · exact h'.closed l hl

/-- A statement without temporaries of its own. -/
theorem EmitSpec.body {lists : List TmpObjList} (h : EmitSpec st lists st') :
    BodySpec st lists [] st' :=
  ⟨h.curr, h.length, h.frame, h.grown, fun l hl => .inr (h.closed l hl), .nil _ _⟩

/-- Nothing has happened but the operations of an expression. -/
theorem Extends.body (hc : st.currTmpObj = 0) (h : Extends st.memObjs.length st st')
    (ho : OpenList st.memObjs.length st' list) : BodySpec st [list] list st' :=
  ⟨h.curr.trans hc, h.length, h.frame, by rw [TmpState.pool, TmpState.pool, h.tmpObjs]; exact .refl _,
    fun _ hl => .inl (List.mem_singleton.mp hl), ho⟩

/-- An expression, and then nested statements. -/
theorem BodySpec.trans {lists lists' : List TmpObjList} (h : BodySpec st lists list st')
    (h' : EmitSpec st' lists' st'') : BodySpec st (lists ++ lists') list st'' := by
  refine ⟨h'.curr, Nat.le_trans h.length h'.length, fun o ho => ?_, h.grown.trans h'.grown, ?_,
    h.isOpen.mono h'.length h'.frame⟩
  · exact (h'.frame o (Nat.lt_of_lt_of_le ho h.length)).trans (h.frame o ho)
  · intro l hl
    rcases List.mem_append.mp hl with hl | hl
    · exact (h.closed l hl).imp_right (·.persists h'.persists)
    · exact .inr (h'.closed l hl)

/-- Nested statements, and then an expression. -/
theorem EmitSpec.trans_body {lists lists' : List TmpObjList} (h : EmitSpec st lists st')
    (h' : BodySpec st' lists' list st'') : BodySpec st (lists ++ lists') list st'' := by
  have hset : Persists st' st'' :=
    ⟨fun o _ hx _ => (h'.frame o (List.getElem?_eq_some_iff.mp hx).1).trans hx, h'.grown⟩
  refine ⟨h'.curr, Nat.le_trans h.length h'.length, fun o ho => ?_, h.grown.trans h'.grown, ?_, ?_⟩
  · exact (h'.frame o (Nat.lt_of_lt_of_le ho h.length)).trans (h.frame o ho)
  · intro l hl
    rcases List.mem_append.mp hl with hl | hl
    · exact .inr ((h.closed l hl).persists hset)
    · exact h'.closed l hl
  · exact ⟨fun t ht => ⟨Nat.le_trans h.length (h'.isOpen.fresh t ht).1, (h'.isOpen.fresh t ht).2⟩,
      h'.isOpen.nodup, h'.isOpen.unplaced, h'.isOpen.closed⟩

/-- The end of a statement. -/
theorem BodySpec.close {lists : List TmpObjList} (h : BodySpec st lists list st') :
    EmitSpec st lists (resetProcTmpObjIterator (processDeferredTmpObjs list st')) := by
  have hp := processDeferredTmpObjs_processed h.isOpen.nodup (h.curr ▸ Nat.zero_le _)
  have hset : Persists st' (processDeferredTmpObjs list st') :=
    ⟨fun o x hx hne => hp.keeps o x hx (.inl hne), hp.grown⟩
  have hclosed : ∀ l ∈ lists, ClosedList (processDeferredTmpObjs list st') l := by
    intro l hl
    rcases h.closed l hl with rfl | hl
    · exact h.isOpen.close hp
    · exact hl.persists hset
  refine ⟨rfl, ?_, fun o ho => ?_, h.grown.trans hp.grown, fun l hl => ?_⟩
  · exact Nat.le_trans h.length (Nat.le_of_eq hp.length.symm)
  · have hx := List.getElem?_eq_getElem (Nat.lt_of_lt_of_le ho h.length)
    have hnot : o ∉ list.ids := by
      intro hm
      obtain ⟨t, ht, rfl⟩ := List.mem_map.mp hm
      exact absurd (h.isOpen.fresh t ht).1 (Nat.not_le.mpr ho)
    exact (hp.keeps o _ hx (.inr hnot)).trans (hx.symm.trans (h.frame o ho))
  · exact ⟨(hclosed l hl).resolved, (hclosed l hl).fits, (hclosed l hl).apart, (hclosed l hl).closed⟩

/-- The emission of a statement meets its specification. -/
def EmitsStmt (x : TmpM Emitted) : Prop :=
  ∀ st e st', st.currTmpObj = 0 → x st = some (e, st') → EmitSpec st e.code.lists st'

/-- The same before the end of the statement. -/
def EmitsBody (x : TmpM (Emitted × TmpObjList)) : Prop :=
  ∀ st e list st', st.currTmpObj = 0 → x st = some ((e, list), st') →
    BodySpec st e.code.lists list st'

theorem emits_skip {live : Bool} : EmitsStmt (pure ⟨.skip, live⟩) := by
  intro st e st' hc h
  cases h
  exact .nil hc

theorem emitsBody_of_emits {x : TmpM Emitted} (hx : EmitsStmt x) :
    EmitsBody (do let e ← x; pure (e, [])) := by
  intro st e list st' hc h
  obtain ⟨a, t, ha, hb⟩ := bind_eq_some h
  cases hb
  exact (hx st _ _ hc ha).body

theorem emits_closeStmt {x : TmpM (Emitted × TmpObjList)} (hx : EmitsBody x) :
    EmitsStmt (closeStmt x) := by
  intro st e st' hc h
  obtain ⟨⟨a, list⟩, t, ha, hb⟩ := bind_eq_some h
  cases hb
  exact (hx st _ list t hc ha).close

theorem emitExpr_body {ops : List TmpOp} (hc : st.currTmpObj = 0)
    (h : emitExpr ops st = some (list, st')) : BodySpec st [list] list st' := by
  obtain ⟨⟨t, l⟩, ht, he⟩ := Option.map_eq_some_iff.mp h
  cases he
  obtain ⟨hopen, hext⟩ := emitTmpOps_open (Nat.le_refl _) (.nil _ st) ht
  exact hext.body hc hopen

theorem emitsBody_eval (ops : List TmpOp) : EmitsBody (emitEval ops) := by
  intro st e list st' hc h
  obtain ⟨a, t, ha, hb⟩ := bind_eq_some h
  cases hb
  exact emitExpr_body hc ha

theorem emitsBody_if {cond : TmpCond} {ifBody : TmpM Emitted} {elseBody : Option (TmpM Emitted)}
    (h₁ : EmitsStmt ifBody) (h₂ : ∀ x, elseBody = some x → EmitsStmt x) :
    EmitsBody (emitStmtIf cond ifBody elseBody) := by
  cases cond with
  | const val =>
    cases val with
    | true => exact emitsBody_of_emits h₁
    | false =>
      cases elseBody with
      | none =>
        intro st e list st' _ h
        cases h
      | some x => exact emitsBody_of_emits (h₂ x rfl)
  | expr ops =>
    intro st e list st' hc h
    obtain ⟨l, t, hl, h⟩ := bind_eq_some h
    obtain ⟨e₁, t₁, he₁, h⟩ := bind_eq_some h
    have hbody := emitExpr_body hc hl
    have hif := h₁ t e₁ t₁ hbody.curr he₁
    cases elseBody with
    | none =>
      cases h
      have := hbody.trans (hif.trans (.nil hif.curr))
      exact this
    | some x =>
      obtain ⟨e₂, t₂, he₂, h⟩ := bind_eq_some h
      cases h
      exact hbody.trans (hif.trans (h₂ x rfl t₁ e₂ _ hif.curr he₂))

theorem emitsBody_switch {sel : TmpSelector} {bodies : List (TmpM Emitted)} {all : TmpM TmpCode}
    (h₁ : ∀ x ∈ bodies, EmitsStmt x)
    (h₂ : ∀ st c st', st.currTmpObj = 0 → all st = some (c, st') → EmitSpec st c.lists st') :
    EmitsBody (emitStmtSwitch sel bodies all) := by
  cases sel with
  | const target =>
    cases target with
    | none => exact emitsBody_of_emits emits_skip
    | some i =>
      intro st e list st' hc h
      unfold emitStmtSwitch at h
      cases hx : bodies[i]? with
      | none =>
        simp only [hx] at h
        cases h
      | some x =>
        simp only [hx] at h
        exact emitsBody_of_emits (h₁ x (List.mem_of_getElem? hx)) st e list st' hc h
  | expr ops =>
    intro st e list st' hc h
    obtain ⟨l, t, hl, h⟩ := bind_eq_some h
    obtain ⟨c, t₁, hcases, h⟩ := bind_eq_some h
    cases h
    have hbody := emitExpr_body hc hl
    exact hbody.trans (h₂ t c _ hbody.curr hcases)

theorem emitsBody_infLoop {body next : TmpM Emitted} (h₁ : EmitsStmt body) (h₂ : EmitsStmt next) :
    EmitsBody (emitInfLoop body next) := by
  intro st e list st' hc h
  obtain ⟨e₁, t₁, he₁, h⟩ := bind_eq_some h
  obtain ⟨e₂, t₂, he₂, h⟩ := bind_eq_some h
  cases h
  have hbody := h₁ st e₁ t₁ hc he₁
  exact (hbody.trans (h₂ t₁ e₂ _ hbody.curr he₂)).body

/-- The lists of a specification are a set. -/
theorem BodySpec.of_mem {lists lists' : List TmpObjList} (h : BodySpec st lists list st')
    (hl : ∀ l ∈ lists', l ∈ lists) : BodySpec st lists' list st' :=
  ⟨h.curr, h.length, h.frame, h.grown, fun l hm => h.closed l (hl l hm), h.isOpen⟩

theorem emitsBody_condLoop {cond : Option TmpCond} {body next : TmpM Emitted} (h₁ : EmitsStmt body)
    (h₂ : EmitsStmt next) : EmitsBody (emitCondLoop cond body next) := by
  cases cond with
  | none => exact emitsBody_infLoop h₁ h₂
  | some cond =>
    cases cond with
    | const val =>
      cases val with
      | true => exact emitsBody_infLoop h₁ h₂
      | false => exact emitsBody_of_emits emits_skip
    | expr ops =>
      intro st e list st' hc h
      obtain ⟨e₁, t₁, he₁, h⟩ := bind_eq_some h
      obtain ⟨e₂, t₂, he₂, h⟩ := bind_eq_some h
      obtain ⟨l, t₃, hl, h⟩ := bind_eq_some h
      cases h
      have hbody := h₁ st e₁ t₁ hc he₁
      have hnext := hbody.trans (h₂ t₁ e₂ t₂ hbody.curr he₂)
      refine (hnext.trans_body (emitExpr_body hnext.curr hl)).of_mem fun l hm => ?_
      simpa [TmpCode.lists, or_comm, or_assoc, or_left_comm] using hm

theorem emitsBody_doWhile {cond : TmpCond} {body : TmpM Emitted} (h₁ : EmitsStmt body) :
    EmitsBody (emitStmtDoWhile cond body) := by
  cases cond with
  | const val =>
    cases val with
    | true => exact emitsBody_infLoop h₁ emits_skip
    | false => exact emitsBody_of_emits emits_skip
  | expr ops =>
    intro st e list st' hc h
    obtain ⟨e₁, t₁, he₁, h⟩ := bind_eq_some h
    have hbody := h₁ st e₁ t₁ hc he₁
    split at h
    · obtain ⟨l, t₂, hl, h⟩ := bind_eq_some h
      cases h
      refine (hbody.trans_body (emitExpr_body hbody.curr hl)).of_mem fun l hm => ?_
      simpa [TmpCode.lists, or_comm] using hm
    · cases h
      refine hbody.body.of_mem fun l hm => ?_
      simpa [TmpCode.lists] using hm

mutual

theorem emits_stmt : ∀ s : TmpStmt, EmitsStmt (emitStmt s)
  | .blockStmt stmts => emits_closeStmt (emitsBody_of_emits (emits_blockBody stmts))
  | .returnStmt ops => emits_closeStmt fun st e list st' hc h => by
    obtain ⟨l, t, hl, h⟩ := bind_eq_some h
    cases h
    exact emitExpr_body hc hl
  | .declStmt ops => emits_closeStmt (emitsBody_eval ops)
  | .exprStmt ops => emits_closeStmt (emitsBody_eval ops)
  | .exprAssignStmt ops => emits_closeStmt (emitsBody_eval ops)
  | .ifStmt cond ifBody none => emits_closeStmt (emitsBody_if (emits_stmt ifBody) nofun)
  | .ifStmt cond ifBody (some elseBody) => by
    refine emits_closeStmt (emitsBody_if (emits_stmt ifBody) fun x hx => ?_)
    cases hx
    exact emits_stmt elseBody
  | .switchStmt sel cases =>
    emits_closeStmt (emitsBody_switch (emits_caseEmitters cases) (emits_cases cases))
  | .whileStmt cond body => emits_closeStmt (emitsBody_condLoop (emits_stmt body) emits_skip)
  | .doWhileStmt cond body => emits_closeStmt (emitsBody_doWhile (emits_stmt body))
  | .forStmt init cond body next => emits_closeStmt fun st e list st' hc h => by
    obtain ⟨e₁, t, he₁, h⟩ := bind_eq_some h
    obtain ⟨⟨e₂, l⟩, t₂, he₂, h⟩ := bind_eq_some h
    cases h
    have hinit := emits_optStmt init st e₁ t hc he₁
    exact hinit.trans_body (emitsBody_condLoop (emits_stmt body) (emits_optStmt next) t e₂ _ _
      hinit.curr he₂)
  | .breakStmt => emits_closeStmt fun st e list st' hc h => by
    cases h
    exact (EmitSpec.nil hc).body
  | .continueStmt => emits_closeStmt fun st e list st' hc h => by
    cases h
    exact (EmitSpec.nil hc).body
  | .staticAssertStmt => emits_closeStmt fun st e list st' hc h => by
    cases h
    exact (EmitSpec.nil hc).body

theorem emits_optStmt : ∀ s : Option TmpStmt, EmitsStmt (emitOptStmt s)
  | none => emits_skip
  | some s => emits_stmt s

theorem emits_blockBody : ∀ stmts : List TmpStmt, EmitsStmt (emitStmtBlockBody stmts)
  | [] => emits_skip
  | [s] => emits_stmt s
  | s :: s' :: stmts => fun st e st' hc h => by
    obtain ⟨e₁, t, he₁, h⟩ := bind_eq_some h
    obtain ⟨e₂, t₂, he₂, h⟩ := bind_eq_some h
    cases h
    have hs := emits_stmt s st e₁ t hc he₁
    exact hs.trans (emits_blockBody (s' :: stmts) t e₂ _ hs.curr he₂)

theorem emits_cases : ∀ (cases : List (List TmpStmt)) (st : TmpState) (c : TmpCode)
    (st' : TmpState), st.currTmpObj = 0 → emitCases cases st = some (c, st') →
    EmitSpec st c.lists st'
  | [], _, _, _, hc, h => by
    cases h
    exact .nil hc
  | stmts :: rest, st, c, st', hc, h => by
    obtain ⟨e, t, he, h⟩ := bind_eq_some h
    obtain ⟨c', t', hc', h⟩ := bind_eq_some h
    cases h
    have hs := emits_blockBody stmts st e t hc he
    exact hs.trans (emits_cases rest t c' _ hs.curr hc')

theorem emits_caseEmitters : ∀ (cases : List (List TmpStmt)), ∀ x ∈ caseEmitters cases, EmitsStmt x
  | [], x, hx => by cases hx
  | stmts :: rest, x, hx => by
    rcases List.mem_cons.mp hx with rfl | hx
    · exact emits_blockBody stmts
    · exact emits_caseEmitters rest x hx

end

/-! ### Runs -/

/-- The storage of a temporary of a closed list is that of one of the list. -/
theorem ClosedList.storedIn {o r : MemObjId} {i : Nat} (h : ClosedList st list)
    (hs : StoredIn st.memObjs o r i) (ho : o ∈ list.ids) :
    r ∈ list.ids ∧ st.memObjs[r]? = some (.anonObj i) := by
  induction hs with
  | own hr => exact ⟨ho, hr⟩
  | other href hs ih =>
    obtain ⟨t, ht, rfl⟩ := List.mem_map.mp ho
    rcases h.closed t ht _ href with ho' | ⟨s, hsym⟩
    · exact ih ho'
    · -- A variable is no temporary.
      cases hs with
      | own hr => cases hsym.symm.trans hr
      | other href' => rcases href' with hr | ⟨a, hr, -⟩ <;> cases hsym.symm.trans hr

/-- The accesses are ordered by their evaluations, and each is one of its evaluation. -/
theorem accesses_mem {n : Nat} {es : List Evaluation} {m : Nat} {a : Access}
    (h : (m, a) ∈ accesses n es) : n ≤ m ∧ ∃ e, es[m - n]? = some e ∧ a ∈ e := by
  induction es generalizing n with
  | nil => cases h
  | cons e es ih =>
    rcases List.mem_append.mp h with h | h
    · obtain ⟨a', ha, he⟩ := List.mem_map.mp h
      cases he
      exact ⟨Nat.le_refl _, e, by simp, ha⟩
    · obtain ⟨hle, e', he', ha⟩ := ih h
      obtain ⟨d, rfl⟩ : ∃ d, m = n + 1 + d := ⟨m - (n + 1), by omega⟩
      refine ⟨by omega, e', ?_, ha⟩
      rw [show n + 1 + d - n = d + 1 by omega, List.getElem?_cons_succ, ← he']
      congr 1
      omega

theorem accesses_sorted (n : Nat) (es : List Evaluation) :
    (accesses n es).Pairwise fun p q => p.1 ≤ q.1 := by
  induction es generalizing n with
  | nil => exact .nil
  | cons e es ih =>
    refine List.pairwise_append.mpr ⟨?_, ih (n + 1), ?_⟩
    · exact List.pairwise_map.mpr (List.pairwise_of_forall fun _ _ => Nat.le_refl n)
    · rintro ⟨m, a⟩ hp ⟨m', b⟩ hq
      obtain ⟨a', -, he⟩ := List.mem_map.mp hp
      cases he
      have := (accesses_mem hq).1
      change n ≤ m'
      omega

theorem undisturbed_of_covered {lists : List TmpObjList} {es : List Evaluation}
    (h : ∀ l ∈ lists, ClosedList st l) (hes : Covered lists es) : Undisturbed st.memObjs es := by
  intro i j k n m a b c r r' obj hij hjk ha hb hc hsa hsc _ hsb
  have hsorted := List.pairwise_iff_getElem.mp (accesses_sorted 0 es)
  obtain ⟨hi, hai⟩ := List.getElem?_eq_some_iff.mp ha
  obtain ⟨hj, hbj⟩ := List.getElem?_eq_some_iff.mp hb
  obtain ⟨hk, hck⟩ := List.getElem?_eq_some_iff.mp hc
  have hnm : n ≤ m := by simpa [hai, hbj] using hsorted i j hi hj hij
  have hmn : m ≤ n := by simpa [hbj, hck] using hsorted j k hj hk hjk
  obtain rfl : m = n := Nat.le_antisymm hmn hnm
  obtain ⟨-, e, he, hae⟩ := accesses_mem (List.mem_of_getElem? ha)
  obtain ⟨-, e', he', hbe⟩ := accesses_mem (List.mem_of_getElem? hb)
  cases he.symm.trans he'
  obtain ⟨l, hl, hev⟩ := hes e (List.mem_of_getElem? he)
  obtain ⟨hr, hri⟩ := (h l hl).storedIn hsa (hev a hae)
  obtain ⟨hr', hri'⟩ := (h l hl).storedIn hsb (hev b hbe)
  obtain ⟨t, ht, rfl⟩ := List.mem_map.mp hr
  obtain ⟨u, hu, rfl⟩ := List.mem_map.mp hr'
  exact ⟨rfl, (h l hl).apart u hu t ht obj hri' hri⟩

theorem buildProc_lists {stmts : List TmpStmt} {e : Emitted} (h : buildProc stmts = some (e, st)) :
    ∀ l ∈ e.code.lists, ClosedList st l :=
  (emits_blockBody stmts _ e st rfl h).closed

/-- A loop whose condition has two temporaries, one of them aliased to a variable, and whose body
has a larger one. -/
def reuseStmts : List TmpStmt :=
  [.whileStmt (.expr [.get 8 8, .get 16 8, .assign (.var 0) 1]) (.blockStmt
    [.exprStmt [.get 24 4, .get 8 8], .ifStmt (.const true) (.declStmt [.get 4 16]) none])]

end Nibble.IR
