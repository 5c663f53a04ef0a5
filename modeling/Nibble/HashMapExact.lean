import Nibble.HashMap
import Mathlib.Data.List.Basic

/-!
# Hash maps are finite maps

A well-formed map keeps more than four entries in ten empty, so a probe ends within one round
and the table keeps the invariant of linear probing. A put, with or without growth, updates the
finite map that the table stands for, and a get reads it.
-/

namespace Nibble

open Nibble.Lib

/-- What an entry stands for. -/
def HMapEntry.slot (e : HMapEntry) : Option (BitVec 64 × BitVec 64) :=
  if e.key = 0 then none else some (e.key, e.value)

theorem HMapEntry.slot_eq_none {e : HMapEntry} : e.slot = none ↔ e.key = 0 := by
  unfold slot
  split <;> simp_all

theorem HMapEntry.slot_eq_some {e : HMapEntry} {k v : BitVec 64} :
    e.slot = some (k, v) ↔ e = ⟨k, v⟩ ∧ k ≠ 0 := by
  obtain ⟨key, value⟩ := e
  unfold slot
  split
  next h => simp_all
  next h =>
    simp only [Option.some.injEq, Prod.mk.injEq, mk.injEq]
    refine ⟨fun ⟨hk, hv⟩ => ⟨⟨hk, hv⟩, hk ▸ h⟩, fun h => h.1⟩

/-- The home of a key. -/
def home (k : BitVec 64) : Nat := (hashUint64 k).toNat

namespace HMap

def slotAt (m : HMap) (p : Nat) : Option (BitVec 64 × BitVec 64) :=
  m.entries[p]?.bind HMapEntry.slot

/-- The table maps a key to a value. -/
def Maps (m : HMap) (k v : BitVec 64) : Prop := Holds m.cap m.slotAt k v

/-- The entries in use. -/
def used (es : List HMapEntry) : Nat := es.countP fun e => e.key ≠ 0

/-- A table of `2 ^ c` entries with linear probing, filled to less than 60%. -/
structure WF (m : HMap) (c : Nat) : Prop where
  cap_eq : m.cap = 2 ^ c
  c_le : c ≤ 60
  len_eq : m.len = used m.entries
  load : 10 * m.len < 6 * m.cap
  probing : Probing m.cap home m.slotAt

/-- A put in place: at entry `p`. -/
def write (m : HMap) (p : Nat) (k v : BitVec 64) : HMap :=
  ⟨m.entries.set p ⟨k, v⟩, if m.slotAt p = none then m.len + 1 else m.len⟩

theorem slotAt_of_getElem? {m : HMap} {p : Nat} {e : HMapEntry} (h : m.entries[p]? = some e) :
    m.slotAt p = e.slot := by
  rw [slotAt, h]
  rfl

theorem exists_getElem? {m : HMap} {p : Nat} (h : p < m.cap) : ∃ e, m.entries[p]? = some e :=
  ⟨_, List.getElem?_eq_getElem h⟩

theorem cap_write (m : HMap) (p : Nat) (k v : BitVec 64) : (m.write p k v).cap = m.cap :=
  List.length_set

theorem slotAt_write {m : HMap} {p : Nat} (hp : p < m.cap) {k : BitVec 64} (hk : k ≠ 0)
    (v : BitVec 64) :
    (m.write p k v).slotAt = Function.update m.slotAt p (some (k, v)) := by
  funext q
  rw [Function.update_apply]
  split
  next h =>
    subst h
    have hset : (m.write q k v).entries[q]? = some ⟨k, v⟩ := List.getElem?_set_self hp
    rw [slotAt_of_getElem? hset]
    exact HMapEntry.slot_eq_some.mpr ⟨rfl, hk⟩
  next h => rw [slotAt, write, List.getElem?_set_ne (Ne.symm h)]; rfl

/-- The table has an empty entry. -/
def HasHole (m : HMap) : Prop := ∃ e ∈ m.entries, e.key = 0

theorem HasHole.slot {m : HMap} (h : m.HasHole) : ∃ p < m.cap, m.slotAt p = none := by
  obtain ⟨e, he, hkey⟩ := h
  obtain ⟨p, hp, hpe⟩ := List.getElem_of_mem he
  refine ⟨p, hp, ?_⟩
  rw [slotAt_of_getElem? (List.getElem?_eq_some_iff.mpr ⟨hp, hpe⟩)]
  exact HMapEntry.slot_eq_none.mpr hkey

namespace WF

variable {m : HMap} {c : Nat}

theorem hasHole (h : m.WF c) : m.HasHole := by
  by_contra hno
  have hall : used m.entries = m.cap := by
    refine List.countP_eq_length.mpr fun e he => decide_eq_true fun hk => hno ⟨e, he, hk⟩
  have := h.load
  rw [h.len_eq, hall] at this
  omega

theorem cap_pos (h : m.WF c) : 0 < m.cap := by
  rw [h.cap_eq]
  exact Nat.two_pow_pos c

theorem toNat_and_mask (h : m.WF c) (x : BitVec 64) : (x &&& m.mask).toNat = x.toNat % m.cap := by
  have hle : 2 ^ c ≤ 2 ^ 60 := Nat.pow_le_pow_right (by decide) h.c_le
  have hlt : m.cap - 1 < 2 ^ 64 := by
    rw [h.cap_eq]
    omega
  rw [BitVec.toNat_and, mask, BitVec.toNat_ofNat, Nat.mod_eq_of_lt hlt, h.cap_eq,
    Nat.and_two_pow_sub_one_eq_mod]

/-- The next index, after a mask: the next slot of the probe. -/
theorem toNat_next (h : m.WF c) {x : BitVec 64} {s t : Nat}
    (hx : x.toNat % m.cap = probeAt m.cap s t) :
    (x + 1).toNat % m.cap = probeAt m.cap s (t + 1) := by
  have hdvd : m.cap ∣ 2 ^ 64 := by
    rw [h.cap_eq]
    exact Nat.pow_dvd_pow 2 (Nat.le_trans h.c_le (by decide))
  rw [BitVec.toNat_add, show (1 : BitVec 64).toNat = 1 from rfl, Nat.mod_mod_of_dvd _ hdvd,
    ← Nat.mod_add_mod, hx, probeAt, probeAt, Nat.mod_add_mod, Nat.add_assoc]

theorem exists_stop (h : m.WF c) (k : BitVec 64) : ∃ j, FirstStop m.cap home m.slotAt k j :=
  exists_firstStop k h.hasHole.slot

end WF

end HMap

open HMap

variable {m : HMap} {c : Nat} {k v : BitVec 64} {j : Nat}

/-! ## One put -/

theorem stops_iff_of_getElem? {p : Nat} {e : HMapEntry} (h : m.entries[p]? = some e)
    (hk : k ≠ 0) : Stops m.slotAt k p ↔ e.key = 0 ∨ e.key = k := by
  rw [Stops, slotAt_of_getElem? h, HMapEntry.slot_eq_none]
  simp only [HMapEntry.slot_eq_some]
  constructor
  · rintro (h0 | ⟨w, he, -⟩)
    · exact .inl h0
    · exact .inr (congrArg HMapEntry.key he)
  · rintro (h0 | he)
    · exact .inl h0
    · exact .inr ⟨e.value, by rw [← he], hk⟩

/-- The loop of a put runs to the first stop and writes there. -/
theorem putLoop_eq (hwf : m.WF c) (hk : k ≠ 0) (h : FirstStop m.cap home m.slotAt k j) :
    ∀ (d fuel : Nat) (i : BitVec 64) (t : Nat), t + d = j → d < fuel →
      i.toNat % m.cap = probeAt m.cap (home k) t →
      putLoop k v fuel i m = some (m.write (probeAt m.cap (home k) j) k v) := by
  intro d
  induction d with
  | zero =>
    intro fuel i t ht hd hi
    obtain ⟨fuel, rfl⟩ : ∃ n, fuel = n + 1 := ⟨fuel - 1, by omega⟩
    obtain rfl : t = j := by omega
    obtain ⟨e, he⟩ := exists_getElem? h.slot_lt
    have hstop := (stops_iff_of_getElem? he hk).mp h.stops
    simp only [putLoop, hwf.toNat_and_mask, hi, he, write, slotAt_of_getElem? he,
      HMapEntry.slot_eq_none]
    split
    next => rfl
    next h0 => rw [if_pos (hstop.resolve_left h0)]
  | succ d ih =>
    intro fuel i t ht hd hi
    obtain ⟨fuel, rfl⟩ : ∃ n, fuel = n + 1 := ⟨fuel - 1, by omega⟩
    obtain ⟨e, he⟩ := exists_getElem? (probeAt_lt hwf.cap_pos (home k) t)
    have hpass := h.passes t (by omega)
    rw [stops_iff_of_getElem? he hk, not_or] at hpass
    have hnext : (i &&& m.mask).toNat % m.cap = probeAt m.cap (home k) t := by
      rw [hwf.toNat_and_mask, Nat.mod_mod, hi]
    simp only [putLoop, hwf.toNat_and_mask, hi, he, if_neg hpass.1, if_neg hpass.2]
    exact ih fuel _ (t + 1) (by omega) (by omega) (hwf.toNat_next hnext)

theorem putLoop_firstStop (hwf : m.WF c) (hk : k ≠ 0) (h : FirstStop m.cap home m.slotAt k j)
    {fuel : Nat} (hf : m.cap ≤ fuel) :
    putLoop k v fuel (hashUint64 k) m = some (m.write (probeAt m.cap (home k) j) k v) := by
  refine putLoop_eq hwf hk h j fuel _ 0 (Nat.zero_add j) (Nat.lt_of_lt_of_le h.lt hf) ?_
  rw [probeAt_zero]
  rfl

theorem used_set {es : List HMapEntry} {p : Nat} {e : HMapEntry} (hp : es[p]? = some e)
    (hk : k ≠ 0) : used (es.set p ⟨k, v⟩) = if e.key = 0 then used es + 1 else used es := by
  obtain ⟨hlt, he⟩ := List.getElem?_eq_some_iff.mp hp
  have hset := List.countP_set (p := fun e : HMapEntry => decide (e.key ≠ 0)) (a := ⟨k, v⟩) hlt
  rw [he, if_pos (decide_eq_true hk)] at hset
  rw [used, hset, used]
  by_cases h0 : e.key = 0
  · rw [if_pos h0, if_neg (by simpa using h0), Nat.sub_zero]
  · have hpos : 0 < es.countP fun e => decide (e.key ≠ 0) :=
      List.countP_pos_iff.mpr ⟨e, List.mem_of_getElem? hp, decide_eq_true h0⟩
    rw [if_neg h0, if_pos (decide_eq_true h0)]
    omega

/-- Writing at the first stop keeps the table well formed, if there is room for another entry. -/
theorem HMap.WF.write (hwf : m.WF c) (hk : k ≠ 0) (h : FirstStop m.cap home m.slotAt k j)
    (hroom : 10 * (m.len + 1) < 6 * m.cap) :
    (m.write (probeAt m.cap (home k) j) k v).WF c where
  cap_eq := (cap_write ..).trans hwf.cap_eq
  c_le := hwf.c_le
  len_eq := by
    obtain ⟨e, he⟩ := exists_getElem? h.slot_lt
    have hw := used_set (v := v) he hk
    simp only [HMap.write, slotAt_of_getElem? he, HMapEntry.slot_eq_none, hw, hwf.len_eq]
  load := by
    rw [cap_write, HMap.write]
    have := hwf.load
    dsimp only
    split <;> omega
  probing := by
    rw [cap_write, slotAt_write h.slot_lt hk]
    exact h.probing_update hwf.probing v

theorem maps_write (hwf : m.WF c) (hk : k ≠ 0) (h : FirstStop m.cap home m.slotAt k j)
    {k' w : BitVec 64} :
    (m.write (probeAt m.cap (home k) j) k v).Maps k' w ↔ if k' = k then w = v else m.Maps k' w := by
  rw [Maps, cap_write, slotAt_write h.slot_lt hk]
  exact h.holds_update hwf.probing v

theorem len_write_le (m : HMap) (p : Nat) (k v : BitVec 64) : (m.write p k v).len ≤ m.len + 1 := by
  rw [HMap.write]
  dsimp only
  split <;> omega

/-- A put into a table with room. -/
theorem exists_hmapPut_room (alloc : Nat → Bool) (hwf : m.WF c) (hk : k ≠ 0) (v : BitVec 64)
    (hroom : 10 * (m.len + 1) < 6 * m.cap) (fuel : Nat) (hf : m.cap < fuel) :
    ∃ m', hmapPut alloc fuel m k v = some (m', true) ∧ m'.WF c ∧ m'.len ≤ m.len + 1 ∧
      ∀ k' w, m'.Maps k' w ↔ if k' = k then w = v else m.Maps k' w := by
  obtain ⟨fuel, rfl⟩ : ∃ n, fuel = n + 1 := ⟨fuel - 1, by omega⟩
  obtain ⟨j, hj⟩ := hwf.exists_stop k
  refine ⟨m.write (probeAt m.cap (home k) j) k v, ?_, WF.write hwf hk hj hroom, len_write_le ..,
    fun k' w => maps_write hwf hk hj⟩
  simp only [hmapPut, if_neg hk, if_neg (Nat.not_le.mpr hroom), Option.bind_eq_bind,
    Option.bind_some, if_true, putLoop_firstStop hwf hk hj (Nat.le_of_lt_succ hf)]

/-! ## Growth -/

theorem getElem?_zeroed {cap p : Nat} (hp : p < cap) :
    (HMap.zeroed cap).entries[p]? = some ⟨0, 0⟩ := by
  rw [HMap.zeroed, List.getElem?_replicate, if_pos hp]

theorem slotAt_zeroed (cap p : Nat) : (HMap.zeroed cap).slotAt p = none := by
  rw [slotAt, HMap.zeroed, List.getElem?_replicate]
  split <;> rfl

theorem not_maps_zeroed (cap : Nat) : ¬ (HMap.zeroed cap).Maps k v := by
  rintro ⟨p, -, h⟩
  rw [slotAt_zeroed] at h
  cases h

theorem HMap.WF.zeroed (hc : c ≤ 60) : (HMap.zeroed (2 ^ c)).WF c where
  cap_eq := List.length_replicate
  c_le := hc
  len_eq := by
    refine (List.countP_eq_zero.mpr fun e he => ?_).symm
    rw [List.eq_of_mem_replicate he]
    decide
  load := by
    have hpos := Nat.two_pow_pos c
    have hcap : (HMap.zeroed (2 ^ c)).cap = 2 ^ c := List.length_replicate
    have hlen : (HMap.zeroed (2 ^ c)).len = 0 := rfl
    omega
  probing := by
    rw [funext (slotAt_zeroed (2 ^ c))]
    exact Probing.empty

theorem maps_iff_mem : m.Maps k v ↔ (⟨k, v⟩ : HMapEntry) ∈ m.entries ∧ k ≠ 0 := by
  constructor
  · rintro ⟨p, -, h⟩
    obtain ⟨e, he, hs⟩ := Option.bind_eq_some_iff.mp h
    obtain ⟨rfl, hk⟩ := HMapEntry.slot_eq_some.mp hs
    exact ⟨List.mem_of_getElem? he, hk⟩
  · rintro ⟨hmem, hk⟩
    obtain ⟨p, hp, hpe⟩ := List.getElem_of_mem hmem
    refine ⟨p, hp, ?_⟩
    rw [slotAt_of_getElem? (List.getElem?_eq_some_iff.mpr ⟨hp, hpe⟩)]
    exact HMapEntry.slot_eq_some.mpr ⟨rfl, hk⟩

/-- A key has one value. -/
theorem HMap.WF.value_eq (hwf : m.WF c) {w : BitVec 64} (hv : m.Maps k v) (hw : m.Maps k w) :
    v = w := by
  obtain ⟨p, hp, hpv⟩ := hv
  obtain ⟨q, hq, hqw⟩ := hw
  have h := hwf.probing.unique p hp q hq k v w hpv hqw
  rw [h, hqw] at hpv
  cases hpv
  rfl

/-- Putting entries of a table into one that has room for all of them. -/
theorem exists_rehash (alloc : Nat → Bool) (hwf : m.WF c) (fuel : Nat) :
    ∀ (post pre : List HMapEntry) (acc : HMap), m.entries = pre ++ post → acc.WF (c + 1) →
      acc.len ≤ used pre →
      (∀ k v, acc.Maps k v ↔ (⟨k, v⟩ : HMapEntry) ∈ pre ∧ k ≠ 0) → acc.cap < fuel →
      ∃ acc', post.foldlM (fun m e =>
          if e.key = 0 then some m else (hmapPut alloc fuel m e.key e.value).map Prod.fst) acc =
            some acc' ∧ acc'.WF (c + 1) ∧ acc'.len ≤ m.len ∧ ∀ k v, acc'.Maps k v ↔ m.Maps k v := by
  intro post
  induction post with
  | nil =>
    intro pre acc hpre hacc hlen hmaps _
    rw [List.append_nil] at hpre
    refine ⟨acc, rfl, hacc, ?_, fun k v => ?_⟩
    · rw [hwf.len_eq, hpre]
      exact hlen
    · rw [hmaps, maps_iff_mem, hpre]
  | cons e post ih =>
    intro pre acc hpre hacc hlen hmaps hfuel
    have hpre' : m.entries = (pre ++ [e]) ++ post := by rw [hpre, List.append_assoc]; rfl
    have hused : used (pre ++ [e]) = used pre + if e.key = 0 then 0 else 1 := by
      by_cases h : e.key = 0 <;> simp [used, h]
    simp only [List.foldlM_cons]
    by_cases hkey : e.key = 0
    · rw [if_pos hkey] at hused ⊢
      refine ih (pre ++ [e]) acc hpre' hacc (by omega) (fun k v => ?_) hfuel
      rw [hmaps, List.mem_append, List.mem_singleton]
      refine ⟨fun h => ⟨.inl h.1, h.2⟩, fun ⟨h, hk⟩ => ⟨h.resolve_right fun he => hk ?_, hk⟩⟩
      rw [← he] at hkey
      exact hkey
    · rw [if_neg hkey] at hused ⊢
      have hroom : 10 * (acc.len + 1) < 6 * acc.cap := by
        have h₁ : used (pre ++ [e]) ≤ used m.entries := by
          rw [hpre']
          exact (List.sublist_append_left _ _).countP_le
        have h₂ := hwf.load
        have h₃ := hwf.cap_eq
        have h₄ := hacc.cap_eq
        rw [Nat.pow_succ] at h₄
        rw [hwf.len_eq] at h₂
        omega
      obtain ⟨acc', hput, hwf', hlen', hmaps'⟩ :=
        exists_hmapPut_room alloc hacc hkey e.value hroom fuel hfuel
      have hcap : acc'.cap = acc.cap := by rw [hwf'.cap_eq, hacc.cap_eq]
      have hnext : ∀ k v, acc'.Maps k v ↔ (⟨k, v⟩ : HMapEntry) ∈ pre ++ [e] ∧ k ≠ 0 := by
        intro k v
        rw [hmaps', List.mem_append, List.mem_singleton]
        split
        next he =>
          subst he
          refine ⟨fun hv => ⟨.inr (by rw [hv]), hkey⟩, fun ⟨h, _⟩ => ?_⟩
          rcases h with h | h
          · -- An earlier entry of the table with this key has its value.
            have hold : (⟨e.key, v⟩ : HMapEntry) ∈ m.entries := hpre ▸ List.mem_append_left _ h
            have hnew : e ∈ m.entries := hpre ▸ List.mem_append_right _ (List.mem_cons_self ..)
            exact hwf.value_eq (maps_iff_mem.mpr ⟨hold, hkey⟩) (maps_iff_mem.mpr ⟨hnew, hkey⟩)
          · exact congrArg HMapEntry.value h
        next hne =>
          rw [hmaps]
          refine and_congr_left fun _ => ⟨Or.inl, fun h => h.resolve_right fun he => hne ?_⟩
          exact congrArg HMapEntry.key he
      obtain ⟨acc'', hfold, h⟩ := ih (pre ++ [e]) acc' hpre' hwf' (by omega) hnext (by omega)
      refine ⟨acc'', ?_, h⟩
      rw [hput]
      exact hfold

/-- Growth keeps every entry, or reports that there is no memory. -/
theorem exists_hmapExpand {alloc : Nat → Bool} (halloc : ∀ cap, alloc cap = true → cap ≤ 2 ^ 60)
    (hwf : m.WF c) (fuel : Nat) (hf : m.cap * 2 + 1 < fuel) :
    (alloc (m.cap * 2) = true ∧ ∃ m', hmapExpand alloc fuel m (m.cap * 2) = some (m', true) ∧
      m'.WF (c + 1) ∧ m'.len ≤ m.len ∧ ∀ k v, m'.Maps k v ↔ m.Maps k v) ∨
    (alloc (m.cap * 2) = false ∧ hmapExpand alloc fuel m (m.cap * 2) = some (m, false)) := by
  obtain ⟨fuel, rfl⟩ : ∃ n, fuel = n + 1 := ⟨fuel - 1, by omega⟩
  have hpos := hwf.cap_pos
  have hle : ¬ m.cap * 2 ≤ m.cap := by omega
  have hcap : m.cap * 2 = 2 ^ (c + 1) := by rw [hwf.cap_eq, Nat.pow_succ]
  cases ha : alloc (m.cap * 2) with
  | false => exact .inr ⟨rfl, by simp only [hmapExpand, if_neg hle, ha, Bool.false_eq_true, if_false]⟩
  | true =>
    have hc : c + 1 ≤ 60 := by
      have := halloc _ ha
      rw [hcap] at this
      exact (Nat.pow_le_pow_iff_right (by decide)).mp this
    have hzero := WF.zeroed (c := c + 1) hc
    obtain ⟨acc, hfold, h⟩ := exists_rehash alloc hwf fuel m.entries [] _ rfl hzero
      (Nat.le_refl 0) (fun k v => by simp [not_maps_zeroed]) (by rw [hzero.cap_eq]; omega)
    refine .inl ⟨rfl, acc, ?_, h⟩
    rw [← hcap] at hfold
    simp only [hmapExpand, if_neg hle, ha, if_true, hfold, Option.bind_eq_bind, Option.bind_some]

/-! ## Puts and gets -/

/-- A put updates the map, or reports that there is no memory and leaves it. -/
theorem exists_hmapPut {alloc : Nat → Bool} (halloc : ∀ cap, alloc cap = true → cap ≤ 2 ^ 60)
    (hwf : m.WF c) (hk : k ≠ 0) (v : BitVec 64) {fuel : Nat} (hf : 2 ^ 62 < fuel) :
    ∃ m' ok c', hmapPut alloc fuel m k v = some (m', ok) ∧ m'.WF c' ∧
      if ok then ∀ k' w, m'.Maps k' w ↔ if k' = k then w = v else m.Maps k' w
      else m' = m ∧ ∃ cap, alloc cap = false := by
  have hcap : m.cap ≤ 2 ^ 60 := by
    rw [hwf.cap_eq]
    exact Nat.pow_le_pow_right (by decide) hwf.c_le
  by_cases hroom : 10 * (m.len + 1) < 6 * m.cap
  · obtain ⟨m', hput, hwf', -, hmaps⟩ := exists_hmapPut_room alloc hwf hk v hroom fuel
      (by omega)
    exact ⟨m', true, c, hput, hwf', hmaps⟩
  · obtain ⟨fuel, rfl⟩ : ∃ n, fuel = n + 1 := ⟨fuel - 1, by omega⟩
    have hload : 6 * m.cap ≤ 10 * (m.len + 1) := Nat.not_lt.mp hroom
    rcases exists_hmapExpand halloc hwf fuel (by omega) with
      ⟨-, m₁, hexp, hwf₁, hlen, hmaps⟩ | ⟨hno, hexp⟩
    · have hcap₁ : m₁.cap = m.cap * 2 := by rw [hwf₁.cap_eq, hwf.cap_eq, Nat.pow_succ]
      have hroom₁ : 10 * (m₁.len + 1) < 6 * m₁.cap := by
        have hfull := hwf.load
        have hpos := hwf.cap_pos
        -- A table of one entry is empty, a larger one has four free in ten.
        rcases Nat.lt_or_ge 1 m.cap with h | h <;> omega
      obtain ⟨j, hj⟩ := hwf₁.exists_stop k
      refine ⟨m₁.write (probeAt m₁.cap (home k) j) k v, true, c + 1, ?_,
        WF.write hwf₁ hk hj hroom₁, fun k' w => ?_⟩
      · simp only [hmapPut, if_neg hk, if_pos hload, hexp, Option.bind_eq_bind, Option.bind_some,
          if_true, putLoop_firstStop hwf₁ hk hj (show m₁.cap ≤ fuel by omega)]
      · rw [maps_write hwf₁ hk hj, hmaps]
    · refine ⟨m, false, c, ?_, hwf, rfl, _, hno⟩
      simp only [hmapPut, if_neg hk, if_pos hload, hexp, Option.bind_eq_bind, Option.bind_some,
        Bool.false_eq_true, if_false]

/-- The value that a probe which has stopped stands for. -/
theorem stopped_value (hwf : m.WF c) (h : FirstStop m.cap home m.slotAt k j) {e : HMapEntry}
    (he : m.entries[probeAt m.cap (home k) j]? = some e) (hk : k ≠ 0) (w : BitVec 64) :
    m.Maps k w ↔ e.key = k ∧ w = e.value := by
  have hs := slotAt_of_getElem? he
  by_cases hkey : e.key = k
  · subst hkey
    have hsome : e.slot = some (e.key, e.value) := HMapEntry.slot_eq_some.mpr ⟨rfl, hk⟩
    rw [Maps, h.holds_iff hwf.probing (hs.trans hsome)]
    simp only [true_and]
  · have h0 : e.key = 0 := ((stops_iff_of_getElem? he hk).mp h.stops).resolve_right hkey
    refine iff_of_false (h.not_holds hwf.probing (hs.trans ?_) w) fun h => hkey h.1
    exact HMapEntry.slot_eq_none.mpr h0

theorem getLoop_eq (hwf : m.WF c) (hk : k ≠ 0) (h : FirstStop m.cap home m.slotAt k j)
    {e : HMapEntry} (he : m.entries[probeAt m.cap (home k) j]? = some e) :
    ∀ (d fuel : Nat) (i : BitVec 64) (t : Nat), t + 1 + d = j → d < fuel →
      i.toNat % m.cap = probeAt m.cap (home k) t →
      getLoop m k fuel i = some (if e.key = k then some e.value else none) := by
  intro d
  induction d with
  | zero =>
    intro fuel i t ht hd hi
    obtain ⟨fuel, rfl⟩ : ∃ n, fuel = n + 1 := ⟨fuel - 1, by omega⟩
    obtain rfl : t + 1 = j := by omega
    have hstop := (stops_iff_of_getElem? he hk).mp h.stops
    simp only [getLoop, hwf.toNat_and_mask, hwf.toNat_next hi, he]
    split
    next => rfl
    next hkey => rw [if_pos (hstop.resolve_right hkey)]
  | succ d ih =>
    intro fuel i t ht hd hi
    obtain ⟨fuel, rfl⟩ : ∃ n, fuel = n + 1 := ⟨fuel - 1, by omega⟩
    obtain ⟨e', he'⟩ := exists_getElem? (probeAt_lt hwf.cap_pos (home k) (t + 1))
    have hpass := h.passes (t + 1) (by omega)
    rw [stops_iff_of_getElem? he' hk, not_or] at hpass
    simp only [getLoop, hwf.toNat_and_mask, hwf.toNat_next hi, he', if_neg hpass.1, if_neg hpass.2]
    refine ih fuel _ (t + 1) (by omega) (by omega) ?_
    rw [hwf.toNat_and_mask, Nat.mod_mod, hwf.toNat_next hi]

/-- A get reads the map. -/
theorem exists_hmapGet (hwf : m.WF c) (hk : k ≠ 0) (fuel : Nat) (hf : m.cap ≤ fuel) :
    ∃ r, hmapGet fuel m k = some r ∧ ∀ w, m.Maps k w ↔ r = some w := by
  obtain ⟨j, hj⟩ := hwf.exists_stop k
  obtain ⟨e, he⟩ := exists_getElem? hj.slot_lt
  refine ⟨if e.key = k then some e.value else none, ?_, fun w => ?_⟩
  · have hne : m.entries ≠ [] := List.ne_nil_of_length_pos hwf.cap_pos
    have hhome : (hashUint64 k).toNat % m.cap = probeAt m.cap (home k) 0 := by
      rw [probeAt_zero]
      rfl
    simp only [hmapGet, if_neg hk, if_neg hne, hwf.toNat_and_mask, hhome]
    cases j with
    | zero =>
      have hstop := (stops_iff_of_getElem? he hk).mp hj.stops
      rw [he]
      dsimp only
      split
      next => rfl
      next hkey => rw [if_pos (hstop.resolve_right hkey)]
    | succ j =>
      obtain ⟨e₀, he₀⟩ := exists_getElem? (probeAt_lt hwf.cap_pos (home k) 0)
      have hpass := hj.passes 0 (Nat.succ_pos j)
      rw [stops_iff_of_getElem? he₀ hk, not_or] at hpass
      simp only [he₀, if_neg hpass.1, if_neg hpass.2]
      refine getLoop_eq hwf hk hj he j fuel _ 0 (by omega) ?_ ?_
      · exact Nat.lt_of_lt_of_le (Nat.lt_of_succ_lt hj.lt) hf
      · rw [hwf.toNat_and_mask, Nat.mod_mod, hhome]
  · rw [stopped_value hwf hj he hk]
    split
    next h => simp [h, eq_comm]
    next h => simp [h]

/-! ## Runs -/

/-- What a sequence of operations answers on the finite map `f`, and the map it ends with. A put
fails only where the allocator has refused a table, and then it changes nothing. -/
def Answers (alloc : Nat → Bool) (f' : BitVec 64 → Option (BitVec 64)) :
    (BitVec 64 → Option (BitVec 64)) → List HMapOp → List HMapReply → Prop
  | f, [], [] => f' = f
  | f, .put k v :: ops, .put true :: rs => Answers alloc f' (Function.update f k (some v)) ops rs
  | f, .put _ _ :: ops, .put false :: rs => (∃ cap, alloc cap = false) ∧ Answers alloc f' f ops rs
  | f, .get k :: ops, .get r :: rs => r = f k ∧ Answers alloc f' f ops rs
  | _, _, _ => False

/-- The table stands for the finite map `f`. -/
def HMap.Refines (m : HMap) (f : BitVec 64 → Option (BitVec 64)) : Prop :=
  ∀ k w, m.Maps k w ↔ f k = some w

theorem HMap.Refines.update {m' : HMap} {f : BitVec 64 → Option (BitVec 64)} (h : m.Refines f)
    (hm : ∀ k' w, m'.Maps k' w ↔ if k' = k then w = v else m.Maps k' w) :
    m'.Refines (Function.update f k (some v)) := by
  intro k' w
  rw [hm, Function.update_apply]
  split
  next => rw [Option.some.injEq, eq_comm]
  next => exact h k' w

theorem HMap.Refines.get_eq {f : BitVec 64 → Option (BitVec 64)} (h : m.Refines f)
    {r : Option (BitVec 64)} (hr : ∀ w, m.Maps k w ↔ r = some w) : r = f k :=
  Option.ext fun w => (hr w).symm.trans (h k w)

theorem HMap.run_cons {alloc : Nat → Bool} {fuel : Nat} {m m₁ m' : HMap} {op : HMapOp}
    {ops : List HMapOp} {r : HMapReply} {rs : List HMapReply}
    (hexec : m.exec alloc fuel op = some (r, m₁)) (hrun : m₁.run alloc fuel ops = some (rs, m')) :
    m.run alloc fuel (op :: ops) = some (r :: rs, m') := by
  simp only [run, hexec, Option.bind_eq_bind, Option.bind_some, hrun]
  rfl

theorem exists_run {alloc : Nat → Bool} (halloc : ∀ cap, alloc cap = true → cap ≤ 2 ^ 60)
    {fuel : Nat} (hf : 2 ^ 62 < fuel) :
    ∀ (ops : List HMapOp) (m : HMap) (c : Nat) (f : BitVec 64 → Option (BitVec 64)),
      (∀ op ∈ ops, op.key ≠ 0) → m.WF c → m.Refines f →
      ∃ rs m' c' f', m.run alloc fuel ops = some (rs, m') ∧ m'.WF c' ∧ m'.Refines f' ∧
        Answers alloc f' f ops rs := by
  intro ops
  induction ops with
  | nil => exact fun m c f _ hwf href => ⟨[], m, c, f, rfl, hwf, href, rfl⟩
  | cons op ops ih =>
    intro m c f hkeys hwf href
    have hk := hkeys op (List.mem_cons_self ..)
    have hkeys' : ∀ op ∈ ops, op.key ≠ 0 := fun o ho => hkeys o (List.mem_cons_of_mem _ ho)
    cases op with
    | put k v =>
      obtain ⟨m₁, ok, c₁, hput, hwf₁, hmaps⟩ := exists_hmapPut halloc hwf hk v hf
      cases ok with
      | true =>
        obtain ⟨rs, m', c', f', hrun, hwf', href', hans⟩ :=
          ih m₁ c₁ _ hkeys' hwf₁ (href.update hmaps)
        refine ⟨.put true :: rs, m', c', f', HMap.run_cons ?_ hrun, hwf', href', hans⟩
        exact congrArg (Option.map _) hput
      | false =>
        obtain ⟨rfl, hno⟩ := hmaps
        obtain ⟨rs, m', c', f', hrun, hwf', href', hans⟩ := ih m₁ c₁ f hkeys' hwf₁ href
        refine ⟨.put false :: rs, m', c', f', HMap.run_cons ?_ hrun, hwf', href', hno, hans⟩
        exact congrArg (Option.map _) hput
    | get k =>
      have hcap : m.cap ≤ 2 ^ 60 := by
        rw [hwf.cap_eq]
        exact Nat.pow_le_pow_right (by decide) hwf.c_le
      obtain ⟨r, hget, hr⟩ := exists_hmapGet hwf hk fuel (by omega)
      obtain ⟨rs, m', c', f', hrun, hwf', href', hans⟩ := ih m c f hkeys' hwf href
      refine ⟨.get r :: rs, m', c', f', HMap.run_cons ?_ hrun, hwf', href', href.get_eq hr, hans⟩
      exact congrArg (Option.map _) hget

/-- A new map is an empty table. -/
theorem hmap_eq {alloc : Nat → Bool} {capLog2 fuel : Nat} (hlog : capLog2 < 31)
    (ha : alloc (2 ^ capLog2) = true) (hf : 0 < fuel) :
    hmap alloc fuel capLog2 = some (HMap.zeroed (2 ^ capLog2)) := by
  obtain ⟨fuel, rfl⟩ : ∃ n, fuel = n + 1 := ⟨fuel - 1, by omega⟩
  have hle : ¬ 2 ^ capLog2 ≤ (HMap.zeroed 0).cap := Nat.not_le.mpr (Nat.two_pow_pos capLog2)
  rw [hmap, if_pos hlog, hmapExpand, if_neg hle, if_pos ha]
  rfl

end Nibble
