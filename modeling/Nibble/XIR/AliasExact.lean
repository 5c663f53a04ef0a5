import Nibble.Lib.Forest
import Nibble.XIR.Alias
import Nibble.XIR.Live

/-!
# The registers that are aliased

The aliases are a forest whose roots tell registers apart that no calls have put together. A walk
to a root moves nodes up to their grandparents; a root that is put under another brings its class
along, and the sizes of two classes add up.
-/

namespace Nibble.XIR

open Nibble.Lib
open Relation (EqvGen)

/-- The parent of a register; a number that is none is its own. -/
def parent (roots : List XReg) (x : XReg) : XReg := roots[x]?.getD x

section

variable {roots : List XReg} {x y : XReg}

theorem parent_of_lt (h : x < roots.length) : roots[x]? = some (parent roots x) := by
  rw [parent, List.getElem?_eq_getElem h, Option.getD_some]

theorem parent_of_ge (h : roots.length ≤ x) : parent roots x = x := by
  rw [parent, List.getElem?_eq_none h, Option.getD_none]

theorem parent_set (h : x < roots.length) :
    parent (roots.set x y) = Function.update (parent roots) x y := by
  funext z
  unfold parent
  by_cases hz : z = x
  · rw [hz, Function.update_self, List.getElem?_set_self h, Option.getD_some]
  · rw [Function.update_of_ne hz, List.getElem?_set_ne (Ne.symm hz)]

/-- A register more, its own parent. -/
theorem parent_concat : parent (roots ++ [roots.length]) = parent roots := by
  funext z
  unfold parent
  rcases Nat.lt_trichotomy z roots.length with hz | rfl | hz
  · rw [List.getElem?_append_left hz]
  · rw [List.getElem?_concat_length, List.getElem?_eq_none (Nat.le_refl _)]
    rfl
  · rw [List.getElem?_eq_none (Nat.le_of_lt hz), List.getElem?_eq_none]
    rw [List.length_append]
    exact hz

end

/-- The parents of registers are registers, and come to an end. -/
structure Aliases (roots : List XReg) (f : XReg → XReg) : Prop where
  closed : ∀ x < roots.length, parent roots x < roots.length
  forest : Forest (parent roots)
  root : ∀ x, Root (parent roots) x (f x)

namespace Aliases

variable {roots : List XReg} {f : XReg → XReg} {r : XReg}

theorem lt (h : Aliases roots f) {x : XReg} (hx : x < roots.length) : f x < roots.length := by
  obtain ⟨-, k, hk⟩ := h.root x
  rw [← hk]
  clear hk
  induction k with
  | zero => exact hx
  | succ k ih =>
    rw [Function.iterate_succ_apply']
    exact h.closed _ ih

theorem fixed (h : Aliases roots f) (x : XReg) : f (f x) = f x :=
  (h.root (f x)).eq_of_root (h.root x).1

theorem ge (h : Aliases roots f) {x : XReg} (hx : roots.length ≤ x) : f x = x :=
  (h.root x).eq_of_root (parent_of_ge hx)

/-- A round of the loop keeps the roots. -/
theorem step (h : Aliases roots f) (hr : r < roots.length) :
    ∃ roots', AliasWalk.step ⟨roots, r⟩ = some ⟨roots', parent roots r⟩ ∧
      roots'.length = roots.length ∧ Halves (parent roots) (parent roots') ∧ Aliases roots' f := by
  have hnext := h.closed r hr
  have hhalves := Halves.update (parent roots) r
  rw [← parent_set hr] at hhalves
  refine ⟨roots.set r (parent roots (parent roots r)), ?_, List.length_set, hhalves, ?_, ?_, ?_⟩
  · simp only [AliasWalk.step, parent_of_lt hr, parent_of_lt hnext, Option.bind_eq_bind,
      Option.bind_some]
  · intro x hx
    rw [List.length_set] at hx ⊢
    rcases hhalves x with he | he <;> rw [he]
    · exact h.closed x hx
    · exact h.closed _ (h.closed x hx)
  · exact h.forest.halve hhalves
  · exact fun x => (h.forest.root_halve hhalves).mpr (h.root x)

/-- A walk ends at the root. -/
theorem walk (h : Aliases roots f) (hr : r < roots.length) :
    ∃ roots', runSteps AliasWalk.step AliasWalk.AtRoot roots.length ⟨roots, r⟩ =
        some ⟨roots', f r⟩ ∧ roots'.length = roots.length ∧ Aliases roots' f := by
  obtain ⟨d, hd, hlt⟩ := h.forest.exists_lt_card (Finset.range roots.length)
  rw [Finset.card_range] at hlt
  -- the distance to the root, which no round makes longer
  let I : AliasWalk → Prop := fun s => s.roots.length = roots.length ∧ s.r < roots.length ∧
    Aliases s.roots f ∧ f s.r = f r ∧ ∀ x, parent s.roots x ≠ x → d (parent s.roots x) < d x
  have hI : I ⟨roots, r⟩ := by
    refine ⟨rfl, hr, h, rfl, fun x hx => ?_⟩
    have hxlt : x < roots.length := Nat.lt_of_not_le fun hge => hx (parent_of_ge hge)
    exact hd x (Finset.mem_range.mpr hxlt) (Finset.mem_range.mpr (h.closed x hxlt)) hx
  have hround : ∀ s, I s → ¬ s.AtRoot → ∃ t, s.step = some t ∧ I t ∧ d t.r < d s.r := by
    rintro ⟨roots', r'⟩ ⟨hlen, hr', hA, hf, hdist⟩ hrun
    have hr'' : r' < roots'.length := hlen ▸ hr'
    obtain ⟨next, hstep, hlen', hhalves, hA'⟩ := hA.step hr''
    have hne : parent roots' r' ≠ r' := by
      intro he
      rw [AliasWalk.AtRoot, parent_of_lt hr'', he] at hrun
      exact hrun rfl
    refine ⟨_, hstep, ⟨hlen'.trans hlen, hlen ▸ hA.closed r' hr'', hA', ?_, ?_⟩, hdist r' hne⟩
    · exact ((hA.root (parent roots' r')).unique (root_parent.mpr (hA.root r'))).trans hf
    · exact fun x hx => Forest.halve_lt hdist hhalves hx
  obtain ⟨⟨roots', r'⟩, hrun, ⟨hlen, hr', hA, hf, -⟩, hroot⟩ :=
    runSteps_halts (m := fun s => d s.r) hround hI (hlt r (Finset.mem_range.mpr hr))
  have hfixed : parent roots' r' = r' := by
    have hroot : roots'[r']? = some r' := hroot
    rw [parent, hroot, Option.getD_some]
  refine ⟨roots', ?_, hlen, hA⟩
  rw [hrun, ← hf, (hA.root r').eq_of_root hfixed]

/-- A search that moves no nodes ends there too. -/
theorem findAliasReg_eq (h : Aliases roots f) (hr : r < roots.length) :
    findAliasReg roots roots.length r = some (f r) := by
  obtain ⟨d, hd, hlt⟩ := h.forest.exists_lt_card (Finset.range roots.length)
  rw [Finset.card_range] at hlt
  have hfuel := hlt r (Finset.mem_range.mpr hr)
  generalize roots.length = fuel at hfuel ⊢
  induction fuel generalizing r with
  | zero => exact absurd hfuel (Nat.not_lt_zero _)
  | succ fuel ih =>
    rw [XIR.findAliasReg, parent_of_lt hr, Option.bind_eq_bind, Option.bind_some]
    split
    case isTrue hroot => rw [(h.root r).eq_of_root hroot]; rfl
    case isFalse hne =>
      have hnext := h.closed r hr
      have hlow := hd r (Finset.mem_range.mpr hr) (Finset.mem_range.mpr hnext) hne
      rw [ih hnext (by omega), (h.root (parent roots r)).unique (root_parent.mpr (h.root r))]

/-- A root is put under another one. -/
theorem link (h : Aliases roots f) {u v : XReg} (hu : u < roots.length) (hv : v < roots.length)
    (hfu : f u = u) (hfv : f v = v) (huv : u ≠ v) :
    Aliases (roots.set u v) fun x => if f x = u then v else f x := by
  have hpu : parent roots u = u := by
    have := (h.root u).1
    rwa [hfu] at this
  have hpv : parent roots v = v := by
    have := (h.root v).1
    rwa [hfv] at this
  refine ⟨fun x hx => ?_, ?_, fun x => ?_⟩
  · rw [List.length_set] at hx ⊢
    rw [parent_set hu]
    by_cases hxu : x = u
    · rw [hxu, Function.update_self]
      exact hv
    · rw [Function.update_of_ne hxu]
      exact h.closed x hx
  · rw [parent_set hu]
    exact h.forest.link hpv huv
  · rw [parent_set hu]
    exact h.forest.root_link hpu hpv huv (h.root x)

end Aliases

/-! ## Classes -/

/-- The registers below `n` with a root. -/
def classOf (f : Nat → Nat) (n root : Nat) : Finset Nat :=
  (Finset.range n).filter fun x => f x = root

theorem card_classOf_link {f : Nat → Nat} {n : Nat} {u v : Nat} (huv : u ≠ v) :
    (classOf (fun x => if f x = u then v else f x) n v).card =
      (classOf f n v).card + (classOf f n u).card := by
  rw [← Finset.card_union_of_disjoint]
  · congr 1
    ext x
    simp only [classOf, Finset.mem_filter, Finset.mem_union]
    grind
  · rw [Finset.disjoint_left]
    intro x hv hu
    exact huv ((Finset.mem_filter.mp hu).2.symm.trans (Finset.mem_filter.mp hv).2)

theorem classOf_link {f : Nat → Nat} {n : Nat} {u v w : Nat} (hu : w ≠ u) (hv : w ≠ v) :
    classOf (fun x => if f x = u then v else f x) n w = classOf f n w := by
  ext x
  simp only [classOf, Finset.mem_filter]
  grind

theorem card_classOf_add_le {f : Nat → Nat} {n : Nat} {u v : Nat} (huv : u ≠ v) :
    (classOf f n v).card + (classOf f n u).card ≤ n := by
  rw [← card_classOf_link huv]
  exact (Finset.card_filter_le _ _).trans (Finset.card_range n).le

/-- A register that is new is alone. -/
theorem classOf_succ_self {f : Nat → Nat} {n : Nat} (hlt : ∀ x < n, f x < n) (hn : f n = n) :
    classOf f (n + 1) n = {n} := by
  ext x
  simp only [classOf, Finset.mem_filter, Finset.mem_range, Finset.mem_singleton]
  constructor
  · rintro ⟨hx, hf⟩
    by_contra hne
    have := hlt x (by omega)
    omega
  · rintro rfl
    exact ⟨Nat.lt_succ_self x, hn⟩

theorem classOf_succ_of_lt {f : Nat → Nat} {n : Nat} (hn : f n = n) {r : Nat} (hr : r < n) :
    classOf f (n + 1) r = classOf f n r := by
  ext x
  simp only [classOf, Finset.mem_filter, Finset.mem_range]
  constructor
  · rintro ⟨hx, hf⟩
    refine ⟨Nat.lt_of_le_of_ne (Nat.le_of_lt_succ hx) ?_, hf⟩
    rintro rfl
    omega
  · rintro ⟨hx, hf⟩
    exact ⟨Nat.lt_succ_of_lt hx, hf⟩

/-- Registers are connected by the pairs that were aliased. -/
abbrev Connected (pairs : List (XReg × XReg)) : XReg → XReg → Prop :=
  EqvGen fun x y => (x, y) ∈ pairs

namespace AliasRegs

/-- The roots tell registers apart that are not connected, and their sizes are those of their
classes. -/
structure Inv (b : AliasRegs) (pairs : List (XReg × XReg)) (f : XReg → XReg) : Prop where
  numRegs : b.numRegs = b.lregAliases.length
  ranges : b.lregRanges.length = b.lregAliases.length
  sizes : b.lregSizes.length = b.lregAliases.length
  count : b.lregAliases.length ≤ XIR_REG_COUNT
  aliases : Aliases b.lregAliases f
  classes : ∀ x y, f x = f y ↔ Connected pairs x y
  size : ∀ x < b.lregAliases.length, f x = x →
    b.lregSizes[x]? = some (classOf f b.lregAliases.length x).card

section

variable {b b' : AliasRegs} {pairs : List (XReg × XReg)} {f : XReg → XReg} {r u v root : XReg}

/-- A walk changes only parents. -/
theorem Inv.find (h : b.Inv pairs f) (hr : r < b.lregAliases.length) :
    ∃ roots, b.findAliasReg r = some ({ b with lregAliases := roots }, f r) ∧
      roots.length = b.lregAliases.length ∧ Inv { b with lregAliases := roots } pairs f := by
  obtain ⟨roots, hrun, hlen, hA⟩ := h.aliases.walk hr
  refine ⟨roots, ?_, hlen, ⟨?_, ?_, ?_, ?_, hA, h.classes, ?_⟩⟩
  · simp only [findAliasReg, hrun, Option.bind_eq_bind, Option.bind_some]
  · exact h.numRegs.trans hlen.symm
  · exact h.ranges.trans hlen.symm
  · exact h.sizes.trans hlen.symm
  · exact hlen.le.trans h.count
  · intro x hx hf
    dsimp only at hx ⊢
    rw [hlen] at hx ⊢
    exact h.size x hx hf

theorem lt_of_find (h : b.findAliasReg r = some (b', root)) : r < b.lregAliases.length := by
  by_contra hge
  have hnone : b.lregAliases[r]? = none := List.getElem?_eq_none (Nat.not_lt.mp hge)
  have hrun : runSteps AliasWalk.step AliasWalk.AtRoot b.lregAliases.length ⟨b.lregAliases, r⟩ =
      none := by
    cases b.lregAliases.length with
    | zero => rfl
    | succ n =>
      have hroot : ¬ AliasWalk.AtRoot ⟨b.lregAliases, r⟩ := by
        rw [AliasWalk.AtRoot, hnone]
        exact fun he => nomatch he
      rw [runSteps, if_neg hroot, AliasWalk.step, hnone]
      rfl
  rw [findAliasReg, hrun] at h
  cases h

/-- A pair more, whose roots become one. -/
theorem Inv.classes_link (h : b.Inv pairs f) {src dst : XReg}
    (hsd : (f u = src ∧ f v = dst) ∨ (f v = src ∧ f u = dst)) (x y : XReg) :
    (if f x = src then dst else f x) = (if f y = src then dst else f y) ↔
      Connected ((u, v) :: pairs) x y := by
  have hself : Connected ((u, v) :: pairs) u v := .rel u v List.mem_cons_self
  have hnew : ∀ a c, (a, c) ∈ (u, v) :: pairs → (a, c) ∈ pairs ∨ (a = u ∧ c = v) := by
    intro a c hac
    rcases List.mem_cons.mp hac with he | hac
    · cases he
      exact .inr ⟨rfl, rfl⟩
    · exact .inl hac
  rcases hsd with ⟨rfl, rfl⟩ | ⟨rfl, rfl⟩
  · exact eqvGen_link h.classes (fun _ _ => List.mem_cons_of_mem _) hself
      (fun a c hac => (hnew a c hac).imp_right .inl) x y
  · exact eqvGen_link h.classes (fun _ _ => List.mem_cons_of_mem _) (hself.symm _ _)
      (fun a c hac => (hnew a c hac).imp_right .inr) x y

theorem mergeRanges_length {ranges ranges' : List X64.RegRange} {dst src : XReg}
    (h : mergeRanges ranges dst src = some ranges') : ranges'.length = ranges.length := by
  obtain ⟨srcRange, -, h⟩ := Option.bind_eq_some_iff.mp h
  obtain ⟨dstRange, -, h⟩ := Option.bind_eq_some_iff.mp h
  split at h
  · rw [← Option.some.inj h]
  · split at h
    all_goals first
      | exact Option.some.inj h ▸ List.length_set
      | cases h

/-- The root of one class is put under the root of another. -/
theorem Inv.link (h : b.Inv pairs f) {src dst : XReg} {srcSize dstSize : Nat}
    (hu : u < b.lregAliases.length) (hv : v < b.lregAliases.length)
    (hsd : (f u = src ∧ f v = dst) ∨ (f v = src ∧ f u = dst)) (hne : src ≠ dst)
    (hsrc : b.lregSizes[src]? = some srcSize) (hdst : b.lregSizes[dst]? = some dstSize)
    (hlink : b.linkRoots dst src dstSize srcSize = some b') :
    b'.Inv ((u, v) :: pairs) fun x => if f x = src then dst else f x := by
  obtain ⟨ranges, hranges, hb'⟩ := Option.bind_eq_some_iff.mp hlink
  cases hb'
  have hlt : src < b.lregAliases.length ∧ dst < b.lregAliases.length ∧ f src = src ∧
      f dst = dst := by
    rcases hsd with ⟨rfl, rfl⟩ | ⟨rfl, rfl⟩
    · exact ⟨h.aliases.lt hu, h.aliases.lt hv, h.aliases.fixed u, h.aliases.fixed v⟩
    · exact ⟨h.aliases.lt hv, h.aliases.lt hu, h.aliases.fixed v, h.aliases.fixed u⟩
  obtain ⟨hsl, hdl, hfs, hfd⟩ := hlt
  have hdstSize := Option.some.inj (hdst.symm.trans (h.size dst hdl hfd))
  have hsrcSize := Option.some.inj (hsrc.symm.trans (h.size src hsl hfs))
  refine ⟨?_, ?_, ?_, ?_, h.aliases.link hsl hdl hfs hfd hne, h.classes_link hsd, ?_⟩
  · exact h.numRegs.trans List.length_set.symm
  · rw [List.length_set, mergeRanges_length hranges]
    exact h.ranges
  · rw [List.length_set, List.length_set]
    exact h.sizes
  · rw [List.length_set]
    exact h.count
  · intro x hx hf
    rw [List.length_set] at hx ⊢
    have hxs : x ≠ src := by
      rintro rfl
      rw [if_pos hfs] at hf
      exact hne hf.symm
    by_cases hxd : x = dst
    · have hsum := @card_classOf_add_le f b.lregAliases.length src dst hne
      have hcount := h.count
      have hcap : XIR_REG_COUNT < 2 ^ 32 := by decide
      rw [hxd, List.getElem?_set_self (h.sizes ▸ hdl), card_classOf_link hne, hdstSize, hsrcSize,
        addU32, Nat.mod_eq_of_lt (by omega)]
    · have hfx : f x = x := by
        split at hf
        · exact absurd hf.symm hxd
        · exact hf
      rw [List.getElem?_set_ne (Ne.symm hxd), classOf_link hxs hxd]
      exact h.size x hx hfx

/-! ## Calls -/

theorem Inv.aliased (h : b.Inv pairs f) (hb : b.aliasRegs u v = some b') :
    ∃ f', b'.Inv ((u, v) :: pairs) f' := by
  rw [aliasRegs] at hb
  obtain ⟨⟨b₁, rootU⟩, hfindU, hb⟩ := Option.bind_eq_some_iff.mp hb
  obtain ⟨⟨b₂, rootV⟩, hfindV, hb⟩ := Option.bind_eq_some_iff.mp hb
  have hu := lt_of_find hfindU
  obtain ⟨roots₁, hU, hlen₁, h₁⟩ := h.find hu
  rw [hU] at hfindU
  cases hfindU
  have hv := lt_of_find hfindV
  obtain ⟨roots₂, hV, hlen₂, h₂⟩ := h₁.find hv
  rw [hV] at hfindV
  cases hfindV
  dsimp only at hb hlen₂ hv
  have hu₂ : u < roots₂.length := by rwa [hlen₂, hlen₁]
  have hv₂ : v < roots₂.length := by rwa [hlen₂]
  split at hb
  case isTrue he =>
    cases hb
    refine ⟨f, h₂.numRegs, h₂.ranges, h₂.sizes, h₂.count, h₂.aliases, fun x y => ?_, h₂.size⟩
    -- the two are connected already
    rw [← h₂.classes_link (.inl ⟨rfl, rfl⟩)]
    simp only [← he]
    split <;> split <;> rename_i hx hy <;> grind
  case isFalse hne =>
    obtain ⟨sizeU, hsizeU, hb⟩ := Option.bind_eq_some_iff.mp hb
    obtain ⟨sizeV, hsizeV, hb⟩ := Option.bind_eq_some_iff.mp hb
    split at hb
    · exact ⟨_, h₂.link hu₂ hv₂ (.inr ⟨rfl, rfl⟩) (Ne.symm hne) hsizeV hsizeU hb⟩
    · exact ⟨_, h₂.link hu₂ hv₂ (.inl ⟨rfl, rfl⟩) hne hsizeU hsizeV hb⟩

theorem Inv.next {regClass : X64.RegClass} (h : b.Inv pairs f)
    (hb : b.nextReg regClass = some b') : b'.Inv pairs f := by
  unfold nextReg at hb
  split at hb
  · cases hb
  case isFalse hcount =>
    cases hb
    have hparent : parent (b.lregAliases ++ [b.numRegs]) = parent b.lregAliases := by
      rw [h.numRegs, parent_concat]
    have hlen : (b.lregAliases ++ [b.numRegs]).length = b.lregAliases.length + 1 :=
      List.length_append
    have hnew : f b.lregAliases.length = b.lregAliases.length := h.aliases.ge (Nat.le_refl _)
    refine ⟨?_, ?_, ?_, ?_, ⟨?_, ?_, ?_⟩, h.classes, ?_⟩
    · rw [hlen, h.numRegs]
    · rw [hlen, List.length_append, h.ranges]
      rfl
    · rw [hlen, List.length_append, h.sizes]
      rfl
    · rw [hlen]
      exact Nat.lt_of_le_of_ne h.count fun he => hcount (h.numRegs.trans he)
    · intro x hx
      rw [hlen] at hx ⊢
      rw [hparent]
      rcases Nat.lt_succ_iff_lt_or_eq.mp hx with hx | rfl
      · exact Nat.lt_succ_of_lt (h.aliases.closed x hx)
      · rw [parent_of_ge (Nat.le_refl _)]
        exact Nat.lt_succ_self _
    · rw [hparent]
      exact h.aliases.forest
    · rw [hparent]
      exact h.aliases.root
    · intro x hx hf
      rw [hlen] at hx ⊢
      rcases Nat.lt_succ_iff_lt_or_eq.mp hx with hx | rfl
      · rw [List.getElem?_append_left (h.sizes ▸ hx), classOf_succ_of_lt hnew hx]
        exact h.size x hx hf
      · rw [← h.sizes, List.getElem?_concat_length, h.sizes,
          classOf_succ_self (fun x hx => h.aliases.lt hx) hnew, Finset.card_singleton]

/-- What calls reach has an invariant. -/
theorem Reached.inv (h : Reached b pairs) : ∃ f, b.Inv pairs f := by
  induction h with
  | start =>
    refine ⟨id, rfl, rfl, rfl, Nat.zero_le _, ⟨fun _ hx => absurd hx (Nat.not_lt_zero _), ?_, ?_⟩,
      fun x y => ⟨fun hxy => ?_, fun hxy => ?_⟩,
      fun _ hx => absurd hx (Nat.not_lt_zero _)⟩
    · exact ⟨fun _ => 0, fun x hx => absurd rfl hx⟩
    · exact fun x => .self rfl
    · obtain rfl : x = y := hxy
      exact .refl x
    · induction hxy with
      | rel _ _ hab => exact absurd hab List.not_mem_nil
      | refl => rfl
      | symm _ _ _ ih => exact ih.symm
      | trans _ _ _ _ _ hab hbc => exact hab.trans hbc
  | next _ _ hb ih =>
    obtain ⟨f, hf⟩ := ih
    exact ⟨f, hf.next hb⟩
  | find _ r root hb ih =>
    obtain ⟨f, hf⟩ := ih
    obtain ⟨roots, hfind, -, hf'⟩ := hf.find (lt_of_find hb)
    rw [hfind] at hb
    cases hb
    exact ⟨f, hf'⟩
  | aliased _ _ _ hb ih =>
    obtain ⟨f, hf⟩ := ih
    exact hf.aliased hb
  | control _ r ctrl ih =>
    obtain ⟨f, hf⟩ := ih
    exact ⟨f, hf.numRegs, (List.length_modify ..).trans hf.ranges, hf.sizes, hf.count, hf.aliases,
      hf.classes, hf.size⟩

theorem Inv.rep (h : b.Inv pairs f) (hr : r < b.numRegs) : b.rep r = some (f r) := by
  obtain ⟨roots, hfind, -⟩ := h.find (h.numRegs ▸ hr)
  rw [AliasRegs.rep, hfind]
  rfl

theorem Inv.members_length (h : b.Inv pairs f) (root : XReg) :
    (b.members root).length = (classOf f b.lregAliases.length root).card := by
  have hnodup : (b.members root).Nodup := List.nodup_range.filter _
  rw [← List.toFinset_card_of_nodup hnodup]
  congr 1
  ext x
  simp only [members, List.toFinset_filter, Finset.mem_filter, List.mem_toFinset, List.mem_range,
    classOf, Finset.mem_range, decide_eq_true_eq, ← h.numRegs]
  refine and_congr_right fun hx => ?_
  rw [h.rep hx, Option.some.injEq]

/-- Two registers that exist are put together, unless both of their classes are forced. -/
theorem Reached.alias_total (h : Reached b pairs) (hu : u < b.numRegs) (hv : v < b.numRegs)
    (hnone : b.aliasRegs u v = none) :
    ∃ dst src, dst < b.numRegs ∧ src < b.numRegs ∧ mergeRanges b.lregRanges dst src = none := by
  obtain ⟨f, hf⟩ := h.inv
  rw [hf.numRegs] at hu hv
  obtain ⟨roots₁, hU, hlen₁, h₁⟩ := hf.find hu
  obtain ⟨roots₂, hV, hlen₂, h₂⟩ := @Inv.find _ _ _ v h₁ (by dsimp only; rwa [hlen₁])
  have hlt : ∀ r < b.lregAliases.length, f r < b.numRegs := fun r hr =>
    hf.numRegs ▸ hf.aliases.lt hr
  have hsize : ∀ r < b.lregAliases.length, ∃ n, b.lregSizes[f r]? = some n := fun r hr =>
    ⟨_, hf.size (f r) (hf.aliases.lt hr) (hf.aliases.fixed r)⟩
  obtain ⟨sizeU, hsizeU⟩ := hsize u hu
  obtain ⟨sizeV, hsizeV⟩ := hsize v hv
  have hlink : ∀ (c : AliasRegs) (dst src : XReg) (m n : Nat),
      c.linkRoots dst src m n = none → mergeRanges c.lregRanges dst src = none := by
    intro c dst src m n hc
    cases hm : mergeRanges c.lregRanges dst src with
    | none => rfl
    | some ranges =>
      rw [linkRoots, hm] at hc
      cases hc
  rw [aliasRegs, hU] at hnone
  simp only [Option.bind_eq_bind, Option.bind_some] at hnone
  rw [hV] at hnone
  simp only [Option.bind_some, hsizeU, hsizeV] at hnone
  split at hnone
  · cases hnone
  · split at hnone
    · have hmerge := hlink _ _ _ _ _ hnone
      exact ⟨f u, f v, hlt u hu, hlt v hv, hmerge⟩
    · have hmerge := hlink _ _ _ _ _ hnone
      exact ⟨f v, f u, hlt v hv, hlt u hu, hmerge⟩

end

/-- After any calls, a search ends at a representative and leaves every representative as it was;
two registers have the same one exactly when they are connected by the pairs that were aliased;
and the size of a representative is that of its class. -/
theorem alias_regs_exact {b : AliasRegs} {pairs : List (XReg × XReg)} (h : Reached b pairs) :
    (∀ r < b.numRegs, ∃ b' root, b.findAliasReg r = some (b', root) ∧ b.rep root = some root ∧
      ∀ x < b.numRegs, b'.rep x = b.rep x) ∧
    (∀ x < b.numRegs, ∀ y < b.numRegs, b.rep x = b.rep y ↔ Connected pairs x y) ∧
    (∀ x < b.numRegs, b.rep x = some x → b.lregSizes[x]? = some (b.members x).length) := by
  obtain ⟨f, hf⟩ := h.inv
  refine ⟨fun r hr => ?_, fun x hx y hy => ?_, fun x hx hroot => ?_⟩
  · obtain ⟨roots, hfind, -, hf'⟩ := hf.find (hf.numRegs ▸ hr)
    have hroot : f r < b.numRegs := hf.numRegs ▸ hf.aliases.lt (hf.numRegs ▸ hr)
    refine ⟨_, f r, hfind, ?_, fun x hx => ?_⟩
    · rw [hf.rep hroot, hf.aliases.fixed]
    · rw [hf.rep hx, @Inv.rep _ _ _ x hf' hx]
  · rw [hf.rep hx, hf.rep hy, Option.some.injEq]
    exact hf.classes x y
  · rw [hf.rep hx, Option.some.injEq] at hroot
    rw [hf.members_length]
    exact hf.size x (hf.numRegs ▸ hx) hroot

/-- Two registers and a third one. -/
def pairAndOne : AliasRegs where
  numRegs := 3
  lregRanges := [⟨0, -1, -1, .int, .none⟩, ⟨1, -1, -1, .int, .none⟩, ⟨2, -1, -1, .int, .none⟩]
  lregAliases := [1, 1, 2]
  lregSizes := [1, 2, 1]

theorem reached_pairAndOne : Reached pairAndOne [(0, 1)] :=
  .aliased (.next (.next (.next .start .int rfl) .int rfl) .int rfl) 0 1 (by decide)

theorem alias_pair_and_one : pairAndOne.rep 0 = pairAndOne.rep 1 ∧
    pairAndOne.rep 1 ≠ pairAndOne.rep 2 ∧ Connected [(0, 1)] 0 1 ∧
    pairAndOne.lregSizes[1]? = some (pairAndOne.members 1).length := by
  obtain ⟨-, hclasses, hsizes⟩ := alias_regs_exact reached_pairAndOne
  exact ⟨by decide, by decide, (hclasses 0 (by decide) 1 (by decide)).mp (by decide),
    hsizes 1 (by decide) (by decide)⟩

end AliasRegs

end Nibble.XIR
