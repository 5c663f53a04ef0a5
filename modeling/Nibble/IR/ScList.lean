import Mathlib.Data.List.Forall2
import Nibble.Lib.Chain
import Nibble.IR.ShortCircuit
import Nibble.IR.Frame

/-!
# The lists of pending jumps

The node arena holds the freelist and the lists of the deferred comparisons
under construction. `Arena B F` says that the freelist is the list `F`;
`ScList B c ids P` that `c` owns the nodes `ids` and that they describe the
pending jumps `P`. `Uses F B F' ids B'` is the footprint of emission: it took
nodes from the freelist `F` or created them, and left all others alone.
-/

namespace Nibble.IR

open Nibble.Lib

/-- A jump that has no target yet, with the value its being taken stands for. -/
abbrev Pending := List (Nat × Bool)

def nextOf (nodes : List DeferredJmpcc) (n : Nat) : Option Nat := nodes[n]?.bind (·.next)

theorem nextOf_congr {nodes nodes' : List DeferredJmpcc} {n : Nat} (h : nodes'[n]? = nodes[n]?) :
    nextOf nodes' n = nextOf nodes n := by rw [nextOf, h, nextOf]

/-- A conditional jump that has its target. -/
def Targeted (B : ProcBuilder) (j : Nat) : Prop :=
  ∃ s t f a, B.instrs[j]? = some (.condJmp s (some t) f a)

/-- The freelist of `B` is `F`; no jump that its nodes still hold is pending. -/
structure Arena (B : ProcBuilder) (F : List Nat) : Prop where
  free : IsChain (nextOf B.scJmps) B.scJmpFreelist F
  nodup : F.Nodup
  lt : ∀ n ∈ F, B.scJmps.length > n
  old : ∀ n ∈ F, ∀ d j, B.scJmps[n]? = some d → d.jmp = some j → Targeted B j

/-- A node describes a pending jump. -/
def Describes (nodes : List DeferredJmpcc) (n : Nat) (p : Nat × Bool) : Prop :=
  ∃ d, nodes[n]? = some d ∧ d.jmp = some p.1 ∧ d.result = p.2

structure ScList (B : ProcBuilder) (c : DeferredCmp) (ids : List Nat) (P : Pending) : Prop where
  chain : IsChain (nextOf B.scJmps) c.firstScJmp ids
  last : c.lastScJmp = ids.getLast?
  nodes : List.Forall₂ (Describes B.scJmps) ids P

/-- From `B`, whose freelist is `F`, to `B'`, whose freelist is `F'`, emission took the nodes of
`F'` and `ids` from `F` or created them. -/
structure Uses (F : List Nat) (B : ProcBuilder) (F' ids : List Nat) (B' : ProcBuilder) : Prop where
  arena : Arena B' F'
  nodup : (F' ++ ids).Nodup
  src : ∀ n ∈ F' ++ ids, n ∈ F ∨ n ≥ B.scJmps.length
  lt : ∀ n ∈ ids, B'.scJmps.length > n
  length : B.scJmps.length ≤ B'.scJmps.length
  frame : ∀ n : Nat, n < B.scJmps.length → n ∉ F → B'.scJmps[n]? = B.scJmps[n]?

section

variable {B B' B'' : ProcBuilder} {F F' F'' ids ids' : List Nat} {c c' : DeferredCmp}
  {P P' : Pending} {nodes nodes' : List DeferredJmpcc}

theorem Uses.refl (h : Arena B F) : Uses F B F [] B :=
  ⟨h, by simpa using h.nodup, fun n hn => .inl (by simpa using hn), by simp, Nat.le_refl _,
    fun _ _ _ => rfl⟩

/-- A node that was in neither freelist nor list of the first part is untouched by the second. -/
theorem Uses.keep (h : Uses F B F' ids B') (h' : Uses F' B' F'' ids' B'') :
    ∀ n ∈ ids, B''.scJmps[n]? = B'.scJmps[n]? := fun n hn =>
  h'.frame n (h.lt n hn) fun hF => (List.nodup_append.mp h.nodup).2.2 n hF n hn rfl

theorem Uses.trans (h : Uses F B F' ids B') (h' : Uses F' B' F'' ids' B'') :
    Uses F B F'' (ids ++ ids') B'' := by
  have hlen := h.length
  have hold : ∀ n ∈ ids, n ∉ F'' ++ ids' := by
    intro n hn hm
    have hlt := h.lt n hn
    rcases h'.src n hm with hF | hge
    · exact (List.nodup_append.mp h.nodup).2.2 n hF n hn rfl
    · omega
  refine ⟨h'.arena, ?_, fun n hn => ?_, fun n hn => ?_, h.length.trans h'.length,
    fun n hn hF => ?_⟩
  · rw [← List.append_assoc]
    have hp : (F'' ++ ids ++ ids').Perm (ids ++ (F'' ++ ids')) :=
      ((List.perm_append_comm).append_right ids').trans (by simp)
    refine hp.nodup_iff.mpr (List.nodup_append.mpr ⟨(List.nodup_append.mp h.nodup).2.1, h'.nodup,
      fun a ha b hb e => hold a ha (e ▸ hb)⟩)
  · have : n ∈ F'' ++ ids' ∨ n ∈ ids := by
      simp only [List.mem_append] at hn ⊢
      tauto
    rcases this with hm | hm
    · rcases h'.src n hm with hF | hge
      · exact h.src n (List.mem_append_left _ hF)
      · exact .inr (by omega)
    · exact h.src n (List.mem_append_right _ hm)
  · rcases List.mem_append.mp hn with hm | hm
    · have := h.lt n hm
      have := h'.length
      omega
    · exact h'.lt n hm
  · rw [h'.frame n (by omega) fun hF' => ?_, h.frame n hn hF]
    rcases h.src n (List.mem_append_left _ hF') with h1 | h1
    · exact hF h1
    · omega

theorem ScList.congr (h : ScList B c ids P) (hag : ∀ n ∈ ids, B'.scJmps[n]? = B.scJmps[n]?) :
    ScList B' c ids P := by
  refine ⟨h.chain.congr fun n hn => nextOf_congr (hag n hn), h.last, ?_⟩
  have := h.nodes
  refine (List.forall₂_iff_get).mpr ⟨this.length_eq, fun i hi hi' => ?_⟩
  obtain ⟨d, hd, hj⟩ := (List.forall₂_iff_get.mp this).2 i hi hi'
  exact ⟨d, (hag _ (List.get_mem ids ⟨i, hi⟩)).trans hd, hj⟩

theorem Uses.congr (h : Uses F B F' ids B') (hn : B''.scJmps = B'.scJmps)
    (hf : B''.scJmpFreelist = B'.scJmpFreelist) (hi : ∀ j, Targeted B' j → Targeted B'' j) :
    Uses F B F' ids B'' := by
  obtain ⟨⟨ha, hb, hc, hd⟩, h2, h3, h4, h5, h6⟩ := h
  rw [← hn, ← hf] at ha
  rw [← hn] at hc hd h4 h5
  exact ⟨⟨ha, hb, hc, fun n hm d j hx hj => hi j (hd n hm d j hx hj)⟩, h2, h3, h4,
    h5, by rw [hn]; exact h6⟩

theorem Uses.start (h : Uses F B F' ids B') (hn : B''.scJmps = B.scJmps) : Uses F B'' F' ids B' := by
  obtain ⟨h1, h2, h3, h4, h5, h6⟩ := h
  exact ⟨h1, h2, by rw [hn]; exact h3, h4, by rw [hn]; exact h5, by rw [hn]; exact h6⟩

/-- A list without nodes. -/
theorem ScList.nil (hf : c.firstScJmp = none) (hl : c.lastScJmp = none) : ScList B c [] [] :=
  ⟨hf, hl, .nil⟩

theorem ScList.finalJmp (h : ScList B c ids P) (d : DeferredJmpcc) :
    ScList B { c with finalJmp := d } ids P :=
  ⟨h.chain, h.last, h.nodes⟩

/-! ## Adding a node -/

theorem getElem?_linkNewNode {last : Option NodeId} {id n cmp jmp : Nat} {result : Bool}
    (hid : id < nodes.length) (hl : last ≠ some id) :
    (linkNewNode nodes last id cmp result jmp)[n]? =
      if n = id then some ⟨result, some jmp, cmp, none⟩
      else if last = some n then nodes[n]?.map fun d => { d with next := some id }
      else nodes[n]? := by
  unfold linkNewNode
  cases last with
  | none => 
    by_cases hn : n = id
    · subst hn
      simp [hid]
    · simp [hn, Ne.symm hn]
  | some l =>
    have hli : l ≠ id := fun e => hl (congrArg some e)
    by_cases hn : n = id
    · subst hn
      simp [hid, hli]
    · by_cases hnl : l = n
      · subst hnl
        simp [hn, Ne.symm hn]
      · simp [hn, Ne.symm hn, hnl]

theorem length_linkNewNode {last : Option NodeId} {id cmp jmp : Nat} {result : Bool} :
    (linkNewNode nodes last id cmp result jmp).length = nodes.length := by
  unfold linkNewNode
  cases last <;> simp

/-- What popping a node off a well-formed freelist gives. -/
theorem popScNode_ok (h : Uses F B F' ids B') : ∃ id nodes fl F'',
    popScNode B' = some (id, nodes, fl) ∧ nodes.length > id ∧
    (∀ n : Nat, n < B'.scJmps.length → nodes[n]? = B'.scJmps[n]?) ∧
    B'.scJmps.length ≤ nodes.length ∧ IsChain (nextOf B'.scJmps) fl F'' ∧
    (id ∈ F' ∨ id = B'.scJmps.length) ∧ (∀ n ∈ F'', n ∈ F') ∧ (F'' ++ (ids ++ [id])).Nodup := by
  have hfree := h.arena.free
  cases F' with
  | nil =>
    have hnone : B'.scJmpFreelist = none := hfree
    refine ⟨B'.scJmps.length, _, none, [], by rw [popScNode, hnone], by simp, fun n hn => ?_,
      by simp, rfl, .inr rfl, by simp, ?_⟩
    · rw [List.getElem?_append_left hn]
    · rw [List.nil_append, List.nodup_append]
      refine ⟨(List.nodup_append.mp h.nodup).2.1, by simp, fun a ha b hb => ?_⟩
      have := h.lt a ha
      rw [List.mem_singleton] at hb
      omega
  | cons id F'' =>
    obtain ⟨hsome, hrest⟩ := hfree
    have hlt := h.arena.lt id List.mem_cons_self
    have hget := List.getElem?_eq_getElem (l := B'.scJmps) hlt
    refine ⟨id, B'.scJmps, (B'.scJmps[id]).next, F'', by simp [popScNode, hsome, hget], hlt,
      fun n _ => rfl, Nat.le_refl _, ?_, .inl List.mem_cons_self,
      fun n hn => List.mem_cons_of_mem _ hn, ?_⟩
    · simpa [nextOf, hget] using hrest
    · have hp : (F'' ++ (ids ++ [id])).Perm (id :: F'' ++ ids) := by
        rw [← List.append_assoc]
        exact List.perm_append_singleton id _
      exact hp.nodup_iff.mpr h.nodup

/-- Only the arena differs. -/
def SameCode (B B' : ProcBuilder) : Prop :=
  ∃ ns fl, B' = { B with scJmps := ns, scJmpFreelist := fl }

theorem newDeferredScJmp_ok (cmp jmp : Nat) (result : Bool) (h : Uses F B F' ids B')
    (hc : ScList B' c ids P) : ∃ c' B'' F'' id,
    newDeferredScJmp c cmp result jmp B' = some (c', B'') ∧ SameCode B' B'' ∧
    Uses F B F'' (ids ++ [id]) B'' ∧ ScList B'' c' (ids ++ [id]) (P ++ [(jmp, result)]) ∧
    c'.finalJmp = c.finalJmp := by
  obtain ⟨id, ns, fl, F'', hpop, hid, hag, hlen, hch, hsrc, hsub, hnd⟩ := popScNode_ok h
  have hids := (List.nodup_append.mp (List.nodup_append.mp hnd).2.1)
  have hnotid : id ∉ ids := fun hm => hids.2.2 id hm id (List.mem_singleton_self _) rfl
  have hlast : c.lastScJmp ≠ some id := by
    rw [hc.last]
    exact fun e => hnotid (List.mem_of_getLast? e)
  have hnodes := fun n : Nat => (getElem?_linkNewNode hid hlast :
    (linkNewNode ns c.lastScJmp id cmp result jmp)[n]? = _)
  have hF'' : ∀ n ∈ F'', n ≠ id ∧ c.lastScJmp ≠ some n ∧ B'.scJmps.length > n := by
    intro n hn
    refine ⟨?_, ?_, h.arena.lt n (hsub n hn)⟩
    · rintro rfl
      exact (List.nodup_append.mp hnd).2.2 n hn n (by simp) rfl
    · rw [hc.last]
      exact fun e => (List.nodup_append.mp h.nodup).2.2 n (hsub n hn) n
        (List.mem_of_getLast? e) rfl
  refine ⟨{ c with
      firstScJmp := c.lastScJmp.elim (some id) fun _ => c.firstScJmp
      lastScJmp := some id },
    { B' with scJmps := linkNewNode ns c.lastScJmp id cmp result jmp, scJmpFreelist := fl },
    F'', id, by unfold newDeferredScJmp; rw [hpop]; cases c.lastScJmp <;> rfl, ⟨_, _, rfl⟩,
    ⟨⟨?_, (List.nodup_append.mp hnd).1, ?_, ?_⟩, hnd, ?_, ?_, ?_, ?_⟩, ⟨?_, by simp, ?_⟩, rfl⟩
  · -- the rest of the freelist
    refine hch.congr fun n hn => nextOf_congr ?_
    obtain ⟨h1, h2, h3⟩ := hF'' n hn
    rw [hnodes, if_neg h1, if_neg h2, hag n h3]
  · intro n hn
    rw [length_linkNewNode]
    have := (hF'' n hn).2.2
    omega
  · intro n hn d j hd hj
    obtain ⟨h1, h2, h3⟩ := hF'' n hn
    rw [hnodes, if_neg h1, if_neg h2, hag n h3] at hd
    exact h.arena.old n (hsub n hn) d j hd hj
  · intro n hn
    have : n ∈ F' ++ ids ∨ n = id := by
      simp only [List.mem_append, List.mem_singleton] at hn ⊢
      have := hsub n
      tauto
    rcases this with hm | rfl
    · exact h.src n hm
    · rcases hsrc with hm | rfl
      · exact h.src _ (List.mem_append_left _ hm)
      · exact .inr h.length
  · intro n hn
    rw [length_linkNewNode]
    rcases List.mem_append.mp hn with hm | hm
    · have := h.lt n hm
      omega
    · rw [List.mem_singleton.mp hm]
      exact hid
  · rw [length_linkNewNode]
    have := h.length
    omega
  · intro n hn hF
    have hle := h.length
    have hn' : n ≠ id := by
      rintro rfl
      rcases hsrc with hm | rfl
      · rcases h.src n (List.mem_append_left _ hm) with h1 | h1
        · exact hF h1
        · omega
      · omega
    have hl : c.lastScJmp ≠ some n := by
      rw [hc.last]
      intro e
      rcases h.src n (List.mem_append_right _ (List.mem_of_getLast? e)) with h1 | h1
      · exact hF h1
      · omega
    rw [hnodes, if_neg hn', if_neg hl, hag n (by omega), h.frame n hn hF]
  · -- the list, with its new end
    have hone : IsChain (nextOf (linkNewNode ns c.lastScJmp id cmp result jmp)) (some id) [id] := by
      refine ⟨rfl, ?_⟩
      simp [nextOf, hnodes]
    cases hids' : ids with
    | nil =>
      have hl0 : c.lastScJmp = none := by rw [hc.last, hids']; rfl
      simp only [hl0] at hone ⊢
      exact hone
    | cons a l =>
      obtain ⟨z, hz⟩ : ∃ z, ids.getLast? = some z := by
        rw [hids']
        exact ⟨_, List.getLast?_eq_some_getLast (by simp)⟩
      rw [← hids']
      have hfirst : (c.lastScJmp.elim (some id) fun _ => c.firstScJmp) = c.firstScJmp := by
        rw [hc.last, hz]
        rfl
      simp only [hfirst]
      refine IsChain.append (by rw [hids']; simp) hids.1 hc.chain hone fun n hn => ?_
      have hne : n ≠ id := fun e => hnotid (e ▸ hn)
      have hlt := h.lt n hn
      unfold nextOf
      rw [hnodes, if_neg hne, hc.last]
      split
      · rw [hag n hlt, List.getElem?_eq_getElem hlt]
        rfl
      · rw [hag n hlt]
  · have hkeep : List.Forall₂ (Describes (linkNewNode ns c.lastScJmp id cmp result jmp)) ids P := by
      refine (List.forall₂_iff_get).mpr ⟨hc.nodes.length_eq, fun i hi hi' => ?_⟩
      obtain ⟨d, hd, hj⟩ := (List.forall₂_iff_get.mp hc.nodes).2 i hi hi'
      have hm := List.get_mem ids ⟨i, hi⟩
      have hne : ids.get ⟨i, hi⟩ ≠ id := fun e => hnotid (e ▸ hm)
      unfold Describes
      rw [hnodes, if_neg hne, hag _ (h.lt _ hm), hd]
      split
      · exact ⟨_, rfl, hj⟩
      · exact ⟨_, rfl, hj⟩
    exact List.rel_append hkeep (.cons ⟨⟨result, some jmp, cmp, none⟩, by simp [hnodes], rfl, rfl⟩ .nil)

/-! ## Changing the nodes of a list -/

/-- Nodes that are in use may be written. -/
theorem Uses.own (h : Uses F B F' ids B') (hf : B''.scJmpFreelist = B'.scJmpFreelist)
    (hi : B''.instrs = B'.instrs) (hl : B''.scJmps.length = B'.scJmps.length)
    (hag : ∀ n : Nat, n ∉ ids → B''.scJmps[n]? = B'.scJmps[n]?) : Uses F B F' ids B'' := by
  have hF : ∀ n ∈ F', n ∉ ids := fun n hn hm => (List.nodup_append.mp h.nodup).2.2 n hn n hm rfl
  refine ⟨⟨?_, h.arena.nodup, fun n hn => ?_, fun n hn d j hd hj => ?_⟩, h.nodup, h.src,
    fun n hn => ?_, ?_, fun n hn hF' => ?_⟩
  · rw [hf]
    exact h.arena.free.congr fun n hn => nextOf_congr (hag n (hF n hn))
  · rw [hl]
    exact h.arena.lt n hn
  · rw [hag n (hF n hn)] at hd
    unfold Targeted
    rw [hi]
    exact h.arena.old n hn d j hd hj
  · rw [hl]
    exact h.lt n hn
  · rw [hl]
    exact h.length
  · rw [hag n fun hm => ?_, h.frame n hn hF']
    rcases h.src n (List.mem_append_right _ hm) with h1 | h1
    · exact hF' h1
    · omega

theorem Describes.lt {n : Nat} {p : Nat × Bool} (h : Describes nodes n p) : nodes.length > n := by
  obtain ⟨d, hd, -⟩ := h
  exact (List.getElem?_eq_some_iff.mp hd).1

/-- A node that keeps its jump and its result. -/
theorem Describes.modify {n m : Nat} {p : Nat × Bool} {g : DeferredJmpcc → DeferredJmpcc}
    (h : Describes nodes n p) (hj : ∀ d, (g d).jmp = d.jmp) (hr : ∀ d, (g d).result = d.result) :
    Describes (nodes.modify m g) n p := by
  obtain ⟨d, hd, hdj, hdr⟩ := h
  unfold Describes
  rw [List.getElem?_modify, hd]
  by_cases e : m = n
  · exact ⟨g d, by simp [e], by rw [hj, hdj], by rw [hr, hdr]⟩
  · exact ⟨d, by simp [e], hdj, hdr⟩

/-- The first node goes back to the freelist. -/
theorem delDeferredScJmp_head {id : Nat} {p : Nat × Bool} (h : Uses F B F' (id :: ids) B')
    (hc : ScList B' c (id :: ids) (p :: P)) (hp : Targeted B' p.1) : ∃ c' B'',
    delDeferredScJmp c none id B' = some (c', B'') ∧ SameCode B' B'' ∧
    Uses F B (id :: F') ids B'' ∧ ScList B'' c' ids P ∧ c'.finalJmp = c.finalJmp := by
  have hnd : (id :: F' ++ ids).Nodup := List.perm_middle.nodup_iff.mp h.nodup
  have hidF : id ∉ F' ++ ids := (List.nodup_cons.mp hnd).1
  have hlt := h.lt id List.mem_cons_self
  have hget := List.getElem?_eq_getElem (l := B'.scJmps) hlt
  have hnext : (B'.scJmps[id]).next = nextOf B'.scJmps id := by rw [nextOf, hget]; rfl
  have hag : ∀ n, n ≠ id → (B'.scJmps.modify id fun n =>
      { n with next := B'.scJmpFreelist })[n]? = B'.scJmps[n]? := by
    intro n hn
    simp [Ne.symm hn]
  have hne : ∀ n ∈ ids, n ≠ id := by
    rintro n hn rfl
    exact hidF (List.mem_append_right _ hn)
  have hids : ScList B' { c with firstScJmp := nextOf B'.scJmps id, lastScJmp := ids.getLast? }
      ids P := by
    cases hc.nodes with
    | cons _ ht => exact ⟨hc.chain.2, rfl, ht⟩
  refine ⟨{ c with firstScJmp := nextOf B'.scJmps id, lastScJmp := ids.getLast? },
    { B' with
      scJmps := B'.scJmps.modify id fun n => { n with next := B'.scJmpFreelist }
      scJmpFreelist := some id }, ?_, ⟨_, _, rfl⟩,
    ⟨⟨⟨rfl, ?_⟩, List.nodup_cons.mpr ⟨fun hm => hidF (List.mem_append_left _ hm), h.arena.nodup⟩, ?_, ?_⟩,
      hnd, ?_, ?_, ?_, ?_⟩, ?_, rfl⟩
  · simp only [delDeferredScJmp, hget, bind, Option.bind, hnext]
    have hlast := hc.last
    cases hi : ids with
    | nil => simp [hlast, hi]
    | cons a l =>
      have hz : c.lastScJmp ≠ some id := by
        rw [hlast, hi, List.getLast?_cons_cons, ← hi]
        exact fun e => hne id (List.mem_of_getLast? e) rfl
      rw [hi, List.getLast?_cons_cons, ← hi] at hlast
      rw [if_neg hz]
      simp [← hi, ← hlast]
  · have hself : nextOf (B'.scJmps.modify id fun n => { n with next := B'.scJmpFreelist }) id =
        B'.scJmpFreelist := by simp [nextOf, hget]
    rw [hself]
    refine h.arena.free.congr fun n hn => nextOf_congr (hag n ?_)
    rintro rfl
    exact hidF (List.mem_append_left _ hn)
  · intro n hn
    simp only [List.length_modify]
    rcases List.mem_cons.mp hn with rfl | hm
    · exact hlt
    · exact h.arena.lt n hm
  · intro n hn d j hd hj
    rcases List.mem_cons.mp hn with rfl | hm
    · obtain ⟨d', hd', hj', -⟩ : Describes B'.scJmps n p := by
        cases hc.nodes with
        | cons h1 _ => exact h1
      simp only [List.getElem?_modify_eq, hd', Option.map_eq_map, Option.map_some,
        Option.some.injEq] at hd
      subst hd
      rw [hj'] at hj
      cases hj
      exact hp
    · rw [hag n (fun e => hidF (List.mem_append_left _ (e ▸ hm)))] at hd
      exact h.arena.old n hm d j hd hj
  · intro n hn
    refine h.src n ?_
    simp only [List.cons_append, List.mem_cons, List.mem_append] at hn ⊢
    tauto
  · intro n hn
    simp only [List.length_modify]
    exact h.lt n (List.mem_cons_of_mem _ hn)
  · simp only [List.length_modify]
    exact h.length
  · intro n hn hF
    rw [hag n ?_, h.frame n hn hF]
    rintro rfl
    rcases h.src n (by simp) with h1 | h1
    · exact hF h1
    · omega
  · exact hids.congr fun n hn => hag n (hne n hn)

/-- The second list is linked behind the first. -/
theorem movDeferredScJmpList_ok (h : Uses F B F' (ids ++ ids') B') (hc : ScList B' c ids P)
    (hc' : ScList B' c' ids' P') (hne : ids ≠ []) : ∃ c'' B'',
    movDeferredScJmpList c c' B' = some (c'', B'') ∧ SameCode B' B'' ∧
    Uses F B F' (ids ++ ids') B'' ∧ ScList B'' c'' (ids ++ ids') (P ++ P') ∧
    c''.finalJmp = c.finalJmp := by
  obtain ⟨a, l, rfl⟩ : ∃ a l, ids = a :: l := List.exists_cons_of_ne_nil hne
  obtain ⟨z, hz⟩ : ∃ z, (a :: l).getLast? = some z := ⟨_, List.getLast?_eq_some_getLast (by simp)⟩
  have hfirst : c.firstScJmp = some a := hc.chain.1
  cases ids' with
  | nil =>
    have hfirst' : c'.firstScJmp = none := hc'.chain
    have hP' : P' = [] := by
      cases hc'.nodes
      rfl
    subst hP'
    refine ⟨c, B', by simp only [movDeferredScJmpList, hfirst, hfirst']; rfl,
      ⟨_, _, rfl⟩, h, ?_, rfl⟩
    simpa using hc
  | cons b l' =>
    have hfirst' : c'.firstScJmp = some b := hc'.chain.1
    obtain ⟨z', hz'⟩ : ∃ z', (b :: l').getLast? = some z' :=
      ⟨_, List.getLast?_eq_some_getLast (by simp)⟩
    have hnd := List.nodup_append.mp (List.nodup_append.mp h.nodup).2.1
    have hzm : z ∈ a :: l := List.mem_of_getLast? hz
    have hlt := h.lt z (List.mem_append_left _ hzm)
    have hag : ∀ n : Nat, n ≠ z → (B'.scJmps.modify z fun n => { n with next := some b })[n]? =
        B'.scJmps[n]? := by
      intro n hn
      simp [Ne.symm hn]
    have hag' : ∀ n ∈ b :: l', (B'.scJmps.modify z fun n => { n with next := some b })[n]? =
        B'.scJmps[n]? := fun n hn => hag n fun e => hnd.2.2 z hzm n hn e.symm
    refine ⟨{ c with lastScJmp := c'.lastScJmp },
      { B' with scJmps := B'.scJmps.modify z fun n => { n with next := some b } }, ?_, ⟨_, _, rfl⟩,
      h.own rfl rfl (by simp) fun n hn => hag n fun e => hn (e ▸ List.mem_append_left _ hzm),
      ⟨?_, ?_, ?_⟩, rfl⟩
    · simp only [movDeferredScJmpList, hfirst, hfirst', hc.last, hz, hc'.last, hz', bind,
        StateT.bind, check, Option.isSome_some, if_true, pure, statePure_run, Option.bind, modify,
        modifyGet, MonadStateOf.modifyGet, StateT.modifyGet]
    · refine IsChain.append (by simp) hnd.1 hc.chain (hc'.chain.congr fun n hn =>
        nextOf_congr (hag' n hn)) fun n hn => ?_
      rw [hz, hfirst']
      by_cases e : n = z
      · subst e
        simp [nextOf, List.getElem?_eq_getElem hlt]
      · rw [if_neg (fun h => e (Option.some.inj h).symm)]
        exact nextOf_congr (hag n e)
    · rw [hc'.last, List.getLast?_append_of_ne_nil _ (by simp)]
    · refine List.rel_append ?_ ?_
      · exact hc.nodes.imp fun n p hd => hd.modify (fun _ => rfl) fun _ => rfl
      · exact hc'.nodes.imp fun n p hd => hd.modify (fun _ => rfl) fun _ => rfl

/-! ## Walking a list -/

/-- The nodes that the loops over a list visit. -/
theorem scJmpList_ok {fuel : Nat} (hc : ScList B c ids P) (hf : ids.length ≤ fuel) :
    ∃ L, scJmpList B.scJmps fuel c.firstScJmp = some L ∧ L.map Prod.fst = ids ∧
      List.Forall₂ (fun n p => n.2.jmp = some p.1 ∧ n.2.result = p.2) L P := by
  obtain ⟨hchain, -, hnodes⟩ := hc
  generalize c.firstScJmp = first at hchain
  induction hnodes generalizing first fuel with
  | nil =>
    have : first = none := hchain
    subst this
    exact ⟨[], by cases fuel <;> rfl, rfl, .nil⟩
  | @cons n p ids P hd _ ih =>
    obtain ⟨rfl, hrest⟩ := hchain
    obtain ⟨d, hd, hj, hr⟩ := hd
    cases fuel with
    | zero => simp at hf
    | succ fuel =>
      rw [nextOf, hd] at hrest
      obtain ⟨L, hL, hmap, hP⟩ := @ih fuel (by simpa using hf) _ hrest
      refine ⟨(n, d) :: L, ?_, by simp [hmap], .cons ⟨hj, hr⟩ hP⟩
      simp only [scJmpList, hd, Option.bind_eq_bind, Option.bind_some] at hL ⊢
      rw [hL]
      rfl

/-- Flipping the listed nodes. -/
theorem negScJmps_eq (L : List (Nat × DeferredJmpcc)) (hnd : (L.map Prod.fst).Nodup) : ∃ ns,
    negScJmps L B = some ((), { B with scJmps := ns }) ∧ ns.length = B.scJmps.length ∧
    ∀ n : Nat, ns[n]? = if n ∈ L.map Prod.fst then
      (B.scJmps[n]?).map fun d => { d with result := !d.result } else B.scJmps[n]? := by
  induction L generalizing B with
  | nil => exact ⟨B.scJmps, rfl, rfl, fun n => by simp⟩
  | cons x L ih =>
    obtain ⟨hx, hnd⟩ := List.nodup_cons.mp hnd
    obtain ⟨ns, hrun, hlen, hget⟩ := ih (B := { B with
      scJmps := B.scJmps.modify x.1 fun n => { n with result := !n.result } }) hnd
    refine ⟨ns, hrun, by simpa using hlen, fun n => ?_⟩
    rw [hget]
    by_cases hn : n = x.1
    · subst hn
      rw [if_neg hx, if_pos (by simp)]
      cases hb : B.scJmps[x.1]? <;> simp [hb]
    · have hx' : (B.scJmps.modify x.1 fun n => { n with result := !n.result })[n]? =
          B.scJmps[n]? := by simp [Ne.symm hn]
      simp only [List.map_cons, List.mem_cons, hn, false_or, hx']

theorem negScJmps_ok {L : List (Nat × DeferredJmpcc)} (h : Uses F B F' ids B')
    (hc : ScList B' c ids P) (hL : L.map Prod.fst = ids) : ∃ B'',
    negScJmps L B' = some ((), B'') ∧ SameCode B' B'' ∧ Uses F B F' ids B'' ∧
    ScList B'' c ids (P.map fun p => (p.1, !p.2)) := by
  obtain ⟨ns, hrun, hlen, hget⟩ := negScJmps_eq (B := B') L
    (by rw [hL]; exact (List.nodup_append.mp h.nodup).2.1)
  rw [hL] at hget
  refine ⟨_, hrun, ⟨_, _, rfl⟩, h.own rfl rfl hlen fun n hn => by rw [hget, if_neg hn],
    ⟨hc.chain.congr fun n hn => ?_, hc.last, ?_⟩⟩
  · simp only [nextOf, hget, if_pos hn]
    cases B'.scJmps[n]? <;> rfl
  · rw [List.forall₂_map_right_iff]
    refine (List.forall₂_iff_get).mpr ⟨hc.nodes.length_eq, fun i hi hi' => ?_⟩
    obtain ⟨d, hd, hj, hr⟩ := (List.forall₂_iff_get.mp hc.nodes).2 i hi hi'
    refine ⟨{ d with result := !d.result }, ?_, hj, by rw [← hr]⟩
    rw [hget, if_pos (List.get_mem ids ⟨i, hi⟩), hd]
    rfl

end

end Nibble.IR
