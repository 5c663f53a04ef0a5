import Nibble.IR.CondLost

/-!
# Where jumps get lost

The loop of `IR_emit_short_circuit_cmp` removes a node behind the first with
`prev` set to the node itself. The nodes that follow are cut off from the
list; the last of them is the jump that the operator has just added. An
expression in which some operator does this leaves a conditional jump without
a target, so the code of a condition is right exactly when none does.
-/

namespace Nibble.IR

open Nibble.Lib

variable {Q : List InstrId} {J n : Nat} {A : Nat → Prop} {it : Option Nat} {B B' B'' : ProcBuilder}
  {c c' : DeferredCmp} {node : DeferredJmpcc} {b b' : Nat} {fuel : Nat} {scVal : Bool}

theorem patchJmpTarget_nodes {j t : Nat} {u : Unit} (h : patchJmpTarget j t B = some (u, B')) :
    B'.scJmps = B.scJmps ∧ B'.scJmpFreelist = B.scJmpFreelist := by
  have hset : ∀ j i, Keeps (fun C => C.scJmps = B.scJmps ∧ C.scJmpFreelist = B.scJmpFreelist)
      (setInstr j i) fun _ => True := fun j i C u C' hC he => by
    cases he
    exact ⟨trivial, hC⟩
  have hnote : ∀ j, Keeps (fun C => C.scJmps = B.scJmps ∧ C.scJmpFreelist = B.scJmpFreelist)
      (notePatched j) fun _ => True := fun j C u C' hC he => by
    cases he
    exact ⟨trivial, hC⟩
  have hconn : ∀ p s, Keeps (fun C => C.scJmps = B.scJmps ∧ C.scJmpFreelist = B.scJmpFreelist)
      (connectBBlocks p s) fun _ => True := fun p s C u C' hC he => by
    simp only [connectBBlocks] at he
    split at he
    · cases he
      exact ⟨trivial, hC⟩
    · cases he
  have hall : Keeps (fun C => C.scJmps = B.scJmps ∧ C.scJmpFreelist = B.scJmpFreelist)
      (patchJmpTarget j t) fun _ => True := by
    refine Keeps.get_bind fun C _ => ?_
    split
    · exact (hset _ _).bind fun _ _ => (hnote _).bind fun _ _ => hconn _ _
    · exact (hset _ _).bind fun _ _ => (hnote _).bind fun _ _ => hconn _ _
    · exact .failure
  exact (hall B u B' ⟨rfl, rfl⟩ h).2

/-! ## One step of the loop -/

/-- The loop goes past a node. -/
theorem LostJmp.keep (h : LostJmp Q J A it B) (hn : B.scJmps[n]? = some node)
    (hj : node.jmp ≠ some J) (hit : ∀ m, it = some m → m = n) :
    LostJmp Q J (fun m => A m ∨ m = n) node.next B := by
  refine ⟨h.jump, h.unpatched, fun m hm => .inl (h.free m hm), fun m d hm hd => ?_,
    fun m hm => .inl (h.new m hm)⟩
  rcases hm with hm | rfl
  · obtain ⟨h1, h2⟩ := h.nodes m d hm hd
    exact ⟨fun k hk => .inl ((h1 k hk).imp id (hit k)), h2⟩
  · rw [hn] at hd
    cases hd
    exact ⟨fun k hk => .inr hk, hj⟩

/-- The loop removes a node, with `prev` the node itself: nothing leads past it any more. -/
theorem LostJmp.remove (h : LostJmp Q J A it B) (hn : B.scJmps[n]? = some node)
    (hj : node.jmp ≠ some J) (hit : ∀ m, it = some m → m = n)
    (hdel : delDeferredScJmp c (some n) n B = some (c', B')) :
    LostJmp Q J (fun m => A m ∨ m = n) none B' ∧ c'.firstScJmp = c.firstScJmp ∧
    ∀ m : Nat, m ≠ n → B'.scJmps[m]? = B.scJmps[m]? := by
  simp only [delDeferredScJmp, hn, Option.bind_eq_bind, Option.bind_some, Option.some.injEq,
    Prod.mk.injEq] at hdel
  obtain ⟨rfl, rfl⟩ := hdel
  refine ⟨⟨h.jump, h.unpatched, fun m hm => ?_, fun m d hm hd => ?_, fun m hm => ?_⟩, ?_,
    fun m hm => ?_⟩
  · cases hm
    exact .inr rfl
  · by_cases e : m = n
    · subst e
      simp only [List.getElem?_modify_eq, hn, Option.map_eq_map, Option.map_some,
        Option.some.injEq] at hd
      subst hd
      exact ⟨fun k hk => .inl (.inl (h.free k hk)), hj⟩
    · have hd' : B.scJmps[m]? = some d := by simpa [Ne.symm e] using hd
      obtain ⟨h1, h2⟩ := h.nodes m d (hm.resolve_right e) hd'
      exact ⟨fun k hk => .inl ((h1 k hk).imp id (hit k)), h2⟩
  · exact .inl (h.new m (by simpa using hm))
  · split <;> rfl
  · simp [Ne.symm hm]

theorem LostJmp.weaken (h : LostJmp Q J A none B) (it : Option Nat) : LostJmp Q J A it B :=
  ⟨h.jump, h.unpatched, h.free, fun n d hn hd => ⟨fun m hm => .inl
    (((h.nodes n d hn hd).1 m hm).resolve_right (by simp)), (h.nodes n d hn hd).2⟩, h.new⟩

/-! ## The loop -/

section Loop

variable {t : BBlockId} {rest : List Nat} {P : Pending}

theorem isChain_of_agree {nodes nodes' : List DeferredJmpcc} {i : Option Nat}
    (hc : IsChain (nextOf nodes) i rest) (hag : ∀ m ∈ rest, nodes'[m]? = nodes[m]?) :
    IsChain (nextOf nodes') i rest :=
  hc.congr fun m hm => nextOf_congr (hag m hm)

theorem describes_of_agree {nodes nodes' : List DeferredJmpcc}
    (hd : List.Forall₂ (Describes nodes) rest P) (hag : ∀ m ∈ rest, nodes'[m]? = nodes[m]?) :
    List.Forall₂ (Describes nodes') rest P := by
  refine (List.forall₂_iff_get).mpr ⟨hd.length_eq, fun i hi hi' => ?_⟩
  obtain ⟨d, h1, h2⟩ := (List.forall₂_iff_get.mp hd).2 i hi hi'
  exact ⟨d, (hag _ (List.get_mem rest ⟨i, hi⟩)).trans h1, h2⟩

/-- One iteration of the loop on the node `n`. -/
theorem patchOpposite_step {p : Nat × Bool} {prev : Option NodeId}
    (hn : B.scJmps[n]? = some node) (hj : node.jmp = some p.1) (hr : node.result = p.2)
    (hrun : patchOppositeScJmps t scVal (fuel + 1) c prev (some n) B = some (c', B')) :
    (p.2 = scVal ∧ patchOppositeScJmps t scVal fuel c node.next node.next B = some (c', B')) ∨
    (p.2 ≠ scVal ∧ ∃ B₁ c₂ B₂, patchJmpTarget p.1 t B = some ((), B₁) ∧
      delDeferredScJmp c prev n B₁ = some (c₂, B₂) ∧
      patchOppositeScJmps t scVal fuel c₂ node.next node.next B₂ = some (c', B')) := by
  rw [patchOppositeScJmps, bind_run _ _ get_run] at hrun
  simp only [hn, hr] at hrun
  by_cases hp : p.2 = scVal
  · rw [if_neg (not_not_intro hp)] at hrun
    exact .inl ⟨hp, hrun⟩
  · rw [if_pos hp] at hrun
    simp only [hj] at hrun
    obtain ⟨u, B₁, h1, hrun⟩ := bind_eq_some hrun
    obtain ⟨c₂, B₂, h2, hrun⟩ := bind_eq_some hrun
    exact .inr ⟨hp, B₁, c₂, B₂, h1, h2, hrun⟩

/-- Behind a removed node: the rest of the list cannot be reached any more. -/
theorem patchOpposite_behind (h : LostJmp Q J A none B) (hc : IsChain (nextOf B.scJmps) it rest)
    (hall : List.Forall₂ (Describes B.scJmps) rest P) (hnd : rest.Nodup)
    (hP : ∀ p ∈ P, p.2 ≠ scVal → p.1 ≠ J)
    (hrun : patchOppositeScJmps t scVal fuel c it it B = some (c', B')) :
    ∃ A', LostJmp Q J A' none B' ∧ (∀ n, A n → A' n) ∧ c'.firstScJmp = c.firstScJmp := by
  induction rest generalizing fuel A B c it P with
  | nil =>
    obtain rfl : it = none := hc
    have : some (c, B) = some (c', B') := by rw [← hrun]; cases fuel <;> rfl
    cases this
    exact ⟨A, h, fun _ hn => hn, rfl⟩
  | cons n rest ih =>
    obtain ⟨rfl, hrest⟩ := hc
    obtain ⟨p, P, hdn, hd, rfl⟩ := List.forall₂_cons_left_iff.mp hall
    obtain ⟨node, hn, hj, hr⟩ := hdn
    have hnext : nextOf B.scJmps n = node.next := by rw [nextOf, hn]; rfl
    rw [hnext] at hrest
    have hnrest : n ∉ rest := (List.nodup_cons.mp hnd).1
    cases fuel with
    | zero => cases hrun
    | succ fuel =>
      rcases patchOpposite_step hn hj hr hrun with ⟨-, hrun⟩ | ⟨hp, B₁, c₂, B₂, h1, h2, hrun⟩
      · exact ih h hrest hd (List.nodup_cons.mp hnd).2
          (fun q hq => hP q (List.mem_cons_of_mem _ hq)) hrun
      · have hpJ := hP p List.mem_cons_self hp
        obtain ⟨hn₁, hf₁⟩ := patchJmpTarget_nodes h1
        have h₁ := (patchJmpTarget_lost hpJ B () B₁ h h1).2
        obtain ⟨h₂, hf₂, hag⟩ := h₁.remove (by rw [hn₁]; exact hn) (by simpa [hj] using hpJ)
          (by simp) (h2 : delDeferredScJmp c (some n) n B₁ = _)
        have hag' : ∀ m ∈ rest, B₂.scJmps[m]? = B.scJmps[m]? := fun m hm => by
          rw [hag m fun e => hnrest (e ▸ hm), hn₁]
        obtain ⟨A', h', hsub, hf⟩ := ih h₂ (isChain_of_agree hrest hag')
          (describes_of_agree hd hag') (List.nodup_cons.mp hnd).2
          (fun q hq => hP q (List.mem_cons_of_mem _ hq)) hrun
        exact ⟨A', h', fun m hm => hsub m (.inl hm), hf.trans hf₂⟩

/-- A list with a jump to remove behind its first node: the jump at its end is lost. -/
theorem patchOpposite_loses (h : LostJmp Q J A it B) (hc : IsChain (nextOf B.scJmps) it rest)
    (hall : List.Forall₂ (Describes B.scJmps) rest P) (hnd : rest.Nodup)
    (hPnd : (P.map Prod.fst).Nodup) (hlast : P.getLast? = some (J, scVal))
    (hbad : ∃ p ∈ P, p.2 ≠ scVal)
    (hrun : patchOppositeScJmps t scVal fuel c it it B = some (c', B')) :
    ∃ A', LostJmp Q J A' none B' ∧ (∀ n, A n ∨ it = some n → A' n) ∧
      c'.firstScJmp = c.firstScJmp := by
  induction rest generalizing fuel A B c it P with
  | nil =>
    cases hall
    simp at hbad
  | cons n rest ih =>
    obtain ⟨rfl, hrest⟩ := hc
    obtain ⟨p, P, hdn, hd, rfl⟩ := List.forall₂_cons_left_iff.mp hall
    obtain ⟨node, hn, hj, hr⟩ := hdn
    have hnext : nextOf B.scJmps n = node.next := by rw [nextOf, hn]; rfl
    rw [hnext] at hrest
    have hnrest : n ∉ rest := (List.nodup_cons.mp hnd).1
    have hne : P ≠ [] := by
      rintro rfl
      obtain ⟨q, hq, hqb⟩ := hbad
      rw [List.mem_singleton] at hq
      simp only [List.getLast?_singleton, Option.some.injEq] at hlast
      rw [hq, hlast] at hqb
      exact hqb rfl
    have hlast' : P.getLast? = some (J, scVal) := by
      obtain ⟨q, P', rfl⟩ := List.exists_cons_of_ne_nil hne
      rwa [List.getLast?_cons_cons] at hlast
    have hJ : J ∈ P.map Prod.fst := List.mem_map_of_mem (List.mem_of_getLast? hlast')
    have hpJ : p.1 ≠ J := fun e => (List.nodup_cons.mp hPnd).1 (e ▸ hJ)
    cases fuel with
    | zero => cases hrun
    | succ fuel =>
      rcases patchOpposite_step hn hj hr hrun with ⟨hp, hrun⟩ | ⟨hp, B₁, c₂, B₂, h1, h2, hrun⟩
      · have hbad' : ∃ q ∈ P, q.2 ≠ scVal := by
          obtain ⟨q, hq, hqb⟩ := hbad
          rcases List.mem_cons.mp hq with rfl | hq
          · exact absurd hp hqb
          · exact ⟨q, hq, hqb⟩
        obtain ⟨A', h', hsub, hf⟩ := ih (h.keep hn (by simpa [hj] using hpJ) (by simp)) hrest hd
          (List.nodup_cons.mp hnd).2 (List.nodup_cons.mp hPnd).2 hlast' hbad' hrun
        refine ⟨A', h', fun m hm => hsub m (.inl ?_), hf⟩
        rcases hm with hm | hm
        · exact .inl hm
        · cases hm
          exact .inr rfl
      · obtain ⟨hn₁, hf₁⟩ := patchJmpTarget_nodes h1
        have h₁ := (patchJmpTarget_lost hpJ B () B₁ h h1).2
        obtain ⟨h₂, hf₂, hag⟩ := h₁.remove (by rw [hn₁]; exact hn) (by simpa [hj] using hpJ)
          (by simp) h2
        have hag' : ∀ m ∈ rest, B₂.scJmps[m]? = B.scJmps[m]? := fun m hm => by
          rw [hag m fun e => hnrest (e ▸ hm), hn₁]
        have hPJ : ∀ q ∈ P, q.2 ≠ scVal → q.1 ≠ J := by
          rintro q hq hqb e
          have hmem := List.mem_of_getLast? hlast'
          have : q = (J, scVal) :=
            List.inj_on_of_nodup_map (List.nodup_cons.mp hPnd).2 hq hmem e
          exact hqb (by rw [this])
        obtain ⟨A', h', hsub, hf⟩ := patchOpposite_behind h₂ (isChain_of_agree hrest hag')
          (describes_of_agree hd hag') (List.nodup_cons.mp hnd).2 hPJ hrun
        refine ⟨A', h', fun m hm => hsub m ?_, hf.trans hf₂⟩
        rcases hm with hm | hm
        · exact .inl hm
        · cases hm
          exact .inr rfl

end Loop

/-! ## Merging a left operand -/

section Merge

variable {sem : Env → Store → Store × Bool} {F F' ids : List Nat} {P : Pending} {lc : DeferredCmp}

/-- The nodes of `O` are in lists of their own. -/
structure InUse (O : Nat → Prop) (F : List Nat) (B : ProcBuilder) : Prop where
  lt : ∀ n, O n → B.scJmps.length > n
  notFree : ∀ n, O n → n ∉ F
  nodes : ∀ n d, O n → B.scJmps[n]? = some d →
    (∀ m, d.next = some m → O m) ∧ ∀ j, d.jmp = some j → B.instrs.length > j

theorem InUse.empty (F : List Nat) (B : ProcBuilder) : InUse (fun _ => False) F B :=
  ⟨fun _ hn => hn.elim, fun _ hn => hn.elim, fun _ _ hn => hn.elim⟩

theorem InUse.frame {O : Nat → Prop} (h : InUse O F B) (hu : Uses F B F' ids B') (hn : O n) :
    B'.scJmps[n]? = B.scJmps[n]? :=
  hu.frame n (h.lt n hn) (h.notFree n hn)

/-- A list that emission has built is in use as well. -/
theorem InUse.extend {O : Nat → Prop} (h : InUse O F B) (hu : Uses F B F' ids B')
    (hl : ScList B' c ids P) (hlen : B.instrs.length ≤ B'.instrs.length)
    (hP : ∀ j ∈ P.map Prod.fst, B'.instrs.length > j) :
    InUse (fun n => O n ∨ n ∈ ids) F' B' := by
  have hlen' := hu.length
  refine ⟨fun n hn => ?_, fun n hn hF => ?_, fun n d hn hd => ?_⟩
  · rcases hn with hn | hn
    · have := h.lt n hn
      omega
    · exact hu.lt n hn
  · rcases hn with hn | hn
    · have := h.lt n hn
      rcases hu.src n (List.mem_append_left _ hF) with h1 | h1
      · exact h.notFree n hn h1
      · omega
    · exact (List.nodup_append.mp hu.nodup).2.2 n hF n hn rfl
  · rcases hn with hn | hn
    · rw [h.frame hu hn] at hd
      obtain ⟨h1, h2⟩ := h.nodes n d hn hd
      exact ⟨fun m hm => .inl (h1 m hm), fun j hj => (h2 j hj).trans_le hlen⟩
    · refine ⟨fun m hm => .inr (hl.chain.next_mem hn (by rw [nextOf, hd]; exact hm)), fun j hj => ?_⟩
      obtain ⟨i, hi, rfl⟩ := List.getElem_of_mem hn
      obtain ⟨d', hd', hj', -⟩ := (List.forall₂_iff_get.mp hl.nodes).2 i hi
        (hl.nodes.length_eq ▸ hi)
      have hdd : d' = d := by
        have : some d' = some d := hd'.symm.trans hd
        injection this
      rw [hdd, hj] at hj'
      injection hj' with hj'
      rw [hj']
      exact hP _ (List.mem_map_of_mem (List.get_mem _ _))

/-- The nodes that emission has in hand besides those of a list cannot lead to a pending jump. -/
theorem lostJmp_of_uses {O : Nat → Prop} {j : Nat} (hO : InUse O F B) (hu : Uses F B F' ids B')
    (hc : CondSpec sem b B b' B' P (fun _ => False) fun _ _ _ => True) (hj : j ∈ P.map Prod.fst) :
    LostJmp B.patched j (fun n => O n ∨ n ∈ F' ∨ B'.scJmps.length ≤ n) none B' := by
  obtain ⟨s, f, a, hx⟩ := hc.pend j hj
  obtain ⟨l, hl, -, hcount⟩ := hc.code.patches
  have hlow := (hc.code.range j (.inl hj)).1
  refine ⟨⟨s, f, a, hx⟩, ⟨l, hl, ?_⟩, fun n hn => .inr (.inl ?_), fun n d hn hd => ?_,
    fun n hn => .inr (.inr hn)⟩
  · exact List.count_eq_zero.mp ((hcount j s none f a hlow hx).1 (.inl hj))
  · have hhead := hu.arena.free.head
    rw [hn] at hhead
    exact List.mem_of_head? hhead.symm
  · rcases hn with hn | hn | hn
    · rw [hO.frame hu hn] at hd
      obtain ⟨h1, h2⟩ := hO.nodes n d hn hd
      refine ⟨fun m hm => .inl (.inl (h1 m hm)), fun e => ?_⟩
      have := h2 j e
      omega
    · refine ⟨fun m hm => .inl (.inr (.inl ?_)), fun e => ?_⟩
      · exact hu.arena.free.next_mem hn (by rw [nextOf, hd]; exact hm)
      · obtain ⟨s', t', f', a', hx'⟩ := hu.arena.old n hn d j hd e
        rw [hx] at hx'
        cases hx'
    · rw [List.getElem?_eq_none hn] at hd
      cases hd

/-- If a jump has to be removed behind the first one, the jump added by the operator is lost. -/
theorem mergeLeft_loses {O : Nat → Prop} {b₃ : BBlockId} {B₃ : ProcBuilder} (hO : InUse O F B)
    (hu : Uses F B F' ids B') (hl : ScList B' lc ids P) (hj : JumpSpec sem b B b' B' P lc.finalJmp)
    (hbad : ∃ p ∈ P.tail, p.2 ≠ scVal)
    (hrun : mergeLeft fuel scVal b' lc B' = some ((c, b₃), B₃)) : ∃ J A,
    B.instrs.length ≤ J ∧ LostJmp B.patched J A none B₃ ∧ c.Reachable A ∧
    ∀ n, O n → A n := by
  obtain ⟨d, b₂, B₁, hcopy, hj₁, hres, ⟨j, hdj⟩, hn₁⟩ := copyScJmp_ok hj scVal
  obtain ⟨c₁, B₁', F₁, id, hnew, hs₁, hu₁, hl₁, -⟩ :=
    newDeferredScJmp_ok d.cmp j scVal (hn₁.uses hu) (hn₁.scList hl)
  rw [mergeLeft, bind_run _ _ hcopy] at hrun
  simp only [hdj, hres] at hrun
  rw [bind_run _ _ hnew] at hrun
  obtain ⟨c₂, B₂, hloop, hpure⟩ := bind_eq_some hrun
  cases hpure
  have hc : CondSpec sem b B b₃ B₁' (P ++ [(j, scVal)]) (fun _ => False) fun _ _ _ => True := by
    rw [← hres]
    exact ((hj₁.asPending hdj).sameCode hs₁).imp fun _ _ _ _ _ => trivial
  have hlost := lostJmp_of_uses hO hu₁ hc (by simp : j ∈ (P ++ [(j, scVal)]).map Prod.fst)
  -- the list is not empty
  obtain ⟨p, P, rfl⟩ : ∃ p P', P = p :: P' := by
    cases P with
    | nil => simp at hbad
    | cons p P => exact ⟨p, P, rfl⟩
  obtain ⟨n, ids, rfl⟩ : ∃ n ids', ids = n :: ids' := by
    cases hl.nodes with
    | cons => exact ⟨_, _, rfl⟩
  have hfirst : c₁.firstScJmp = some n := hl₁.chain.1
  have hchain : IsChain (nextOf B₁'.scJmps) (nextOf B₁'.scJmps n) (ids ++ [id]) := hl₁.chain.2
  obtain ⟨⟨node, hn, hnj, hnr⟩, hdesc⟩ :
      Describes B₁'.scJmps n p ∧ List.Forall₂ (Describes B₁'.scJmps) (ids ++ [id]) (P ++ [(j, scVal)]) := by
    cases hl₁.nodes with
    | cons h1 h2 => exact ⟨h1, h2⟩
  have hnd : (n :: (ids ++ [id])).Nodup := (List.nodup_append.mp hu₁.nodup).2.1
  have hPnd : (p.1 :: (P ++ [(j, scVal)]).map Prod.fst).Nodup := hc.nodup
  have hpJ : p.1 ≠ j := fun e => (List.nodup_cons.mp hPnd).1 (by simp [e])
  have hnext : nextOf B₁'.scJmps n = node.next := by rw [nextOf, hn]; rfl
  rw [hnext] at hchain
  have hbad' : ∃ q ∈ P ++ [(j, scVal)], q.2 ≠ scVal := by
    obtain ⟨q, hq, hqb⟩ := hbad
    exact ⟨q, List.mem_append_left _ hq, hqb⟩
  have hlow := (hc.code.range j (.inl (by simp))).1
  rw [hfirst] at hloop
  cases fuel with
  | zero => cases hloop
  | succ fuel =>
    rcases patchOpposite_step hn hnj hnr hloop with ⟨hp, hloop⟩ | ⟨hp, C₁, c₂, C₂, h1, h2, hloop⟩
    · -- the first node is kept
      have hk := (hlost.weaken (some n)).keep hn (by simpa [hnj] using hpJ) (by simp)
      obtain ⟨A', h', hsub, hf⟩ := patchOpposite_loses hk hchain hdesc
        (List.nodup_cons.mp hnd).2 (List.nodup_cons.mp hPnd).2 (by simp) hbad' hloop
      refine ⟨j, A', hlow, h', fun m hm => ?_, fun m hm => hsub m (.inl (.inl (.inl hm)))⟩
      rw [hf, hfirst] at hm
      cases hm
      exact hsub n (.inl (.inr rfl))
    · -- the first node is removed
      obtain ⟨hn₁', hf₁'⟩ := patchJmpTarget_nodes h1
      have h₁ := (patchJmpTarget_lost hpJ B₁' () C₁ hlost h1).2
      have hn' : C₁.scJmps[n]? = some node := by rw [hn₁']; exact hn
      simp only [delDeferredScJmp, hn', Option.bind_eq_bind, Option.bind_some, Option.some.injEq,
        Prod.mk.injEq] at h2
      obtain ⟨rfl, rfl⟩ := h2
      have hremove : delDeferredScJmp c₁ (some n) n C₁ = some
          (if c₁.lastScJmp = some n then { c₁ with lastScJmp := some n } else c₁,
          { C₁ with
            scJmps := (C₁.scJmps.modify n fun k => { k with next := node.next }).modify n
              fun k => { k with next := C₁.scJmpFreelist }
            scJmpFreelist := some n }) := by
        simp only [delDeferredScJmp, hn', Option.bind_eq_bind, Option.bind_some]
      have hmod : ((C₁.scJmps.modify n fun k => { k with next := node.next }).modify n
          fun k => { k with next := C₁.scJmpFreelist }) =
          C₁.scJmps.modify n fun k => { k with next := C₁.scJmpFreelist } := by
        rw [List.modify_modify_eq]
        rfl
      rw [hmod] at hremove
      obtain ⟨h₂, -, hag⟩ := h₁.remove hn' (by simpa [hnj] using hpJ) (by simp) hremove
      have hag' : ∀ m ∈ ids ++ [id], (C₁.scJmps.modify n fun k =>
          { k with next := C₁.scJmpFreelist })[m]? = B₁'.scJmps[m]? := fun m hm => by
        rw [hag m fun e => (List.nodup_cons.mp hnd).1 (e ▸ hm), hn₁']
      obtain ⟨A', h', hsub, hf⟩ := patchOpposite_loses (h₂.weaken node.next)
        (isChain_of_agree hchain hag') (describes_of_agree hdesc hag')
        (List.nodup_cons.mp hnd).2 (List.nodup_cons.mp hPnd).2 (by simp) hbad' hloop
      refine ⟨j, A', hlow, h', fun m hm => ?_, fun m hm => hsub m (.inl (.inl (.inl hm)))⟩
      rw [hf] at hm
      refine hsub m (.inr ?_)
      split at hm <;> exact hm

end Merge

/-! ## Expressions -/

section Expressions

variable {F F₁ : List Nat} {O : Nat → Prop} {er er₁ : ExprResult} {l r e : BExpr} {b₁ : Nat}
  {B₁ : ProcBuilder}

/-- From `B` to `B'`, with the result `er`, emission has lost a jump. The nodes of `O` do not
describe it. -/
def Loses (O : Nat → Prop) (B : ProcBuilder) (er : ExprResult) (B' : ProcBuilder) : Prop :=
  ∃ J A, B.instrs.length ≤ J ∧ LostJmp B.patched J A none B' ∧ er.Safe J A ∧ ∀ n, O n → A n

/-- What comes after the left operand does not find the jump again. -/
theorem loses_of_left {emitR : BBlockId → Build (BBlockId × ExprResult)} {c : DeferredCmp}
    (hJ : B.instrs.length ≤ J) (h : LostJmp B.patched J A none B₁) (hc : c.Reachable A)
    (hO : ∀ n, O n → A n) (hR : KeepsLost B.patched J A none (emitR b₁) fun p => p.2.Safe J A)
    (hrun : (do
      let (rightEnd, right) ← emitR b₁
      check right.type.isBool
      rightOperand c rightEnd right) B₁ = some ((b', er), B')) : Loses O B er B' := by
  have hk : KeepsLost B.patched J A none (do
      let (rightEnd, right) ← emitR b₁
      check right.type.isBool
      rightOperand c rightEnd right) fun p => p.2.Safe J A :=
    hR.bind fun _ hr => (check_lost _).bind fun _ _ => rightOperand_lost hc hr
  obtain ⟨hs, h'⟩ := hk _ _ _ h hrun
  exact ⟨J, A, hJ, h', hs, hO⟩

/-- The right operand has lost a jump. The pending jumps of the left operand are older. -/
theorem loses_of_right {emitR : BBlockId → Build (BBlockId × ExprResult)} {c : DeferredCmp}
    {vals : List Bool} {ids : List Nat} {P : Pending}
    (hl : LeftSpec (fun env => l.sem env) scVal b B F vals c b₁ B₁ F₁ ids P)
    (hR : ∀ b' er B', emitR b₁ B₁ = some ((b', er), B') →
      Loses (fun n => O n ∨ n ∈ ids) B₁ er B')
    (hrun : (do
      let (rightEnd, right) ← emitR b₁
      check right.type.isBool
      rightOperand c rightEnd right) B₁ = some ((b', er), B')) : Loses O B er B' := by
  obtain ⟨⟨b₂, er₂⟩, B₂, h₂, hrest⟩ := bind_eq_some hrun
  obtain ⟨J, A, hJ, hlost, hs, hA⟩ := hR _ _ _ h₂
  have hlen := hl.cond.code.emits.instrs.length_le
  obtain ⟨q, hq, hqlt, -⟩ := hl.cond.code.patches
  have hlost' : LostJmp B.patched J A none B₂ := by
    obtain ⟨q', hq', hJq⟩ := hlost.unpatched
    refine ⟨hlost.jump, ⟨q ++ q', by rw [hq', hq, List.append_assoc], fun hm => ?_⟩, hlost.free,
      hlost.nodes, hlost.new⟩
    rcases List.mem_append.mp hm with hm | hm
    · have := hqlt J hm
      omega
    · exact hJq hm
  have hc : c.Reachable A := fun n hn => by
    have hhead := hl.list.chain.head
    rw [hn] at hhead
    exact hA n (.inr (List.mem_of_head? hhead.symm))
  have hk : KeepsLost B.patched J A none (do
      check er₂.type.isBool
      rightOperand c b₂ er₂) fun p => p.2.Safe J A :=
    (check_lost _).bind fun _ _ => rightOperand_lost hc hs
  obtain ⟨hs', h'⟩ := hk _ _ _ hlost' hrest
  exact ⟨J, A, by omega, h', hs', fun n hn => hA n (.inl hn)⟩

/-- An operator loses a jump if its left operand does, if its right operand does, or if it has to
remove a jump behind the first one. -/
theorem emitShortCircuitCmp_loses (hO : InUse O F B) (ha : Arena B F) (ho : B.IsOpen b)
    (hf : l.size < fuel)
    (ihl : l.removesFirstOnly = false → ∀ b' er B', emitBExpr fuel l b B = some ((b', er), B') →
      Loses O B er B')
    (ihr : r.removesFirstOnly = false → ∀ O b B F, InUse O F B → Arena B F → B.IsOpen b →
      ∀ b' er B', emitBExpr fuel r b B = some ((b', er), B') → Loses O B er B')
    (hbad : (l.removesFirstOnly && r.removesFirstOnly && l.pending.tail.all (· == scVal)) = false)
    (hrun : emitShortCircuitCmp fuel scVal (emitBExpr fuel l) (emitBExpr fuel r) b B =
      some ((b', er), B')) : Loses O B er B' := by
  rw [emitShortCircuitCmp] at hrun
  obtain ⟨⟨b₁, er₁⟩, B₁, h₁, hrun₁⟩ := bind_eq_some hrun
  obtain ⟨_, B₁', hck, hrun₂⟩ := bind_eq_some hrun₁
  obtain ⟨⟨c, b₂⟩, B₂, hleft, hrest⟩ := bind_eq_some hrun₂
  by_cases hl : l.removesFirstOnly = true
  · obtain ⟨b₁', er₁', B₁'', F₁, h₁', ht, hok⟩ := emitBExpr_ok l hl hf.le b B F ha ho
    obtain ⟨⟨⟨⟩, ⟨⟩⟩, ⟨⟩⟩ : ((b₁', er₁'), B₁'') = ((b₁, er₁), B₁) := by
      injection h₁'.symm.trans h₁
    obtain rfl : B₁' = B₁ := by
      have hb : er₁.type.isBool = true := by rw [ht]; rfl
      rw [check_eq hb] at hck
      cases hck
      rfl
    have hlen := l.pending_length_lt
    by_cases htail : ∀ v ∈ l.pending.tail, v = scVal
    · have hr : r.removesFirstOnly = false := by
        have : l.pending.tail.all (· == scVal) = true := by simpa using htail
        simpa [hl, this] using hbad
      obtain ⟨c', b₂', B₂', F₂, ids, P, hleft', hspec⟩ := leftOperand_ok hok ht htail
        (by omega : l.pending.length < fuel)
      obtain ⟨⟨⟨⟩, ⟨⟩⟩, ⟨⟩⟩ : ((c', b₂'), B₂') = ((c, b₂), B₂) := by injection hleft'.symm.trans hleft
      have hlen₂ := hspec.cond.code.emits.instrs.length_le
      have hO₂ := hO.extend hspec.uses hspec.list hlen₂ fun j hj =>
        (hspec.cond.code.range j (.inl hj)).2
      exact loses_of_right hspec (ihr hr _ _ _ _ hO₂ hspec.uses.arena hspec.cond.code.isOpen) hrest
    · cases hok with
      | value l => exact absurd (by simp [BExpr.pending]) htail
      | deferred _ he lc ids P kind uses list vals jump sense =>
        have hbadP : ∃ p ∈ P.tail, p.2 ≠ scVal := by
          by_contra hno
          refine htail fun v hv => ?_
          rw [← vals, ← List.map_tail] at hv
          obtain ⟨p, hp, rfl⟩ := List.mem_map.mp hv
          by_contra hne
          exact hno ⟨p, hp, hne⟩
        rw [leftOperand, kind] at hleft
        obtain ⟨J, A, hJ, hlost, hc, hA⟩ := mergeLeft_loses hO uses list jump hbadP hleft
        exact loses_of_left hJ hlost hc hA (emitBExpr_lost r) hrest
  · obtain ⟨J, A, hJ, hlost, hs, hA⟩ := ihl (by simpa using hl) _ _ _ h₁
    have h₁' := ((check_lost _) _ _ _ hlost hck).2
    obtain ⟨hc, h₂⟩ := leftOperand_lost hs _ _ _ h₁' hleft
    exact loses_of_left hJ h₂ hc hA (emitBExpr_lost r) hrest

theorem emitBExpr_loses (e : BExpr) (hbad : e.removesFirstOnly = false) (hf : e.size ≤ fuel)
    (hO : InUse O F B) (ha : Arena B F) (ho : B.IsOpen b)
    (hrun : emitBExpr fuel e b B = some ((b', er), B')) : Loses O B er B' := by
  induction e generalizing O b B F b' er B' with
  | leaf | cmp => cases hbad
  | not e ih =>
    rw [emitBExpr] at hrun
    obtain ⟨⟨b₁, er₁⟩, B₁, h₁, hrun⟩ := bind_eq_some hrun
    obtain ⟨J, A, hJ, hlost, hs, hA⟩ := ih hbad (Nat.le_of_succ_le hf) hO ha ho h₁
    obtain ⟨hs', h'⟩ := emitLogicNot_lost hs _ _ _ hlost hrun
    exact ⟨J, A, hJ, h', hs', hA⟩
  | and l r ihl ihr =>
    simp only [BExpr.size] at hf
    refine emitShortCircuitCmp_loses hO ha ho (by omega)
      (fun hl _ _ _ => ihl hl (by omega) hO ha ho)
      (fun hr _ _ _ _ hO ha ho _ _ _ => ihr hr (by omega) hO ha ho) ?_ hrun
    simpa [BExpr.removesFirstOnly] using hbad
  | or l r ihl ihr =>
    simp only [BExpr.size] at hf
    refine emitShortCircuitCmp_loses hO ha ho (by omega)
      (fun hl _ _ _ => ihl hl (by omega) hO ha ho)
      (fun hr _ _ _ _ hO ha ho _ _ _ => ihr hr (by omega) hO ha ho) ?_ hrun
    simpa [BExpr.removesFirstOnly] using hbad

end Expressions

end Nibble.IR
