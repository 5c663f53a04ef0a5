import Mathlib.Data.List.Induction
import Nibble.IR.DeadRound

/-!
# When dead block removal keeps all paths

`IR_rm_dead_bblocks` keeps the paths of a graph exactly when every block it can
remove has a target and no predecessor that ends in a switch, and no silent
loop of such blocks can be reached. A loop of blocks that only jump is threaded
until one block jumps to itself; that block is removed all the same, and its
predecessors jump to nowhere.
-/

namespace Nibble.IR

open Nibble.Lib Nibble.Lib.Flow

variable {B B' : ProcBuilder} {arr arr' : List BBlockId} {b s x : BBlockId}

/-- Control can get into a loop of removable blocks. -/
def Spins (B : ProcBuilder) (arr : List BBlockId) (s : BBlockId) : Prop :=
  ∃ S : BBlockId → Prop, Loops (B.graph arr) S ∧ (∀ x, S x → x ∈ arr ∧ B.Removable x) ∧
    ∃ c cs tr, S c ∧ Reach (B.graph arr) (some s) cs tr (some c)

/-- From `g` to `g'` paths are kept, or one of them has come to end in nowhere. -/
structure Outcome (g g' : FlowGraph BBlockId InstrId) (s : BBlockId) (spins : Prop) : Prop where
  mono : ∀ cs tr o, Runs g (some s) cs tr o → Runs g' (some s) cs tr o
  same : ¬ spins → SamePaths g g' (some s)
  lost : spins → ∃ cs tr, Runs g' (some s) cs tr (some .wrong) ∧ ¬ Runs g (some s) cs tr (some .wrong)

/-- One round does to the graph what a later outcome can build on. -/
structure Round (B : ProcBuilder) (arr : List BBlockId) (s : BBlockId) (B' : ProcBuilder)
    (arr' : List BBlockId) : Prop where
  mono : ∀ cs tr o, Runs (B.graph arr) (some s) cs tr o → Runs (B'.graph arr') (some s) cs tr o
  same : ¬ Spins B arr s → SamePaths (B.graph arr) (B'.graph arr') (some s) ∧ ¬ Spins B' arr' s
  lost : Spins B arr s → Spins B' arr' s ∨ ∃ cs tr, Runs (B'.graph arr') (some s) cs tr (some .wrong) ∧
    ¬ Runs (B.graph arr) (some s) cs tr (some .wrong)

theorem Round.outcome {g : FlowGraph BBlockId InstrId} (h : Round B arr s B' arr')
    (h' : Outcome (B'.graph arr') g s (Spins B' arr' s)) :
    Outcome (B.graph arr) g s (Spins B arr s) := by
  refine ⟨fun cs tr o hr => h'.mono cs tr o (h.mono cs tr o hr), fun hno => ?_, fun hs => ?_⟩
  · obtain ⟨h1, h2⟩ := h.same hno
    exact h1.trans (h'.same h2)
  · rcases h.lost hs with hs' | ⟨cs, tr, h1, h2⟩
    · obtain ⟨cs, tr, h1, h2⟩ := h'.lost hs'
      exact ⟨cs, tr, h1, fun hr => h2 (h.mono _ _ _ hr)⟩
    · exact ⟨cs, tr, h'.mono _ _ _ h1, h2⟩

theorem round_of_threads {t : BBlockId} (h : Threads b t (B.graph arr) (B'.graph arr'))
    (hb : b ∈ arr) (hr : B.Removable b) (hs : s ≠ b) (hmem : ∀ y, y ∈ arr' ↔ y ∈ arr ∧ y ≠ b)
    (hrem : ∀ x ∈ arr', (B'.Removable x ↔ B.Removable x)) : Round B arr s B' arr' := by
  have hsome : (some s).map (redirect b t) = some s := by
    rw [Option.map_some, redirect_other hs]
  have hgone : ∀ {z n}, B'.graph arr' z = some n → z ∈ arr' := by
    intro z n hz
    unfold ProcBuilder.graph at hz
    split at hz
    · assumption
    · cases hz
  refine ⟨fun cs tr o hrun => hsome ▸ h.runs hrun, fun hno => ?_, fun hsp => ?_⟩
  · -- a block that jumps to itself and can be reached would be a loop
    have ha : Avoids (B.graph arr) b t (some s) := by
      refine ⟨fun e => hs (Option.some.inj e), ?_⟩
      rintro rfl cs tr hreach
      refine hno ⟨fun z => z = t, ?_, ?_, t, cs, tr, rfl, hreach⟩
      · rintro z rfl
        exact ⟨z, h.jump, rfl⟩
      · rintro z rfl
        exact ⟨hb, hr⟩
    refine ⟨h.samePaths ha, ?_⟩
    rintro ⟨S, hS, hSr, c, cs, tr, hc, hreach⟩
    obtain ⟨S', hS', hsub, hsup⟩ := h.loops_back hS
    refine hno ⟨S', hS', fun z hz => ?_, c, cs, tr, hsub c hc, (h.reach_back hreach ha).1⟩
    rcases hsup z hz with hz | rfl
    · obtain ⟨h1, h2⟩ := hSr z hz
      exact ⟨((hmem z).mp h1).1, (hrem z h1).mp h2⟩
    · exact ⟨hb, hr⟩
  · obtain ⟨S, hS, hSr, c, cs, tr, hc, hreach⟩ := hsp
    rcases h.loops hS hc hreach with ⟨S', hsub, hS', c', hc', hreach'⟩ | hw
    · rw [hsome] at hreach'
      refine .inl ⟨S', hS', fun z hz => ?_, c', cs, tr, hc', hreach'⟩
      obtain ⟨u, hu, -⟩ := hS' z hz
      have hz' := hgone hu
      exact ⟨hz', (hrem z hz').mpr (hSr z (hsub z hz)).2⟩
    · rw [hsome] at hw
      exact .inr ⟨cs, tr, hw, hS.not_runs hc hreach⟩

theorem round_of_drops (h : Drops b (B.graph arr) (B.graph arr')) (hmem : ∀ y, y ∈ arr' ↔ y ∈ arr ∧ y ≠ b) :
    Round B arr s B arr' := by
  refine ⟨fun cs tr o => (h.samePaths cs tr o).mp, fun hno => ⟨h.samePaths, ?_⟩, fun hsp => ?_⟩
  · rintro ⟨S, hS, hSr, c, cs, tr, hc, hreach⟩
    exact hno ⟨S, h.loops_back hS, fun z hz => ⟨((hmem z).mp (hSr z hz).1).1, (hSr z hz).2⟩, c, cs, tr,
      hc, h.reach_iff.mpr hreach⟩
  · obtain ⟨S, hS, hSr, c, cs, tr, hc, hreach⟩ := hsp
    refine .inl ⟨S, h.loops hS, fun z hz => ⟨(hmem z).mpr ⟨(hSr z hz).1, ?_⟩, (hSr z hz).2⟩, c, cs, tr,
      hc, h.reach_iff.mp hreach⟩
    rintro rfl
    obtain ⟨u, hu, -⟩ := hS z hz
    rw [h.empty] at hu
    cases hu

/-! ## One round -/

/-- A block that stays has an instruction, and is not one that can be removed. -/
structure Stays (B : ProcBuilder) (b : BBlockId) : Prop where
  nonempty : ∃ bb, B.bblocks[b]? = some bb ∧ bb.instrs ≠ []
  kept : ¬ B.Removable b

theorem graph_of_empty {bb : BBlock} (hb : b ∈ arr) (hbb : B.bblocks[b]? = some bb)
    (he : bb.instrs = []) : B.graph arr b = some ⟨[], .fall⟩ := by
  unfold ProcBuilder.graph
  rw [if_pos hb, hbb, Option.map_some, ProcBuilder.node, he]
  rfl

theorem drops_of_empty {bb : BBlock} (hb : b ∈ arr) (hbb : B.bblocks[b]? = some bb)
    (he : bb.instrs = []) (hmem : ∀ y, y ∈ arr' ↔ y ∈ arr ∧ y ≠ b) :
    Drops b (B.graph arr) (B.graph arr') := by
  refine ⟨graph_of_empty hb hbb he, ?_, fun y hy => ?_⟩
  · unfold ProcBuilder.graph
    rw [if_neg fun h => ((hmem b).mp h).2 rfl]
  · unfold ProcBuilder.graph
    by_cases h : y ∈ arr
    · rw [if_pos h, if_pos ((hmem y).mpr ⟨h, hy⟩)]
    · rw [if_neg h, if_neg fun h' => h ((hmem y).mp h').1]

/-- Without an empty block the predecessor lists are still right. -/
theorem ProcBuilder.Preds.drop {bb : BBlock} (hB : B.Preds arr) (hbb : B.bblocks[b]? = some bb)
    (he : bb.instrs = []) (hnd : arr'.Nodup) (hmem : ∀ y, y ∈ arr' ↔ y ∈ arr ∧ y ≠ b) :
    B.Preds arr' := by
  have hsub : ∀ {y}, y ∈ arr' → y ∈ arr := fun hy => ((hmem _).mp hy).1
  have hsuccs : B.succs b = [] := by
    unfold ProcBuilder.succs
    rw [hbb, Option.map_some, ProcBuilder.node, he]
    rfl
  refine ⟨hnd, fun x hx => hB.valid x (hsub hx), fun p hp q hq => hB.last p (hsub hp) q (hsub hq),
    fun p hp => hB.target p (hsub hp), fun x hx p hp => ?_,
    fun x hx p hp => hB.count x (hsub hx) p (hsub hp)⟩
  refine (hmem p).mpr ⟨hB.mem x (hsub hx) p hp, ?_⟩
  rintro rfl
  have := hB.edge (hsub hx) hp
  rw [hsuccs] at this
  cases this

/-- What a round does at the block `b`. -/
inductive RoundCase (B : ProcBuilder) (l : List BBlockId) (b : BBlockId) (r : List BBlockId) :
    Option (List BBlockId × ProcBuilder) → Prop where
  | keep (h : Stays B b) : RoundCase B l b r (some (l ++ b :: r, B))
  | drop (bb : BBlock) (hbb : B.bblocks[b]? = some bb) (he : bb.instrs = []) (r' : List BBlockId)
      (hr' : r'.Perm r) : RoundCase B l b r (some (l ++ r', B))
  | thread (h : B.Removable b) (hready : B.Ready b) (t : BBlockId) (ht : B.OnlyJumps b (some t))
      (r' : List BBlockId) (hr' : r'.Perm r) (B' : ProcBuilder) (hB' : Threaded B b t B') :
      RoundCase B l b r (some (l ++ r', B'))
  | fail (h : B.Removable b) (hready : ¬ B.Ready b) : RoundCase B l b r none

theorem rmDeadBBlock_case {l r : List BBlockId} (hB : B.Preds (l ++ b :: r)) :
    RoundCase B l b r (rmDeadBBlock l.length (l ++ b :: r) B) := by
  have hb : b ∈ l ++ b :: r := by simp
  obtain ⟨bb, hbb, hv⟩ := hB.valid b hb
  obtain ⟨r', hswap, hperm⟩ := removeSwap_append l r b
  have hpreds : B.preds b = bb.preds := by simp [ProcBuilder.preds, hbb]
  have harr : (l ++ b :: r)[l.length]? = some b := by simp
  unfold rmDeadBBlock
  simp only [bind, StateT.bind, get, getThe, MonadStateOf.get, StateT.get, pure, Option.bind_some,
    harr, hbb]
  rcases hids : bb.instrs with _ | ⟨j, _ | ⟨k, ids⟩⟩
  · simp only [statePure_run, hswap]
    exact .drop bb hbb hids r' hperm
  · obtain ⟨i, hi⟩ := hv j (by rw [hids]; exact List.mem_singleton.mpr rfl)
    have hjump : ∀ {u}, B.OnlyJumps b u → ∃ s', i = .jmp s' u := by
      rintro u ⟨bb', j', s', h1, h2, h3⟩
      rw [hbb] at h1
      cases h1
      rw [hids] at h2
      cases h2
      rw [hi] at h3
      cases h3
      exact ⟨s', rfl⟩
    have hnonempty : ∃ bb, B.bblocks[b]? = some bb ∧ bb.instrs ≠ [] := ⟨bb, hbb, by rw [hids]; simp⟩
    have hkeep : (∀ s' u, i ≠ .jmp s' u) → RoundCase B l b r (some (l ++ b :: r, B)) := by
      intro hno
      refine .keep ⟨hnonempty, fun hr => ?_⟩
      obtain ⟨u, hu⟩ := hr.jumps
      obtain ⟨s', hs'⟩ := hjump hu
      exact hno s' u hs'
    simp only [hi]
    cases i with
    | jmp s' u =>
      have hou : B.OnlyJumps b u := ⟨bb, j, s', hbb, hids, hi⟩
      have hlast : ∀ p ∈ bb.preds, ∃ j i, B.lastInstr p = some (j, i) := fun p hp =>
        hB.lastInstr hb (hpreds ▸ hp)
      by_cases hnil : bb.preds = []
      · simp only [hnil, if_true]
        exact .keep ⟨hnonempty, fun hr => hr.preds (hpreds.trans hnil)⟩
      · simp only [hnil, if_false]
        by_cases hfall : ∃ p ∈ bb.preds, B.FallsInto p b
        · rw [canRemove_false hlast hfall]
          refine .keep ⟨hnonempty, fun hr => ?_⟩
          obtain ⟨p, hp, hpf⟩ := hfall
          exact hr.noFall p (hpreds ▸ hp) hpf
        · have hno : ∀ p ∈ bb.preds, ¬ B.FallsInto p b := fun p hp hf => hfall ⟨p, hp, hf⟩
          have hr : B.Removable b := ⟨⟨u, hou⟩, hpreds ▸ hnil, hpreds ▸ hno⟩
          rw [canRemove_true hlast hno]
          cases u with
          | none =>
            refine .fail hr fun hready => ?_
            obtain ⟨t, ht⟩ := hready.target
            obtain ⟨s'', hs''⟩ := hjump ht
            cases hs''
          | some t =>
            by_cases hs : ∃ p ∈ bb.preds, B.EndsInSwitch p
            · obtain ⟨p, hp, hps⟩ := hs
              simp only [StateT.bind, retargetPreds_switch hp hps, bind, Option.bind_none]
              exact .fail hr fun hready => hready.preds p (hpreds ▸ hp) hps
            · have hs' : ∀ p ∈ B.preds b, ¬ B.EndsInSwitch p := fun p hp hps =>
                hs ⟨p, hpreds ▸ hp, hps⟩
              obtain ⟨B₁, B', h1, h2, h3⟩ := thread_run hB hb hr hou hs'
              rw [hpreds] at h1
              simp only [StateT.bind, statePure_run, h1, h2, bind, Option.bind_some, hswap]
              exact .thread hr ⟨⟨t, hou⟩, hs'⟩ t hou r' hperm B' h3
    | _ => exact hkeep fun _ _ h => by cases h
  · refine .keep ⟨⟨bb, hbb, by rw [hids]; simp⟩, fun hr => ?_⟩
    obtain ⟨-, bb', j', s', h1, h2, -⟩ := hr.jumps
    rw [hbb] at h1
    cases h1
    rw [hids] at h2
    cases h2

/-! ## All rounds -/

/-- What the loop over the positions of `l` has achieved. -/
structure LoopDone (B : ProcBuilder) (arr l : List BBlockId) (s : BBlockId) (B' : ProcBuilder)
    (arr' : List BBlockId) : Prop where
  ready : ∀ x ∈ l, B.Removable x → B.Ready x
  preds : B'.Preds arr'
  stays : ∀ x ∈ arr', Stays B' x
  outcome : Outcome (B.graph arr) (B'.graph arr') s (Spins B arr s)

/-- The loop stops at a block that is not ready, or is done. -/
inductive LoopCase (B : ProcBuilder) (arr l : List BBlockId) (s : BBlockId) :
    Option (List BBlockId × ProcBuilder) → Prop where
  | done (arr' : List BBlockId) (B' : ProcBuilder) (h : LoopDone B arr l s B' arr') :
      LoopCase B arr l s (some (arr', B'))
  | fail (x : BBlockId) (hx : x ∈ l) (h : B.Removable x) (hready : ¬ B.Ready x) :
      LoopCase B arr l s none

theorem Round.refl : Round B arr s B arr :=
  ⟨fun _ _ _ h => h, fun h => ⟨.refl _ _, h⟩, fun h => .inl h⟩

/-- The rounds after a first one. -/
theorem LoopCase.cons {l : List BBlockId} {o : Option (List BBlockId × ProcBuilder)}
    (hround : Round B arr s B' arr') (hrem : ∀ x ∈ l, (B'.Removable x ↔ B.Removable x))
    (hready : ∀ x ∈ l, (B'.Ready x ↔ B.Ready x)) (hb : B.Removable b → B.Ready b)
    (h : LoopCase B' arr' l s o) : LoopCase B arr (l ++ [b]) s o := by
  cases h with
  | done arr₂ B₂ h =>
    refine .done arr₂ B₂ ⟨fun x hx hr => ?_, h.preds, h.stays, hround.outcome h.outcome⟩
    rcases List.mem_append.mp hx with hx | hx
    · exact (hready x hx).mp (h.ready x hx ((hrem x hx).mpr hr))
    · rw [List.mem_singleton] at hx
      subst hx
      exact hb hr
  | fail x hx hr hn =>
    exact .fail x (List.mem_append_left _ hx) ((hrem x hx).mp hr) fun h => hn ((hready x hx).mpr h)

theorem rmDeadBBlocks_case {l r : List BBlockId} (hB : B.Preds (l ++ r)) (hr : ∀ x ∈ r, Stays B x)
    (hs : s ∈ l ++ r → ¬ B.Removable s) :
    LoopCase B (l ++ r) l s (rmDeadBBlocks l.length (l ++ r) B) := by
  induction l using List.reverseRecOn generalizing r B with
  | nil =>
    refine .done r B ⟨by simp, hB, hr, fun _ _ _ h => h, fun _ => .refl _ _, ?_⟩
    rintro ⟨S, -, hS, c, -, -, hc, -⟩
    obtain ⟨h1, h2⟩ := hS c hc
    exact absurd h2 (hr c h1).kept
  | append_singleton l b ih =>
    have hassoc : l ++ [b] ++ r = l ++ b :: r := by simp
    rw [hassoc] at hB hs ⊢
    rw [show (l ++ [b]).length = l.length + 1 by simp]
    have hb : b ∈ l ++ b :: r := by simp
    have hmem : ∀ {r' : List BBlockId}, r'.Perm r →
        ∀ y, y ∈ l ++ r' ↔ y ∈ l ++ b :: r ∧ y ≠ b := by
      intro r' hp y
      have hnd := List.nodup_cons.mp (List.perm_middle.nodup_iff.mp hB.nodup)
      simp only [List.mem_append, List.mem_cons, hp.mem_iff]
      constructor
      · intro h
        refine ⟨h.imp id .inr, ?_⟩
        rintro rfl
        exact hnd.1 (List.mem_append.mpr h)
      · rintro ⟨h1 | h1 | h1, h2⟩
        · exact .inl h1
        · exact absurd h1 h2
        · exact .inr h1
    have hnd : ∀ {r' : List BBlockId}, r'.Perm r → (l ++ r').Nodup := by
      intro r' hp
      have hnd := List.nodup_cons.mp (List.perm_middle.nodup_iff.mp hB.nodup)
      exact (hp.append_left l).nodup_iff.mpr hnd.2
    show LoopCase B _ _ s ((rmDeadBBlock l.length (l ++ b :: r) >>=
      fun arr => rmDeadBBlocks l.length arr) B)
    generalize hround : rmDeadBBlock l.length (l ++ b :: r) B = o
    have hcase := rmDeadBBlock_case hB
    rw [hround] at hcase
    simp only [bind, StateT.bind, hround]
    cases hcase with
    | keep h =>
      refine .cons .refl (fun _ _ => Iff.rfl) (fun _ _ => Iff.rfl) (fun hr => absurd hr h.kept) ?_
      refine ih hB (fun x hx => ?_) hs
      rcases List.mem_cons.mp hx with rfl | hx
      · exact h
      · exact hr x hx
    | drop bb hbb he r' hp =>
      refine .cons (round_of_drops (drops_of_empty hb hbb he (hmem hp)) (hmem hp))
        (fun _ _ => Iff.rfl) (fun _ _ => Iff.rfl) (fun hr => ?_) ?_
      · obtain ⟨-, bb', j, s', h1, h2, -⟩ := hr.jumps
        rw [hbb] at h1
        cases h1
        rw [he] at h2
        cases h2
      · exact ih (hB.drop hbb he (hnd hp) (hmem hp)) (fun x hx => hr x (hp.mem_iff.mp hx))
          fun h => hs (((hmem hp) s).mp h).1
    | thread h hready t ht r' hp B' hB' =>
      have hrem : ∀ x ∈ l ++ r', (B'.Removable x ↔ B.Removable x) := fun x hx =>
        hB'.removable hB hb h ht (hmem hp) hx
      have hne : s ≠ b := by
        rintro rfl
        exact hs hb h
      refine .cons (round_of_threads (hB'.threads hB hb h ht (hmem hp)) hb h hne (hmem hp) hrem)
        (fun x hx => hrem x (List.mem_append_left _ hx))
        (fun x hx => hB'.ready hB hb h ht hready.preds (hmem hp) (List.mem_append_left _ hx))
        (fun _ => hready) ?_
      refine ih (hB'.preds_inv hB hb h ht (hmem hp) (hnd hp)) (fun x hx => ?_) fun hsm hr => ?_
      · have hxm : x ∈ l ++ r' := List.mem_append_right _ hx
        obtain ⟨⟨bb, hbb, hne⟩, hkept⟩ := hr x (hp.mem_iff.mp hx)
        obtain ⟨bb', hbb', hids, -⟩ := hB'.node hB hb h (((hmem hp) x).mp hxm).1 hbb
        exact ⟨⟨bb', hbb', hids ▸ hne⟩, fun hr => hkept ((hrem x hxm).mp hr)⟩
      · exact hs (((hmem hp) s).mp hsm).1 ((hrem s hsm).mp hr)
    | fail h hready => exact .fail b (by simp) h hready

/-! ## Sorting -/

theorem sortPass_perm {key : BBlockId → Option InstrId} {rest : List BBlockId} (curr : BBlockId)
    (hk : ∀ x ∈ curr :: rest, ∃ k, key x = some k) :
    ∃ l, sortPass key curr rest = some l ∧ l.Perm (curr :: rest) := by
  induction rest generalizing curr with
  | nil => exact ⟨[curr], rfl, .refl _⟩
  | cons next rest ih =>
    obtain ⟨a, ha⟩ := hk curr (by simp)
    obtain ⟨b, hb⟩ := hk next (by simp)
    unfold sortPass
    rw [ha, hb]
    simp only
    split
    · obtain ⟨l, hl, hp⟩ := ih curr fun x hx => hk x (by
        rcases List.mem_cons.mp hx with rfl | hx
        · simp
        · simp [hx])
      refine ⟨next :: l, by rw [hl]; rfl, ?_⟩
      exact (hp.cons next).trans (.swap _ _ _)
    · obtain ⟨l, hl, hp⟩ := ih next fun x hx => hk x (List.mem_cons_of_mem _ hx)
      exact ⟨curr :: l, by rw [hl]; rfl, hp.cons curr⟩

theorem sortBBlocks_perm {key : BBlockId → Option InstrId} {n : Nat} (arr : List BBlockId)
    (hk : ∀ x ∈ arr, ∃ k, key x = some k) :
    ∃ l, sortBBlocks key n arr = some l ∧ l.Perm arr := by
  induction n generalizing arr with
  | zero => exact ⟨arr, rfl, .refl _⟩
  | succ n ih =>
    cases arr with
    | nil => exact ⟨[], rfl, .refl _⟩
    | cons b arr =>
      obtain ⟨l, hl, hp⟩ := sortPass_perm b hk
      obtain ⟨l', hl', hp'⟩ := ih l fun x hx => hk x (hp.mem_iff.mp hx)
      exact ⟨l', by unfold sortBBlocks; rw [hl]; exact hl', hp'.trans hp⟩

theorem Stays.firstIno (h : Stays B b) : ∃ k, B.firstIno b = some k := by
  obtain ⟨bb, hbb, hne⟩ := h.nonempty
  obtain ⟨k, ids, hids⟩ := List.exists_cons_of_ne_nil hne
  exact ⟨k, by simp [ProcBuilder.firstIno, hbb, hids]⟩

theorem graph_perm (hp : arr'.Perm arr) : B.graph arr' = B.graph arr := by
  funext x
  unfold ProcBuilder.graph
  by_cases h : x ∈ arr
  · rw [if_pos h, if_pos (hp.mem_iff.mpr h)]
  · rw [if_neg h, if_neg fun h' => h (hp.mem_iff.mp h')]

/-! ## The end of a procedure -/

/-- The array of blocks before anything is removed. -/
def ProcBuilder.allBBlocks (B : ProcBuilder) : List BBlockId := List.range B.bblocks.length

/-- What the rest of the compiler is given: the blocks that are left, sorted. -/
structure Finished (B : ProcBuilder) (B' : ProcBuilder) (arr' : List BBlockId) : Prop where
  ready : ∀ x, B.Removable x → B.Ready x
  preds : B'.Preds arr'
  stays : ∀ x ∈ arr', Stays B' x
  outcome : Outcome (B.graph B.allBBlocks) (B'.graph arr') 0 (Spins B B.allBBlocks 0)

theorem ProcBuilder.Removable.mem_all (h : B.Removable x) : x ∈ B.allBBlocks := by
  obtain ⟨-, bb, -, -, hbb, -, -⟩ := h.jumps
  exact List.mem_range.mpr (List.getElem?_eq_some_iff.mp hbb).1

theorem ProcBuilder.Preds.perm (h : B.Preds arr) (hp : arr'.Perm arr) : B.Preds arr' := by
  have hm : ∀ {y}, y ∈ arr' → y ∈ arr := fun hy => hp.mem_iff.mp hy
  exact ⟨hp.nodup_iff.mpr h.nodup, fun b hb => h.valid b (hm hb),
    fun p hpm q hq => h.last p (hm hpm) q (hm hq), fun p hpm => h.target p (hm hpm),
    fun b hb p hpm => hp.mem_iff.mpr (h.mem b (hm hb) p hpm),
    fun b hb p hpm => h.count b (hm hb) p (hm hpm)⟩

theorem finishProc_case (hB : B.Preds B.allBBlocks) (h0 : B.preds 0 = []) :
    (∃ arr' B', finishProc B = some (arr', B') ∧ Finished B B' arr') ∨
    (∃ x, B.Removable x ∧ ¬ B.Ready x) ∧ finishProc B = none := by
  have hcase := rmDeadBBlocks_case (l := B.allBBlocks) (r := []) (s := 0)
    (by rwa [List.append_nil]) (by simp) fun _ hr => hr.preds h0
  rw [List.append_nil, show B.allBBlocks.length = B.bblocks.length from List.length_range] at hcase
  generalize hrun : rmDeadBBlocks B.bblocks.length B.allBBlocks B = o at hcase
  have hfinish : finishProc B = o.bind fun p =>
      (sortBBlocks p.2.firstIno p.1.length p.1).map (·, p.2) := by
    unfold finishProc
    simp only [bind, StateT.bind, get, getThe, MonadStateOf.get, StateT.get, pure, Option.bind_some]
    rw [show List.range B.bblocks.length = B.allBBlocks from rfl, hrun]
    cases o with
    | none => rfl
    | some p =>
      simp only [Option.bind_some]
      cases sortBBlocks p.2.firstIno p.1.length p.1 <;> rfl
  cases hcase with
  | done arr' B' h =>
    obtain ⟨l, hl, hp⟩ := sortBBlocks_perm (n := arr'.length) arr' fun x hx => (h.stays x hx).firstIno
    refine .inl ⟨l, B', ?_, fun x hx => h.ready x hx.mem_all hx, h.preds.perm hp,
      fun x hx => h.stays x (hp.mem_iff.mp hx), ?_⟩
    · rw [hfinish, Option.bind_some, hl]
      rfl
    · rw [graph_perm hp]
      exact h.outcome
  | fail x hx h hready => exact .inr ⟨⟨x, h, hready⟩, hfinish⟩

/-- The pass and the sort succeed, and every path from the start block is what it was. -/
def FinishCorrect (B : ProcBuilder) : Prop :=
  ∃ arr' B', finishProc B = some (arr', B') ∧
    SamePaths (B.graph B.allBBlocks) (B'.graph arr') (some 0)

theorem finishCorrect_iff (hB : B.Preds B.allBBlocks) (h0 : B.preds 0 = []) :
    FinishCorrect B ↔ (∀ b, B.Removable b → B.Ready b) ∧ ¬ Spins B B.allBBlocks 0 := by
  rcases finishProc_case hB h0 with ⟨arr', B', hrun, h⟩ | ⟨⟨x, hx, hn⟩, hrun⟩
  · constructor
    · rintro ⟨arr₂, B₂, hrun₂, hsame⟩
      rw [hrun] at hrun₂
      cases hrun₂
      refine ⟨h.ready, fun hsp => ?_⟩
      obtain ⟨cs, tr, h1, h2⟩ := h.outcome.lost hsp
      exact h2 ((hsame cs tr _).mpr h1)
    · rintro ⟨-, hno⟩
      exact ⟨arr', B', hrun, h.outcome.same hno⟩
  · constructor
    · rintro ⟨arr₂, B₂, hrun₂, -⟩
      rw [hrun] at hrun₂
      cases hrun₂
    · rintro ⟨hready, -⟩
      exact absurd (hready x hx) hn

end Nibble.IR
