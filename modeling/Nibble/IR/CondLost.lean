import Nibble.Lib.Triple
import Nibble.IR.CfgCond

/-!
# Jumps that are lost

Once a jump is lost (`LostJmp`) no later emission gives it a target, whatever
the shape of the lists of pending jumps: every operation on them stays within
the nodes that do not describe the jump. This is proved of each operation,
and from that of the emission of every boolean expression.
-/

namespace Nibble.IR

open Nibble.Lib

variable {Q : List InstrId} {J : Nat} {A : Nat → Prop} {it : Option Nat} {B B' : ProcBuilder}

/-- `x` never gives `J` a target, and its result satisfies `q`. -/
abbrev KeepsLost (Q : List InstrId) (J : Nat) (A : Nat → Prop) (it : Option Nat) {α : Type}
    (x : Build α) (q : α → Prop) : Prop :=
  Keeps (LostJmp Q J A it) x q

theorem LostJmp.lt (h : LostJmp Q J A it B) : J < B.instrs.length := by
  obtain ⟨s, f, a, hx⟩ := h.jump
  exact (List.getElem?_eq_some_iff.mp hx).1

/-- Only the jump, the history and the arena matter. -/
theorem LostJmp.congr (h : LostJmp Q J A it B) (hi : B'.instrs[J]? = B.instrs[J]?)
    (hp : B'.patched = B.patched) (hf : B'.scJmpFreelist = B.scJmpFreelist)
    (hn : B'.scJmps = B.scJmps) : LostJmp Q J A it B' :=
  ⟨by rw [hi]; exact h.jump, by rw [hp]; exact h.unpatched, by rw [hf]; exact h.free,
    by rw [hn]; exact h.nodes, by rw [hn]; exact h.new⟩

section Primitives

variable {b : BBlockId} {i : Instr} {t : BBlockId}

theorem nextReg_lost : KeepsLost Q J A it nextReg fun _ => True := by
  intro B r B' h he
  cases he
  exact ⟨trivial, h.congr rfl rfl rfl rfl⟩

theorem allocBBlock_lost : KeepsLost Q J A it allocBBlock fun _ => True := by
  intro B r B' h he
  cases he
  exact ⟨trivial, h.congr rfl rfl rfl rfl⟩

theorem symAsAddr_lost (s : SymId) : KeepsLost Q J A it (symAsAddr s) fun _ => True := by
  intro B r B' h he
  cases he
  exact ⟨trivial, h.congr rfl rfl rfl rfl⟩

theorem check_lost (c : Bool) : KeepsLost Q J A it (check c) fun _ => True := by
  unfold check
  exact Keeps.ite (fun _ => .pure trivial) fun _ => .failure

theorem addInstr_lost : KeepsLost Q J A it (addInstr b i) fun j => j ≠ J := by
  intro B j B' h he
  have hlt := h.lt
  simp only [addInstr] at he
  split at he
  · split at he
    · cases he
    · cases he
      refine ⟨Nat.ne_of_gt hlt, h.congr ?_ rfl rfl rfl⟩
      exact List.getElem?_append_left hlt
  · cases he

theorem connectBBlocks_lost (p : BBlockId) : KeepsLost Q J A it (connectBBlocks p t) fun _ => True := by
  intro B u B' h he
  simp only [connectBBlocks] at he
  split at he
  · cases he
    exact ⟨trivial, h.congr rfl rfl rfl rfl⟩
  · cases he

theorem setInstr_lost {j : InstrId} (hj : j ≠ J) : KeepsLost Q J A it (setInstr j i) fun _ => True := by
  intro B u B' h he
  cases he
  exact ⟨trivial, h.congr (by simp [hj]) rfl rfl rfl⟩

theorem notePatched_lost {j : InstrId} (hj : j ≠ J) : KeepsLost Q J A it (notePatched j) fun _ => True := by
  intro B u B' h he
  cases he
  refine ⟨trivial, ⟨h.jump, ?_, h.free, h.nodes, h.new⟩⟩
  obtain ⟨l, hl, hJ⟩ := h.unpatched
  exact ⟨l ++ [j], by simp [hl], by simp [hJ, Ne.symm hj]⟩

theorem patchJmpTarget_lost {j : InstrId} (hj : j ≠ J) :
    KeepsLost Q J A it (patchJmpTarget j t) fun _ => True := by
  refine Keeps.get_bind fun B _ => ?_
  split
  · exact (setInstr_lost hj).bind fun _ _ => (notePatched_lost hj).bind fun _ _ =>
      connectBBlocks_lost _
  · exact (setInstr_lost hj).bind fun _ _ => (notePatched_lost hj).bind fun _ _ =>
      connectBBlocks_lost _
  · exact .failure

theorem emitInstrJmp_lost {o : Option BBlockId} :
    KeepsLost Q J A it (emitInstrJmp b o) fun j => j ≠ J := by
  refine addInstr_lost.bind fun j hj => ?_
  cases o with
  | none => exact .pure hj
  | some t => exact (notePatched_lost hj).bind fun _ _ => (connectBBlocks_lost _).bind fun _ _ => .pure hj

theorem emitInstrCondJmp_lost {o : Option BBlockId} {f : BBlockId} {a : Reg} :
    KeepsLost Q J A it (emitInstrCondJmp b o f a) fun j => j ≠ J := by
  refine addInstr_lost.bind fun j hj => ?_
  cases o with
  | none => exact (connectBBlocks_lost _).bind fun _ _ => .pure hj
  | some t => exact (notePatched_lost hj).bind fun _ _ => (connectBBlocks_lost _).bind fun _ _ =>
      (connectBBlocks_lost _).bind fun _ _ => .pure hj

theorem emitDef_lost {mk : Reg → Instr} : KeepsLost Q J A it (emitDef b mk) fun _ => True :=
  nextReg_lost.bind fun _ _ => addInstr_lost.bind fun _ _ => .pure trivial

theorem cmpReg_lost (c : InstrId) : KeepsLost Q J A it (cmpReg c) fun _ => True := by
  refine Keeps.get_bind fun B _ => ?_
  split
  · split
    · exact .pure trivial
    · exact .failure
  · exact .failure

end Primitives

section Operands

variable {b : BBlockId} {er : ExprResult}

theorem executeLea_lost {t : Ty} {a : MemAddr} :
    KeepsLost Q J A it (executeLea b t a) fun _ => True := by
  unfold executeLea
  split
  · exact Keeps.ite (fun _ => .pure trivial) fun _ => emitDef_lost
  · exact emitDef_lost

theorem valueToReg_lost : KeepsLost Q J A it (valueToReg b er) fun _ => True := by
  unfold valueToReg
  split
  · exact .pure trivial
  · exact executeLea_lost
  · exact emitDef_lost
  · exact emitDef_lost
  · exact (symAsAddr_lost _).bind fun _ _ => emitDef_lost
  · exact (check_lost _).bind fun _ _ => emitDef_lost
  · exact (check_lost _).bind fun _ _ => emitDef_lost
  · exact emitDef_lost
  · exact (symAsAddr_lost _).bind fun _ _ => emitDef_lost
  · exact .failure
  · exact .failure

theorem valueToOpRIA_lost : KeepsLost Q J A it (valueToOpRIA b er) fun _ => True := by
  unfold valueToOpRIA
  split
  · exact .pure trivial
  · exact .pure trivial
  · exact (symAsAddr_lost _).bind fun _ _ => .pure trivial
  · exact .pure trivial
  · exact .pure trivial
  · exact .pure trivial
  · exact .pure trivial
  · exact valueToReg_lost.bind fun _ _ => .pure trivial
  · exact valueToReg_lost.bind fun _ _ => .pure trivial
  · exact .failure
  · exact .failure

theorem valueToOpRA_lost : KeepsLost Q J A it (valueToOpRA b er) fun _ => True := by
  unfold valueToOpRA
  split
  · exact .pure trivial
  · exact (symAsAddr_lost _).bind fun _ _ => .pure trivial
  · exact .pure trivial
  · exact .pure trivial
  · exact .pure trivial
  · exact .pure trivial
  · exact valueToReg_lost.bind fun _ _ => .pure trivial
  · exact valueToReg_lost.bind fun _ _ => .pure trivial
  · exact valueToReg_lost.bind fun _ _ => .pure trivial
  · exact .failure
  · exact .failure

theorem cmpToZero_lost {cond : ConditionKind} {z : Nat} :
    KeepsLost Q J A it (cmpToZero b er cond z) fun _ => True := by
  unfold cmpToZero
  refine Keeps.ite (fun _ => ?_) fun _ => ?_
  · exact valueToOpRIA_lost.bind fun _ _ => nextReg_lost.bind fun _ _ =>
      addInstr_lost.imp fun _ _ => trivial
  · split
    · exact valueToReg_lost.bind fun _ _ => nextReg_lost.bind fun _ _ =>
        addInstr_lost.imp fun _ _ => trivial
    · exact .failure

theorem emitBinaryCmp_lost {cond : ConditionKind} {x y : ExprResult} :
    KeepsLost Q J A it (emitBinaryCmp b cond x y) fun _ => True := by
  refine (check_lost _).bind fun _ _ => Keeps.ite (fun _ => ?_) fun _ => ?_
  · exact valueToOpRIA_lost.bind fun _ _ => valueToOpRIA_lost.bind fun _ _ =>
      nextReg_lost.bind fun _ _ => addInstr_lost.imp fun _ _ => trivial
  · split
    · exact valueToReg_lost.bind fun _ _ => valueToOpRA_lost.bind fun _ _ =>
        nextReg_lost.bind fun _ _ => addInstr_lost.imp fun _ _ => trivial
    · exact .failure

end Operands

/-! ## The final jump -/

section FinalJmp

variable {b : BBlockId} {d : DeferredJmpcc} {desired : Bool}

theorem fixScJmpPath_lost :
    KeepsLost Q J A it (fixScJmpPath d desired) fun d' => d'.jmp = d.jmp ∧ d'.result = desired := by
  unfold fixScJmpPath
  refine Keeps.ite (fun _ => Keeps.get_bind fun B hB => ?_) fun h => .pure ⟨rfl, by simpa using h⟩
  split
  case h_2 => exact .failure
  case h_1 i hi =>
    refine Keeps.bind (q := fun _ => True) ?_ fun _ _ => .pure ⟨rfl, rfl⟩
    by_cases hj : d.cmp = J
    · -- a conditional jump has no condition to invert
      intro B' u B'' h he
      cases he
      refine ⟨trivial, ⟨?_, h.unpatched, h.free, h.nodes, h.new⟩⟩
      obtain ⟨s, f, a, hx⟩ := hB.jump
      rw [hj, hx] at hi
      cases hi
      exact ⟨s, f, a, by simp [hj, h.lt, Instr.flipCond]⟩
    · exact setInstr_lost hj

theorem copyScJmp_lost (hd : d.jmp ≠ some J) :
    KeepsLost Q J A it (copyScJmp b d desired) fun p => p.1.jmp ≠ some J ∧ p.1.result = desired := by
  refine fixScJmpPath_lost.bind fun d' hd' => ?_
  split
  · refine .pure ⟨?_, hd'.2⟩
    rw [hd'.1]
    exact hd
  · exact allocBBlock_lost.bind fun _ _ => (cmpReg_lost _).bind fun _ _ =>
      emitInstrCondJmp_lost.bind fun j hj => .pure ⟨by simpa using hj, hd'.2⟩

theorem jmpOnValue_lost {er : ExprResult} :
    KeepsLost Q J A it (jmpOnValue b er desired) fun p => p.1.jmp ≠ some J :=
  valueToReg_lost.bind fun _ _ => cmpToZero_lost.bind fun _ _ => (cmpReg_lost _).bind fun _ _ =>
    allocBBlock_lost.bind fun _ _ => emitInstrCondJmp_lost.bind fun j hj => .pure (by simpa using hj)

end FinalJmp

/-! ## The lists -/

/-- The part of `LostJmp` about the nodes. -/
def Avoids (J : Nat) (A : Nat → Prop) (it : Option Nat) (nodes : List DeferredJmpcc) : Prop :=
  ∀ n d, A n → nodes[n]? = some d → (∀ m, d.next = some m → A m ∨ it = some m) ∧ d.jmp ≠ some J

theorem Avoids.modify {nodes : List DeferredJmpcc} {f : DeferredJmpcc → DeferredJmpcc} {i : Nat}
    (h : Avoids J A it nodes)
    (hf : ∀ d, A i → nodes[i]? = some d →
      (∀ m, (f d).next = some m → A m ∨ it = some m) ∧ (f d).jmp ≠ some J) :
    Avoids J A it (nodes.modify i f) := by
  intro n d hn hd
  by_cases e : i = n
  · subst e
    cases hi : nodes[i]? with
    | none => simp [hi] at hd
    | some d' =>
      simp only [List.getElem?_modify_eq, hi, Option.map_eq_map, Option.map_some,
        Option.some.injEq] at hd
      subst hd
      exact hf d' hn hi
  · exact h n d hn (by simpa [e] using hd)

/-- A list that can be walked without meeting the lost jump. -/
def DeferredCmp.Reachable (A : Nat → Prop) (c : DeferredCmp) : Prop :=
  ∀ n, c.firstScJmp = some n → A n

section Lists

variable {c c' : DeferredCmp}

theorem popScNode_lost {id : NodeId} {ns : List DeferredJmpcc} {fl : Option NodeId}
    (h : LostJmp Q J A none B) (hp : popScNode B = some (id, ns, fl)) :
    A id ∧ Avoids J A none ns ∧ (∀ n, fl = some n → A n) ∧ B.scJmps.length ≤ ns.length := by
  unfold popScNode at hp
  cases hf : B.scJmpFreelist with
  | none =>
    rw [hf] at hp
    cases hp
    refine ⟨h.new _ (Nat.le_refl _), fun n d hn hd => ?_, fun n hn => (by cases hn), by simp⟩
    rcases Nat.lt_trichotomy n B.scJmps.length with hlt | rfl | hgt
    · rw [List.getElem?_append_left hlt] at hd
      exact h.nodes n d hn hd
    · simp only [List.getElem?_concat_length, Option.some.injEq] at hd
      subst hd
      simp
    · rw [List.getElem?_eq_none (by simp; omega)] at hd
      cases hd
  | some i =>
    rw [hf] at hp
    obtain ⟨node, hnode, he⟩ := Option.map_eq_some_iff.mp hp
    cases he
    have hi := h.free _ hf
    refine ⟨hi, h.nodes, fun n hn => ?_, Nat.le_refl _⟩
    exact ((h.nodes _ _ hi hnode).1 n hn).resolve_right (by simp)

theorem newDeferredScJmp_lost {cmp jmp : InstrId} {result : Bool} (hc : c.Reachable A)
    (hj : jmp ≠ J) :
    KeepsLost Q J A none (newDeferredScJmp c cmp result jmp) fun c' => c'.Reachable A := by
  intro B c' B' h he
  simp only [newDeferredScJmp] at he
  obtain ⟨⟨id, ns, fl⟩, hp, he⟩ := Option.bind_eq_some_iff.mp he
  obtain ⟨hid, hns, hfl, hlen⟩ := popScNode_lost h hp
  simp only [Option.some.injEq, Prod.mk.injEq] at he
  obtain ⟨rfl, rfl⟩ := he
  refine ⟨fun n hn => ?_, h.jump, h.unpatched, hfl, ?_, fun n hn => h.new n ?_⟩
  · simp only at hn
    split at hn
    · exact hc n hn
    · cases hn
      exact hid
  · show Avoids J A none (linkNewNode ns c.lastScJmp id cmp result jmp)
    unfold linkNewNode
    have h1 : Avoids J A none (ns.modify id fun n => { n with next := none }) :=
      hns.modify fun d hn hd => ⟨by simp, (hns id d hn hd).2⟩
    split
    next l _ =>
      have h2 : Avoids J A none ((ns.modify id fun n => { n with next := none }).modify l fun n =>
          { n with next := some id }) := by
        refine h1.modify fun d hn hd => ⟨fun m hm => ?_, (h1 _ d hn hd).2⟩
        cases hm
        exact .inl hid
      exact h2.modify fun d hn hd => ⟨(h2 id d hn hd).1, by simpa using hj⟩
    next => exact h1.modify fun d hn hd => ⟨(h1 id d hn hd).1, by simpa using hj⟩
  · simp only [length_linkNewNode] at hn
    omega

theorem delDeferredScJmp_lost {prev : Option NodeId} {id : NodeId} (hc : c.Reachable A)
    (hid : A id) :
    KeepsLost Q J A none (delDeferredScJmp c prev id) fun c' => c'.Reachable A := by
  intro B c' B' h he
  simp only [delDeferredScJmp] at he
  obtain ⟨node, hnode, he⟩ := Option.bind_eq_some_iff.mp he
  have hnext : ∀ m, node.next = some m → A m := fun m hm =>
    ((h.nodes id node hid hnode).1 m hm).resolve_right (by simp)
  have hfree : ∀ {nodes : List DeferredJmpcc}, Avoids J A none nodes →
      Avoids J A none (nodes.modify id fun n => { n with next := B.scJmpFreelist }) :=
    fun ha => ha.modify fun d hn hd => ⟨fun m hm => .inl (h.free m hm), (ha id d hn hd).2⟩
  cases prev with
  | none =>
    simp only [Option.some.injEq, Prod.mk.injEq] at he
    obtain ⟨rfl, rfl⟩ := he
    refine ⟨fun n hn => ?_, h.jump, h.unpatched, fun n hn => ?_, hfree h.nodes,
      fun n hn => h.new n (by simpa using hn)⟩
    · split at hn <;> exact hnext n hn
    · cases hn
      exact hid
  | some p =>
    simp only [Option.some.injEq, Prod.mk.injEq] at he
    obtain ⟨rfl, rfl⟩ := he
    have hp : Avoids J A none (B.scJmps.modify p fun n => { n with next := node.next }) :=
      Avoids.modify h.nodes fun d hn hd => ⟨fun m hm => .inl (hnext m hm), (h.nodes p d hn hd).2⟩
    refine ⟨fun n hn => ?_, h.jump, h.unpatched, fun n hn => ?_, hfree hp,
      fun n hn => h.new n (by simpa using hn)⟩
    · split at hn <;> exact hc n hn
    · cases hn
      exact hid

theorem movDeferredScJmpList_lost (hc : c.Reachable A) (hc' : c'.Reachable A) :
    KeepsLost Q J A none (movDeferredScJmpList c c') fun c'' => c''.Reachable A := by
  unfold movDeferredScJmpList
  split
  · exact (check_lost _).bind fun _ _ => .pure hc'
  · split
    · rename_i f hf
      refine (check_lost _).bind fun _ _ => ?_
      split
      · rename_i l _
        refine Keeps.bind (q := fun _ => True) ?_ fun _ _ => .pure hc
        intro B u B' h he
        cases he
        refine ⟨trivial, h.jump, h.unpatched, h.free, ?_, fun n hn => h.new n (by simpa using hn)⟩
        refine Avoids.modify h.nodes fun d hn hd => ⟨fun m hm => ?_, (h.nodes l d hn hd).2⟩
        cases hm
        exact .inl (hc' _ hf)
      · exact .failure
    · exact .pure hc

theorem patchOppositeScJmps_lost {t : BBlockId} {scVal : Bool} {fuel : Nat} {prev i : Option NodeId}
    (hc : c.Reachable A) (hi : ∀ n, i = some n → A n) :
    KeepsLost Q J A none (patchOppositeScJmps t scVal fuel c prev i) fun c' => c'.Reachable A := by
  induction fuel generalizing c prev i with
  | zero =>
    cases i with
    | none => exact .pure hc
    | some n => exact .failure
  | succ fuel ih =>
    cases i with
    | none => exact .pure hc
    | some n =>
      refine Keeps.get_bind fun B hB => ?_
      split
      case h_2 => exact .failure
      case h_1 node hnode =>
        obtain ⟨hnext, hjmp⟩ := hB.nodes n node (hi n rfl) hnode
        have hnext' : ∀ m, node.next = some m → A m := fun m hm =>
          (hnext m hm).resolve_right (by simp)
        refine Keeps.ite (fun _ => ?_) fun _ => ih hc hnext'
        split
        · rename_i j hj
          rw [hj] at hjmp
          refine (patchJmpTarget_lost (by simpa using hjmp)).bind fun _ _ => ?_
          exact (delDeferredScJmp_lost hc (hi n rfl)).bind fun c' hc' => ih hc' hnext'
        · exact .failure

/-- The nodes of a list that can be walked. -/
theorem scJmpList_lost {fuel : Nat} {i : Option NodeId} {L : List (NodeId × DeferredJmpcc)}
    (h : LostJmp Q J A none B) (hi : ∀ n, i = some n → A n)
    (hL : scJmpList B.scJmps fuel i = some L) : ∀ x ∈ L, x.2.jmp ≠ some J := by
  induction fuel generalizing i L with
  | zero =>
    cases i with
    | none =>
      cases hL
      simp
    | some n => cases hL
  | succ fuel ih =>
    cases i with
    | none =>
      cases hL
      simp
    | some n =>
      simp only [scJmpList] at hL
      obtain ⟨node, hnode, hL⟩ := Option.bind_eq_some_iff.mp hL
      obtain ⟨rest, hrest, hL⟩ := Option.bind_eq_some_iff.mp hL
      cases hL
      obtain ⟨hnext, hjmp⟩ := h.nodes n node (hi n rfl) hnode
      intro x hx
      rcases List.mem_cons.mp hx with rfl | hx
      · exact hjmp
      · exact ih (fun m hm => (hnext m hm).resolve_right (by simp)) hrest x hx

theorem deferredScJmps_lost {fuel : Nat} (hc : c.Reachable A) :
    KeepsLost Q J A none (deferredScJmps fuel c) fun L => ∀ x ∈ L, x.2.jmp ≠ some J := by
  refine Keeps.get_bind fun B hB => ?_
  split
  · rename_i L hL
    exact .pure (scJmpList_lost hB hc hL)
  · exact .failure

theorem negScJmps_lost (L : List (NodeId × DeferredJmpcc)) :
    KeepsLost Q J A none (negScJmps L) fun _ => True := by
  induction L with
  | nil => exact .pure trivial
  | cons x L ih =>
    refine Keeps.bind (q := fun _ => True) ?_ fun _ _ => ih
    intro B u B' h he
    cases he
    exact ⟨trivial, h.jump, h.unpatched, h.free, Avoids.modify h.nodes fun d hn hd =>
      h.nodes _ d hn hd, fun n hn => h.new n (by simpa using hn)⟩

theorem patchScJmps_lost {tgt : Bool → Option BBlockId} {L : List (NodeId × DeferredJmpcc)}
    (hL : ∀ x ∈ L, x.2.jmp ≠ some J) : KeepsLost Q J A none (patchScJmps tgt L) fun _ => True := by
  induction L with
  | nil => exact .pure trivial
  | cons x L ih =>
    obtain ⟨n, node⟩ := x
    have hrest := ih fun y hy => hL y (List.mem_cons_of_mem _ hy)
    unfold patchScJmps
    split
    · rename_i j _ hj
      have hne := hL _ List.mem_cons_self
      rw [hj] at hne
      exact (patchJmpTarget_lost (by simpa using hne)).bind fun _ _ => hrest
    · exact .failure
    · exact hrest

end Lists

/-! ## Boolean expressions -/

/-- A result from which the lost jump cannot be reached. -/
def ExprResult.Safe (J : Nat) (A : Nat → Prop) (er : ExprResult) : Prop :=
  ∀ c, er.kind = .deferredCmp c → c.Reachable A ∧ c.finalJmp.jmp ≠ some J

section Expressions

variable {b : BBlockId} {er : ExprResult} {c : DeferredCmp} {fuel : Nat} {scVal : Bool}

theorem mergeLeft_lost (hc : c.Reachable A) (hj : c.finalJmp.jmp ≠ some J) :
    KeepsLost Q J A none (mergeLeft fuel scVal b c) fun p => p.1.Reachable A := by
  refine (copyScJmp_lost hj).bind ?_
  rintro ⟨d, b₂⟩ hd
  simp only
  split
  · rename_i j hdj
    have hjne : j ≠ J := fun e => hd.1 (e ▸ hdj)
    exact (newDeferredScJmp_lost hc hjne).bind fun c' hc' =>
      (patchOppositeScJmps_lost hc' hc').bind fun c'' hc'' => .pure hc''
  · exact .failure

theorem leftOperand_lost (her : er.Safe J A) :
    KeepsLost Q J A none (leftOperand fuel scVal b er) fun p => p.1.Reachable A := by
  unfold leftOperand
  split
  · rename_i c hc
    exact mergeLeft_lost (her c hc).1 (her c hc).2
  · refine jmpOnValue_lost.bind ?_
    rintro ⟨d, b₂⟩ hd
    simp only
    split
    · rename_i j hdj
      have hjne : j ≠ J := fun e => hd (e ▸ hdj)
      exact (newDeferredScJmp_lost (fun n hn => by cases hn) hjne).bind fun c hc => .pure hc
    · exact .failure

theorem rightOperand_lost (hc : c.Reachable A) (her : er.Safe J A) :
    KeepsLost Q J A none (rightOperand c b er) fun p => p.2.Safe J A := by
  unfold rightOperand
  split
  · rename_i rc hrc
    refine (movDeferredScJmpList_lost hc (her rc hrc).1).bind fun c' hc' => ?_
    refine (copyScJmp_lost (her rc hrc).2).bind fun d hd => .pure fun c'' he => ?_
    cases he
    exact ⟨hc', hd.1⟩
  · refine jmpOnValue_lost.bind fun d hd => .pure fun c'' he => ?_
    cases he
    exact ⟨hc, hd⟩

theorem emitLogicNot_lost (her : er.Safe J A) :
    KeepsLost Q J A none (emitLogicNot fuel b er) fun p => p.2.Safe J A := by
  unfold emitLogicNot
  split
  · rename_i c hc
    refine (deferredScJmps_lost (her c hc).1).bind fun L _ =>
      (negScJmps_lost L).bind fun _ _ => .pure fun c' he => ?_
    cases he
    exact her c hc
  · refine cmpToZero_lost.bind fun _ _ => .pure fun c' he => ?_
    cases he
    exact ⟨fun n hn => (by cases hn), by simp [DeferredCmp.ofCmp]⟩

theorem emitShortCircuitCmp_lost {emitL emitR : BBlockId → Build (BBlockId × ExprResult)}
    (hL : KeepsLost Q J A none (emitL b) fun p => p.2.Safe J A)
    (hR : ∀ b, KeepsLost Q J A none (emitR b) fun p => p.2.Safe J A) :
    KeepsLost Q J A none (emitShortCircuitCmp fuel scVal emitL emitR b) fun p => p.2.Safe J A :=
  hL.bind fun _ hl => (check_lost _).bind fun _ _ => (leftOperand_lost hl).bind fun _ hc =>
    (hR _).bind fun _ hr => (check_lost _).bind fun _ _ => rightOperand_lost hc hr

theorem emitBExpr_lost (e : BExpr) :
    KeepsLost Q J A none (emitBExpr fuel e b) fun p => p.2.Safe J A := by
  induction e generalizing b with
  | leaf l =>
    intro B p B' h he
    obtain ⟨b', er⟩ := p
    exact ⟨fun c hc => absurd hc ((l.plain _ _ _ _ _ he).1.2.2 c), l.keeps _ _ _ _ _ _ _ _ he h⟩
  | cmp cond o =>
    refine Keeps.bind (q := fun _ => True) ?_ fun p _ => ?_
    · intro B p B' h he
      obtain ⟨b', xy⟩ := p
      exact ⟨trivial, o.keeps _ _ _ _ _ _ _ _ he h⟩
    · refine emitBinaryCmp_lost.bind fun cmp _ => .pure fun c hc => ?_
      cases hc
      exact ⟨fun n hn => (by cases hn), by simp [DeferredCmp.ofCmp]⟩
  | not e ih => exact ih.bind fun _ h => emitLogicNot_lost h
  | and l r ihl ihr => exact emitShortCircuitCmp_lost ihl fun _ => ihr
  | or l r ihl ihr => exact emitShortCircuitCmp_lost ihl fun _ => ihr

/-- `IR_process_cfg_cond` gives a jump that the emission of its condition has lost no target. -/
theorem processCfgCond_lost {hdr t : BBlockId} {sense : Bool} {I : ProcBuilder → Prop}
    {emit : BBlockId → Build (BBlockId × ExprResult)}
    (hE : Triple I (emit hdr) fun p B => p.2.Safe J A ∧ LostJmp Q J A none B) :
    Triple I (processCfgCond fuel emit hdr sense t) fun _ B => True ∧ LostJmp Q J A none B := by
  refine hE.bind_keeps ?_
  rintro ⟨b, er⟩ her
  simp only
  split
  · rename_i c hc
    obtain ⟨hreach, hfin⟩ := her c hc
    refine fixScJmpPath_lost.bind fun d hd => ?_
    have hpatch : ∀ b', KeepsLost Q J A none (do
        let L ← deferredScJmps fuel c
        patchScJmps (fun r => some (if r = sense then t else b')) L
        pure b' : Build BBlockId) fun _ => True := fun b' =>
      (deferredScJmps_lost hreach).bind fun L hL => (patchScJmps_lost hL).bind fun _ _ =>
        .pure trivial
    split
    · rename_i j hdj
      rw [← hd.1, hdj] at hfin
      exact (patchJmpTarget_lost (by simpa using hfin)).bind fun _ _ => hpatch b
    · exact allocBBlock_lost.bind fun last _ => (cmpReg_lost _).bind fun _ _ =>
        emitInstrCondJmp_lost.bind fun _ _ => hpatch last
  · exact cmpToZero_lost.bind fun _ _ => (cmpReg_lost _).bind fun _ _ =>
      allocBBlock_lost.bind fun _ _ => emitInstrCondJmp_lost.bind fun _ _ => .pure trivial

end Expressions

end Nibble.IR
