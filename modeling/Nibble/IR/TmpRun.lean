import Nibble.IR.TmpObj

/-!
# Runs of statements

An evaluation is the accesses that the code of one expression makes to the
temporaries of its statement, in any number and order. A run of a statement is a
sequence of evaluations, as the blocks of `IR_emit_stmt_if`, `IR_emit_cond_loop`
and the others are connected; it may be cut short anywhere. A temporary is one of
an evaluation: the next evaluation of the same expression has new ones.
-/

namespace Nibble.IR

/-- An instruction reads or writes a memory object. -/
structure Access where
  obj : MemObjId
  isWrite : Bool
  deriving DecidableEq, Repr

abbrev Evaluation := List Access

def TmpObjList.ids (list : TmpObjList) : List MemObjId := list.map TmpObj.memObj

/-- The accesses are to temporaries of the list. -/
def Evaluates (list : TmpObjList) (e : Evaluation) : Prop := ∀ a ∈ e, a.obj ∈ list.ids

inductive StmtOutcome where
  | normal | brk | cont | ret | cut
  deriving DecidableEq, Repr

/-- The evaluation of a condition, if there is one. -/
def EvaluatesCond : Option TmpObjList → List Evaluation → Prop
  | some list, es => ∃ e, es = [e] ∧ Evaluates list e
  | none, es => es = []

inductive TmpRuns : TmpCode → List Evaluation → StmtOutcome → Prop
  | cut (c) : TmpRuns c [] .cut
  | skip : TmpRuns .skip [] .normal
  | eval {list e} : Evaluates list e → TmpRuns (.eval list) [e] .normal
  | evalCut {list e} : Evaluates list e → TmpRuns (.eval list) [e] .cut
  | ret {list e} : Evaluates list e → TmpRuns (.ret list) [e] .ret
  | brk : TmpRuns .brk [] .brk
  | cont : TmpRuns .cont [] .cont
  | seq {c d es es' o} : TmpRuns c es .normal → TmpRuns d es' o → TmpRuns (.seq c d) (es ++ es') o
  | seqStop {c d es o} : TmpRuns c es o → o ≠ .normal → TmpRuns (.seq c d) es o
  | choiceLeft {c d es o} : TmpRuns c es o → TmpRuns (.choice c d) es o
  | choiceRight {c d es o} : TmpRuns d es o → TmpRuns (.choice c d) es o
  | loopExit {list body next es} : EvaluatesCond (some list) es →
    TmpRuns (.loop (some list) body next) es .normal
  | loopNext {cond body next es es₁ es₂ es₃ o₁ o} : EvaluatesCond cond es → TmpRuns body es₁ o₁ →
    o₁ = .normal ∨ o₁ = .cont → TmpRuns next es₂ .normal → TmpRuns (.loop cond body next) es₃ o →
    TmpRuns (.loop cond body next) (es ++ (es₁ ++ (es₂ ++ es₃))) o
  | loopBreak {cond body next es es₁} : EvaluatesCond cond es → TmpRuns body es₁ .brk →
    TmpRuns (.loop cond body next) (es ++ es₁) .normal
  | loopStop {cond body next es es₁ o} : EvaluatesCond cond es → TmpRuns body es₁ o →
    o = .ret ∨ o = .cut → TmpRuns (.loop cond body next) (es ++ es₁) o
  | loopStopNext {cond body next es es₁ es₂ o₁ o} : EvaluatesCond cond es → TmpRuns body es₁ o₁ →
    o₁ = .normal ∨ o₁ = .cont → TmpRuns next es₂ o → o ≠ .normal →
    TmpRuns (.loop cond body next) (es ++ (es₁ ++ es₂)) o
  | doWhileExit {body list es e} : TmpRuns body es .normal → Evaluates list e →
    TmpRuns (.doWhile body list) (es ++ [e]) .normal
  | doWhileNext {body list es e es' o} : TmpRuns body es .normal → Evaluates list e →
    TmpRuns (.doWhile body list) es' o → TmpRuns (.doWhile body list) (es ++ (e :: es')) o
  | doWhileCont {body list es es' o} : TmpRuns body es .cont → TmpRuns (.doWhile body list) es' o →
    TmpRuns (.doWhile body list) (es ++ es') o
  | doWhileBreak {body list es} : TmpRuns body es .brk → TmpRuns (.doWhile body list) es .normal
  | doWhileStop {body list es o} : TmpRuns body es o → o = .ret ∨ o = .cut →
    TmpRuns (.doWhile body list) es o

/-- The lists of temporaries of a statement and of the statements in it. -/
def TmpCode.lists : TmpCode → List TmpObjList
  | .skip | .brk | .cont => []
  | .eval list | .ret list => [list]
  | .seq c d | .choice c d => c.lists ++ d.lists
  | .loop cond body next => cond.toList ++ body.lists ++ next.lists
  | .doWhile body cond => cond :: body.lists

/-- Each evaluation is one of a list among `lists`. -/
def Covered (lists : List TmpObjList) (es : List Evaluation) : Prop :=
  ∀ e ∈ es, ∃ list ∈ lists, Evaluates list e

namespace Covered

variable {lists lists' : List TmpObjList} {es es' : List Evaluation}

theorem nil : Covered lists [] := by
  intro e he
  cases he

theorem single {list : TmpObjList} {e : Evaluation} (hl : list ∈ lists) (h : Evaluates list e) :
    Covered lists [e] :=
  fun _ he => ⟨list, hl, List.mem_singleton.mp he ▸ h⟩

theorem append (h : Covered lists es) (h' : Covered lists es') : Covered lists (es ++ es') :=
  fun e he => (List.mem_append.mp he).elim (h e) (h' e)

theorem mono (h : Covered lists es) (hl : ∀ l ∈ lists, l ∈ lists') : Covered lists' es := by
  intro e he
  obtain ⟨list, hmem, hev⟩ := h e he
  exact ⟨list, hl list hmem, hev⟩

theorem left (h : Covered lists es) : Covered (lists ++ lists') es :=
  h.mono fun _ => List.mem_append_left _

theorem right (h : Covered lists es) : Covered (lists' ++ lists) es :=
  h.mono fun _ => List.mem_append_right _

end Covered

theorem EvaluatesCond.covered {cond : Option TmpObjList} {es : List Evaluation}
    (h : EvaluatesCond cond es) : Covered cond.toList es := by
  cases cond with
  | some list =>
    obtain ⟨e, rfl, h⟩ := h
    exact .single (List.mem_singleton_self _) h
  | none => exact (h : es = []) ▸ .nil

/-- Every evaluation of a run is one of a list in the code. -/
theorem TmpRuns.covered {c : TmpCode} {es : List Evaluation} {o : StmtOutcome} (h : TmpRuns c es o) :
    Covered c.lists es := by
  induction h with
  | cut | skip | brk | cont => exact .nil
  | eval h | evalCut h | ret h => exact .single (List.mem_singleton_self _) h
  | seq _ _ ih ih' => exact ih.left.append ih'.right
  | seqStop _ _ ih | choiceLeft _ ih => exact ih.left
  | choiceRight _ ih => exact ih.right
  | loopExit hc => exact hc.covered.left.left
  | loopNext hc _ _ _ _ ih₁ ih₂ ih₃ =>
    exact hc.covered.left.left.append (ih₁.right.left.append (ih₂.right.append ih₃))
  | loopBreak hc _ ih | loopStop hc _ _ ih => exact hc.covered.left.left.append ih.right.left
  | loopStopNext hc _ _ _ _ ih₁ ih₂ =>
    exact hc.covered.left.left.append (ih₁.right.left.append ih₂.right)
  | doWhileExit _ he ih =>
    exact (ih.mono fun _ => List.mem_cons_of_mem _).append (.single List.mem_cons_self he)
  | @doWhileNext body list es e es' o _ he _ ih ih' =>
    have hcond : Covered (TmpCode.doWhile body list).lists [e] := .single List.mem_cons_self he
    exact (ih.mono fun _ => List.mem_cons_of_mem _).append (hcond.append ih')
  | doWhileCont _ _ ih ih' => exact (ih.mono fun _ => List.mem_cons_of_mem _).append ih'
  | doWhileBreak _ ih | doWhileStop _ _ ih => exact ih.mono fun _ => List.mem_cons_of_mem _

/-! ### Storage -/

/-- The memory object stands for another one, or for a place in it. -/
def RefersTo (mem : List MemObj) (o o' : MemObjId) : Prop :=
  mem[o]? = some (.alias o') ∨ ∃ a, mem[o]? = some (.addr a) ∧ a.base = .obj o'

/-- The bytes of memory object `o` are in anonymous object `i`, which was given to `r`. -/
inductive StoredIn (mem : List MemObj) : MemObjId → MemObjId → Nat → Prop
  | own {r i} : mem[r]? = some (.anonObj i) → StoredIn mem r r i
  | other {o o' r i} : RefersTo mem o o' → StoredIn mem o' r i → StoredIn mem o r i

/-- The accesses of a run, each with the number of its evaluation. -/
def accesses : Nat → List Evaluation → List (Nat × Access)
  | _, [] => []
  | n, e :: es => e.map (n, ·) ++ accesses (n + 1) es

/-- Between two accesses that one evaluation makes to the storage of a temporary, nothing but this
temporary is written there. -/
def Undisturbed (mem : List MemObj) (es : List Evaluation) : Prop :=
  ∀ (i j k : Nat) (n m : Nat) (a b c : Access) (r r' : MemObjId) (obj : Nat), i < j → j < k →
    (accesses 0 es)[i]? = some (n, a) → (accesses 0 es)[j]? = some (m, b) →
    (accesses 0 es)[k]? = some (n, c) → StoredIn mem a.obj r obj → StoredIn mem c.obj r obj →
    b.isWrite = true → StoredIn mem b.obj r' obj → m = n ∧ r' = r

end Nibble.IR
