import Nibble.Resolve.Flow

/-!
# What the flow flags promise

A statement that is accepted with a flag never comes to its end, and outside of
loops no accepted statement breaks or continues. An accepted statement leaves
the scopes and the errors as they were; a rejected one has reported an error.
-/

namespace Nibble.Resolve.Flow

open Nibble.Ast Nibble.Lib Nibble.Lib.Structured

variable {P : StmtParts} {σ ρ : Type*}

/-- A `switch` with a default case always selects a case. -/
def DefaultsSelect (chk : Checks P) (M : Meaning P σ ρ) : Prop :=
  ∀ head k, chk.switchExpr head k = true → chk.hasDefault head = true →
    ∀ st, ∃ i, i < k ∧ (M.select head st).2 = some i

/-- The outcomes of a statement with the flags `r`, in a loop or not. -/
structure Allowed (r : StmtFlags) (inLoop : Bool) (o : Outcome ρ) : Prop where
  ends : r.returns = true ∨ r.loopExits = true → o ≠ .normal
  outside : inLoop = false → o ≠ .brk ∧ o ≠ .cont

/-- At least one error has been reported. -/
def Reports (st st' : FlowState) : Prop := ∃ e es, st'.errors = st.errors ++ e :: es

theorem Reports.onError {st st' : FlowState} {es : List FlowError}
    (h : st'.errors = st.errors ++ es) (e : FlowError) : Reports st (onError e st').2 := by
  obtain _ | ⟨e', es⟩ := es
  · exact ⟨e, [], by show st'.errors ++ [e] = _; rw [h, List.append_nil]⟩
  · exact ⟨e', es ++ [e], by show st'.errors ++ [e] = _; rw [h, List.append_assoc]; rfl⟩

/-- What the check `x` says about `p`. -/
structure Says (x : StmtFlags × FlowState) (st : FlowState) (inLoop : Bool)
    (p : Nat → Prog σ ρ) : Prop where
  same : x.1.success = true → x.2 = st
  outside : x.1.success = true → inLoop = false → x.1.loopExits = false
  ends : x.1.success = true → ∀ n, Ends (p n) (Allowed x.1 inLoop)
  reports : x.1.success = false → Reports st x.2

abbrev Sound (x : Flow StmtFlags) (inLoop : Bool) (p : Nat → Prog σ ρ) : Prop :=
  ∀ st, Says (x st) st inLoop p

theorem bind_apply {α β : Type} (x : Flow α) (f : α → Flow β) (st : FlowState) :
    (x >>= f) st = f (x st).1 (x st).2 := rfl

variable {inLoop : Bool} {st : FlowState} {p q : Nat → Prog σ ρ} {x y : Flow StmtFlags}

theorem allowed_normal : Allowed (ρ := ρ) succeeded inLoop .normal :=
  ⟨fun h => by simp [succeeded] at h, fun _ => ⟨nofun, nofun⟩⟩

theorem Says.accept {r : StmtFlags} (hr : r.success = true)
    (houtside : inLoop = false → r.loopExits = false)
    (hends : ∀ n, Ends (p n) (Allowed r inLoop)) : Says (r, st) st inLoop p :=
  ⟨fun _ => rfl, fun _ => houtside, fun _ => hends, fun h => absurd (hr.symm.trans h) nofun⟩

theorem Says.reject {r : StmtFlags} {st' : FlowState} (hr : r.success = false)
    (h : Reports st st') : Says (r, st') st inLoop p :=
  ⟨fun h => absurd (hr.symm.trans h) nofun, fun h => absurd (hr.symm.trans h) nofun,
    fun h => absurd (hr.symm.trans h) nofun, fun _ => h⟩

/-- No error is taken back. -/
theorem Says.extends {r : StmtFlags} {st' : FlowState} (h : Says (r, st') st inLoop p) :
    ∃ es, st'.errors = st.errors ++ es := by
  cases hr : r.success with
  | true => exact ⟨[], by rw [show st' = st from h.same hr, List.append_nil]⟩
  | false =>
    obtain ⟨e, es, h⟩ := h.reports hr
    exact ⟨e :: es, h⟩

/-! ## Simple statements -/

theorem Says.failWith (e : FlowError) : Says (failWith e st) st inLoop p :=
  .reject rfl ⟨e, [], rfl⟩

/-- A statement that comes to its end. -/
theorem Says.succeeded (f : σ → σ) : Says (succeeded, st) st inLoop fun _ => act (ρ := ρ) f :=
  .accept rfl (fun _ => rfl) fun _ => .act allowed_normal f

theorem checkPart_sound (ok : Bool) (f : σ → σ) :
    Sound (ρ := ρ) (checkPart ok) inLoop fun _ => act f := by
  intro st
  cases ok
  · exact .failWith .inPart
  · exact .succeeded f

/-- A simple statement is right, or an error is reported. -/
theorem resolveSimple_cases (chk : Checks P) (s : SimpleStmt P) (flags : StmtIn) :
    resolveSimple chk s flags = pure succeeded ∨ ∃ e, resolveSimple chk s flags = failWith e := by
  have hcheck : ∀ ok, checkPart ok = pure succeeded ∨ ∃ e, checkPart ok = failWith e := by
    intro ok
    cases ok
    · exact .inr ⟨_, rfl⟩
    · exact .inl rfl
  cases s with
  | expr e => exact hcheck _
  | exprAssign e => exact hcheck _
  | decl d =>
    show resolveStmtDecl chk d flags = _ ∨ ∃ e, resolveStmtDecl chk d flags = _
    unfold resolveStmtDecl
    split
    · exact .inr ⟨_, rfl⟩
    · exact .inr ⟨_, rfl⟩
    · exact .inr ⟨_, rfl⟩
    · exact .inr ⟨_, rfl⟩
    · exact .inl rfl

theorem resolveOptSimple_cases (chk : Checks P) (s : Option (SimpleStmt P)) (flags : StmtIn) :
    resolveOptSimple chk s flags = pure succeeded ∨
      ∃ e, resolveOptSimple chk s flags = failWith e := by
  cases s with
  | none => exact .inl rfl
  | some s => exact resolveSimple_cases chk s flags

theorem resolveSimple_sound (chk : Checks P) (s : SimpleStmt P) (flags : StmtIn) (f : σ → σ) :
    Sound (ρ := ρ) (resolveSimple chk s flags) inLoop fun _ => act f := by
  intro st
  rcases resolveSimple_cases chk s flags with h | ⟨e, h⟩
  · rw [h]
    exact .succeeded f
  · rw [h]
    exact .failWith e

theorem resolveReturn_sound (chk : Checks P) (e : Option P.Ret) (f : σ → σ × ρ) :
    Sound (resolveReturn chk e) inLoop fun _ st => some (.ret (f st).2, (f st).1) := by
  have hreturned : ∀ st, Says (⟨true, true, false⟩, st) st inLoop
      fun _ st => some (.ret (f st).2, (f st).1) :=
    fun st => .accept rfl (fun _ => rfl) fun _ _ _ _ h => by
      cases h
      exact ⟨fun _ => nofun, fun _ => ⟨nofun, nofun⟩⟩
  have hfailed : ∀ e st, Says (⟨false, true, false⟩, (onError e st).2) st inLoop
      fun _ st => some (.ret (f st).2, (f st).1) :=
    fun e st => .reject rfl ⟨e, [], rfl⟩
  intro st
  unfold resolveReturn
  cases e with
  | none =>
    cases chk.retType with
    | none => exact hreturned st
    | some type => exact hfailed _ st
  | some e =>
    cases chk.retType with
    | none => exact hfailed _ st
    | some type =>
      dsimp only
      split
      · exact hreturned st
      · exact hfailed _ st

theorem resolveLoopExit_sound (illegal : FlowError) (flags : StmtIn) {o : Outcome ρ}
    (ho : o ≠ .normal) : Sound (resolveLoopExit illegal flags) flags.breakContinueAllowed
      fun _ (st : σ) => some (o, st) := by
  intro st
  unfold resolveLoopExit
  split
  · rename_i hallowed
    refine ⟨fun _ => rfl, fun _ h => ?_, fun _ _ st o' st' h => ?_, nofun⟩
    · rw [hallowed] at h
      cases h
    · cases h
      refine ⟨fun _ => ho, fun h => ?_⟩
      rw [hallowed] at h
      cases h
  · exact .failWith _

/-! ## Statements of statements -/

theorem inScope_sound (hx : Sound x inLoop p) : Sound (inScope x) inLoop p := by
  intro st
  have h := hx { st with depth := st.depth + 1 }
  show Says ((x >>= fun r => popScope >>= fun _ => pure r) { st with depth := st.depth + 1 }) st _ _
  rw [bind_apply]
  generalize x { st with depth := st.depth + 1 } = out at h ⊢
  obtain ⟨r, st₁⟩ := out
  cases hr : r.success with
  | false => exact .reject hr (h.reports hr)
  | true =>
    obtain rfl : st₁ = { st with depth := st.depth + 1 } := h.same hr
    exact .accept hr (h.outside hr) (h.ends hr)

theorem resolveStmtIf_sound (chk : Checks P) (cond : P.Cond) (c : σ → σ × Bool)
    {elseBody : Option (Flow StmtFlags)} (hif : Sound x inLoop p)
    (helse : match elseBody with
      | some y => Sound y inLoop q
      | none => q = fun _ => skip) :
    Sound (resolveStmtIf chk cond x elseBody) inLoop fun n => branch c (p n) (q n) := by
  intro st
  unfold resolveStmtIf
  split
  · exact .failWith _
  · have hx := hif st
    rw [bind_apply]
    generalize x st = out at hx ⊢
    obtain ⟨⟨success, returns, loopExits⟩, st₁⟩ := out
    cases success with
    | false => exact .reject rfl (hx.reports rfl)
    | true =>
      obtain rfl : st₁ = st := hx.same rfl
      cases elseBody with
      | none =>
        subst helse
        refine .accept rfl (fun _ => rfl) fun n => .branch ?_ (.act ?_ id) c
        · exact (hx.ends rfl n).mono fun o ho => ⟨fun h => by simp at h, ho.outside⟩
        · exact ⟨fun h => by simp at h, fun _ => ⟨nofun, nofun⟩⟩
      | some y =>
        have hy := helse st₁
        show Says ((y >>= fun r => pure (bothFlags ⟨true, returns, loopExits⟩ r)) st₁) st₁ _ _
        rw [bind_apply]
        generalize y st₁ = out at hy ⊢
        obtain ⟨⟨success, returns', loopExits'⟩, st₂⟩ := out
        cases success with
        | false => exact .reject rfl (hy.reports rfl)
        | true =>
          obtain rfl : st₂ = st₁ := hy.same rfl
          refine .accept rfl (fun h => ?_) fun n => .branch ?_ ?_ c
          · have hout : loopExits = false := hx.outside rfl h
            show (loopExits && loopExits') = false
            rw [hout, Bool.false_and]
          · refine (hx.ends rfl n).mono fun o ho => ⟨fun h => ho.ends ?_, ho.outside⟩
            simp only [bothFlags, Bool.and_eq_true] at h
            exact h.imp And.left And.left
          · refine (hy.ends rfl n).mono fun o ho => ⟨fun h => ho.ends ?_, ho.outside⟩
            simp only [bothFlags, Bool.and_eq_true] at h
            exact h.imp And.right And.right

/-- The outcomes of a loop, which has no flags. -/
theorem allowed_plain (r : StmtFlags) {o : Outcome ρ} (ho : o = .normal ∨ ∃ w, o = .ret w) :
    Allowed { r with returns := false, loopExits := false } inLoop o := by
  refine ⟨fun h => by simp at h, fun _ => ?_⟩
  rcases ho with rfl | ⟨w, rfl⟩
  · exact ⟨nofun, nofun⟩
  · exact ⟨nofun, nofun⟩

theorem resolveStmtWhile_sound (chk : Checks P) (cond : P.Cond) (c : σ → σ × Bool)
    (hbody : Sound x true p) : Sound (resolveStmtWhile chk cond x) inLoop
      fun n => rounds (whileRound c (p n) id) n := by
  intro st
  unfold resolveStmtWhile
  split
  · exact .failWith _
  · have hx := hbody st
    exact ⟨hx.same, fun _ _ => rfl, fun h n => .whileLoop (hx.ends h n) (allowed_plain _ (.inl rfl))
      (fun w _ => allowed_plain _ (.inr ⟨w, rfl⟩)) n, hx.reports⟩

theorem resolveStmtDoWhile_sound (chk : Checks P) (cond : P.Cond) (c : σ → σ × Bool)
    (hbody : Sound x true p) : Sound (resolveStmtDoWhile chk cond x) inLoop
      fun n => rounds (doWhileRound c (p n)) n := by
  intro st
  unfold resolveStmtDoWhile
  split
  · exact .failWith _
  · have hx := hbody st
    rw [bind_apply]
    generalize x st = out at hx ⊢
    obtain ⟨⟨success, returns, loopExits⟩, st₁⟩ := out
    obtain ⟨es, hext⟩ := hx.extends
    cases returns with
    | true =>
      have hreturns := Reports.onError hext .doWhileReturns
      cases loopExits with
      | true =>
        obtain ⟨e, es', h⟩ := hreturns
        exact .reject (by simp) (.onError h .doWhileExits)
      | false => exact .reject (by simp) hreturns
    | false =>
      cases loopExits with
      | true => exact .reject (by simp) (.onError hext .doWhileExits)
      | false =>
        cases success with
        | false => exact .reject rfl (hx.reports rfl)
        | true =>
          obtain rfl : st₁ = st := hx.same rfl
          exact .accept rfl (fun _ => rfl) fun n => .doWhileLoop (hx.ends rfl n)
            (allowed_plain ⟨true, false, false⟩ (.inl rfl))
            (fun w _ => allowed_plain ⟨true, false, false⟩ (.inr ⟨w, rfl⟩)) n

/-- A scope that is pushed for a check that is right is popped again. -/
theorem resolveStmtFor_sound (chk : Checks P) (init : Option (SimpleStmt P)) (cond : Option P.Cond)
    (next : Option (SimpleStmt P)) (flags : StmtIn) (f g : σ → σ) (c : σ → σ × Bool)
    (hbody : Sound x true p) : Sound (resolveStmtFor chk init cond x next flags) inLoop
      fun n => seq (act f) (rounds (whileRound c (p n) g) n) := by
  intro st
  unfold resolveStmtFor
  rw [bind_apply]
  show Says ((resolveOptSimple chk init _ >>= _) { st with depth := st.depth + 1 }) st _ _
  rw [bind_apply]
  rcases resolveOptSimple_cases chk init { flags with breakContinueAllowed := false } with h | ⟨e, h⟩
  swap
  · rw [h]
    exact .reject rfl ⟨e, [], rfl⟩
  rw [h]
  show Says ((if !(cond.all chk.cond) then failWith .inPart else _ : Flow StmtFlags)
    { st with depth := st.depth + 1 }) st _ _
  split
  · exact .reject rfl ⟨.inPart, [], rfl⟩
  rw [bind_apply]
  have hx := hbody { st with depth := st.depth + 1 }
  generalize x { st with depth := st.depth + 1 } = out at hx ⊢
  obtain ⟨⟨success, returns, loopExits⟩, st₁⟩ := out
  cases success with
  | false => exact .reject rfl (hx.reports rfl)
  | true =>
    obtain rfl : st₁ = { st with depth := st.depth + 1 } := hx.same rfl
    show Says ((resolveOptSimple chk next _ >>= _) { st with depth := st.depth + 1 }) st _ _
    rw [bind_apply]
    rcases resolveOptSimple_cases chk next { flags with breakContinueAllowed := false } with
      h | ⟨e, h⟩
    · rw [h]
      have hinit : Ends (ρ := ρ) (act f) (Eq .normal) := .act rfl f
      refine .accept rfl (fun _ => rfl) fun n => hinit.seq (fun _ => ?_) fun o ho h => absurd h.symm ho
      exact .whileLoop (hx.ends rfl n) (allowed_plain succeeded (.inl rfl))
        (fun w _ => allowed_plain succeeded (.inr ⟨w, rfl⟩)) n
    · rw [h]
      exact .reject rfl ⟨e, [], rfl⟩

/-- What the loop over the cases of a `switch` says: whether they all return, and whether they all
leave a loop. -/
structure SaysCases (out : Option (Bool × Bool) × FlowState) (st : FlowState) (inLoop : Bool)
    (ps : Nat → List (Prog σ ρ)) : Prop where
  same : ∀ a b, out.1 = some (a, b) → out.2 = st
  outside : ∀ a b, out.1 = some (a, b) → inLoop = false → b = true ∨ ∀ n, ps n = []
  ends : ∀ a b, out.1 = some (a, b) → ∀ n, ∀ p ∈ ps n, Ends p (Allowed ⟨true, !a, !b⟩ inLoop)
  reports : out.1 = none → Reports st out.2

theorem SaysCases.reject {st' : FlowState} {ps : Nat → List (Prog σ ρ)} (h : Reports st st') :
    SaysCases (none, st') st inLoop ps :=
  ⟨nofun, nofun, nofun, fun _ => h⟩

theorem Allowed.mono {r r' : StmtFlags} {o : Outcome ρ} (h : Allowed r inLoop o)
    (hreturns : r'.returns = true → r.returns = true)
    (hexits : r'.loopExits = true → r.loopExits = true) : Allowed r' inLoop o :=
  ⟨fun hr => h.ends (hr.imp hreturns hexits), h.outside⟩

/-- Behind a statement with a flag nothing is accepted. -/
theorem resolveStmtBlockBody_cons {chk : Checks P} {s : Stmt P} {stmts : List (Stmt P)}
    {flags : StmtIn} (hs : Sound (resolveStmt chk s flags) inLoop p)
    (hstmts : Sound (resolveStmtBlockBody chk succeeded stmts flags) inLoop q) :
    Sound (resolveStmtBlockBody chk succeeded (s :: stmts) flags) inLoop
      fun n => seq (p n) (q n) := by
  intro st
  show Says ((resolveStmt chk s flags >>= _) st) st _ _
  rw [bind_apply]
  have hx := hs st
  generalize resolveStmt chk s flags st = out at hx ⊢
  obtain ⟨⟨success, returns, loopExits⟩, st₁⟩ := out
  cases success with
  | false => exact .reject rfl (hx.reports rfl)
  | true =>
    obtain rfl : st₁ = st := hx.same rfl
    have hr : (⟨true, returns || false, loopExits || false⟩ : StmtFlags) =
        ⟨true, returns, loopExits⟩ := by rw [Bool.or_false, Bool.or_false]
    show Says (resolveStmtBlockBody chk ⟨true, returns || false, loopExits || false⟩ stmts flags st₁)
      st₁ _ _
    rw [hr]
    by_cases hflag : returns = true ∨ loopExits = true
    · cases stmts with
      | nil => exact .accept rfl (hx.outside rfl) fun n =>
          (hx.ends rfl n).seq (fun ho => absurd rfl (ho.ends hflag)) fun _ _ ho => ho
      | cons s' stmts =>
        cases returns with
        | true => exact .reject rfl ⟨.afterReturn, [], rfl⟩
        | false =>
          obtain rfl : loopExits = true := hflag.resolve_left nofun
          exact .reject rfl ⟨.afterLoopExit, [], rfl⟩
    · obtain ⟨rfl, rfl⟩ : returns = false ∧ loopExits = false := by simpa using hflag
      have hy := hstmts st₁
      show Says (resolveStmtBlockBody chk succeeded stmts flags st₁) st₁ _ _
      generalize resolveStmtBlockBody chk succeeded stmts flags st₁ = out at hy ⊢
      obtain ⟨r, st₂⟩ := out
      cases hsuccess : r.success with
      | false => exact .reject hsuccess (hy.reports hsuccess)
      | true =>
        obtain rfl : st₂ = st₁ := hy.same hsuccess
        exact .accept hsuccess (hy.outside hsuccess) fun n => (hx.ends rfl n).seq
          (fun _ => hy.ends hsuccess n) fun o hne ho => ⟨fun _ => hne, ho.outside⟩

theorem resolveCases_cons {chk : Checks P} {head : P.SwitchHead} {i : Nat} {stmts : List (Stmt P)}
    {cases : List (List (Stmt P))} {flags : StmtIn} {ps : Nat → List (Prog σ ρ)}
    (hx : Sound (inScope (resolveStmtBlockBody chk succeeded stmts flags)) inLoop p)
    (hrest : ∀ st, SaysCases (resolveCases chk head (i + 1) cases flags st) st inLoop ps)
    (st : FlowState) : SaysCases (resolveCases chk head i (stmts :: cases) flags st) st inLoop
      fun n => p n :: ps n := by
  unfold resolveCases
  split
  · exact .reject ⟨.inPart, [], rfl⟩
  rw [bind_apply]
  have h := hx st
  generalize inScope (resolveStmtBlockBody chk succeeded stmts flags) st = out at h ⊢
  obtain ⟨⟨success, returns, loopExits⟩, st₁⟩ := out
  cases success with
  | false => exact .reject (h.reports rfl)
  | true =>
    obtain rfl : st₁ = st := h.same rfl
    show SaysCases ((resolveCases chk head (i + 1) cases flags >>= _) st₁) st₁ _ _
    rw [bind_apply]
    have h' := hrest st₁
    generalize resolveCases chk head (i + 1) cases flags st₁ = out at h' ⊢
    obtain ⟨_ | ⟨a, b⟩, st₂⟩ := out
    · exact .reject (h'.reports rfl)
    · obtain rfl : st₂ = st₁ := h'.same a b rfl
      refine ⟨fun _ _ _ => rfl, fun a' b' heq hin => .inl ?_, fun a' b' heq n p' hp => ?_, nofun⟩
      · cases heq
        have hout : loopExits = false := h.outside rfl hin
        rw [hout]
        rfl
      · cases heq
        rcases List.mem_cons.mp hp with rfl | hp
        · refine (h.ends rfl n).mono fun o ho => ho.mono (fun hr => ?_) fun hr => ?_
          · revert hr
            cases returns <;> simp
          · revert hr
            cases loopExits <;> simp
        · refine (h'.ends a b rfl n p' hp).mono fun o ho => ho.mono (fun hr => ?_) fun hr => ?_
          · revert hr
            cases a <;> simp
          · revert hr
            cases b <;> simp

theorem resolveStmtSwitch_sound {chk : Checks P} {head : P.SwitchHead}
    {cases : List (List (Stmt P))} {flags : StmtIn} {ps : Nat → List (Prog σ ρ)}
    {c : σ → σ × Option Nat}
    (hcases : ∀ st, SaysCases (resolveCases chk head 0 cases flags st) st inLoop ps)
    (hlen : ∀ n, (ps n).length = cases.length)
    (hselect : chk.switchExpr head cases.length = true → chk.hasDefault head = true →
      ∀ st, ∃ i, i < cases.length ∧ (c st).2 = some i) :
    Sound (resolveStmt chk (.switchStmt head cases) flags) inLoop fun n => switch c (ps n) := by
  intro st
  unfold resolveStmt
  split
  · exact .failWith _
  rename_i hexpr
  split
  · exact .failWith _
  rename_i hsome
  split
  · exact .failWith _
  rw [bind_apply]
  have h := hcases st
  generalize resolveCases chk head 0 cases flags st = out at h ⊢
  obtain ⟨_ | ⟨a, b⟩, st₁⟩ := out
  · exact .reject rfl (h.reports rfl)
  obtain rfl : st₁ = st := h.same a b rfl
  show Says (switchFlags chk head a b st₁) st₁ _ _
  unfold switchFlags
  split
  swap
  · exact .failWith _
  refine .accept rfl (fun hin => ?_) fun n => .switch (fun p hp => ?_) ?_
  · rcases h.outside a b rfl hin with rfl | hnil
    · exact Bool.and_false _
    · exact absurd (by rw [← hlen 0, hnil 0]; rfl) hsome
  · refine (h.ends a b rfl n p hp).mono fun o ho => ho.mono (fun hr => ?_) fun hr => ?_
    · exact (Bool.and_eq_true_iff.mp hr).2
    · exact (Bool.and_eq_true_iff.mp hr).2
  · cases hdefault : chk.hasDefault head with
    | false => exact .inl ⟨fun h => by simp at h, fun _ => ⟨nofun, nofun⟩⟩
    | true =>
      refine .inr fun st => ?_
      rw [hlen]
      exact hselect (by simpa using hexpr) hdefault st

theorem length_execCases (M : Meaning P σ ρ) (n : Nat) (cases : List (List (Stmt P))) :
    (M.execCases n cases).length = cases.length := by
  induction cases with
  | nil => rfl
  | cons stmts cases ih =>
    unfold Meaning.execCases
    rw [List.length_cons, List.length_cons, ih]

mutual

theorem resolveStmt_sound {chk : Checks P} {M : Meaning P σ ρ} (hM : DefaultsSelect chk M) :
    ∀ (s : Stmt P) (flags : StmtIn),
      Sound (resolveStmt chk s flags) flags.breakContinueAllowed fun n => M.exec n s
  | .noOp, _ => fun _ => .succeeded id
  | .staticAssert a, _ => checkPart_sound (chk.staticAssert a) id
  | .simple s, flags => resolveSimple_sound chk s flags (M.simple s)
  | .ret e, _ => resolveReturn_sound chk e (M.ret e)
  | .brk, flags => resolveLoopExit_sound .illegalBreak flags nofun
  | .cont, flags => resolveLoopExit_sound .illegalContinue flags nofun
  | .block stmts, flags => inScope_sound
    (resolveStmtBlockBody_sound hM stmts { flags with varDeclDisallowed := false })
  | .ifStmt cond ifBody none, flags =>
    resolveStmtIf_sound chk cond (M.cond cond)
      (resolveStmt_sound hM ifBody { flags with varDeclDisallowed := true }) rfl
  | .ifStmt cond ifBody (some elseBody), flags =>
    resolveStmtIf_sound chk cond (M.cond cond)
      (resolveStmt_sound hM ifBody { flags with varDeclDisallowed := true })
      (resolveStmt_sound hM elseBody { flags with varDeclDisallowed := true })
  | .switchStmt head cases, flags => resolveStmtSwitch_sound
    (resolveCases_sound hM head 0 cases flags) (fun n => length_execCases M n cases)
    (hM head cases.length)
  | .whileStmt cond body, _ =>
    resolveStmtWhile_sound chk cond (M.cond cond) (resolveStmt_sound hM body ⟨true, true⟩)
  | .doWhileStmt cond body, _ =>
    resolveStmtDoWhile_sound chk cond (M.cond cond) (resolveStmt_sound hM body ⟨true, true⟩)
  | .forStmt init cond body next, flags =>
    resolveStmtFor_sound chk init cond next flags (M.optSimple init) (M.optSimple next)
      (M.optCond cond) (resolveStmt_sound hM body ⟨true, true⟩)

theorem resolveStmtBlockBody_sound {chk : Checks P} {M : Meaning P σ ρ}
    (hM : DefaultsSelect chk M) : ∀ (stmts : List (Stmt P)) (flags : StmtIn),
      Sound (resolveStmtBlockBody chk succeeded stmts flags) flags.breakContinueAllowed
        fun n => M.execBlock n stmts
  | [], _ => fun _ => .succeeded id
  | s :: stmts, flags => resolveStmtBlockBody_cons (resolveStmt_sound hM s flags)
    (resolveStmtBlockBody_sound hM stmts flags)

theorem resolveCases_sound {chk : Checks P} {M : Meaning P σ ρ} (hM : DefaultsSelect chk M)
    (head : P.SwitchHead) : ∀ (i : Nat) (cases : List (List (Stmt P))) (flags : StmtIn)
      (st : FlowState), SaysCases (resolveCases chk head i cases flags st) st
        flags.breakContinueAllowed fun n => M.execCases n cases
  | _, [], _, _ => ⟨fun _ _ _ => rfl, fun _ _ _ _ => .inr fun _ => rfl,
      fun _ _ _ _ _ hp => absurd hp List.not_mem_nil, nofun⟩
  | i, stmts :: cases, flags, _ => resolveCases_cons
    (inScope_sound (resolveStmtBlockBody_sound hM stmts flags))
    (resolveCases_sound hM head (i + 1) cases flags) _

end

/-! ## Procedures -/

/-- What `resolve_global_proc_body` promises: a run of an accepted body that ends does so by a
`return`, or at the end of a body that has not been noted to return, which has no value. -/
structure ProcSound (chk : Checks P) (M : Meaning P σ ρ) (stmts : List (Stmt P)) (st : FlowState)
    (result returns : Bool) (st' : FlowState) : Prop where
  same : result = true → st' = st
  reports : result = false → Reports st st'
  ends : result = true → ∀ n, Ends (M.execBlock n stmts) fun o =>
    (∃ w, o = .ret w) ∨ o = .normal ∧ returns = false
  value : result = true → returns = false → chk.retType = none

/-- A body that has not been noted to return is that of a procedure without a value. -/
theorem resolveGlobalProcBody_void {chk : Checks P} {name : String} {stmts : List (Stmt P)}
    {st st' : FlowState}
    (h : resolveGlobalProcBody chk name stmts st = some (true, false, st')) : chk.retType = none := by
  unfold resolveGlobalProcBody at h
  split at h
  rename_i r st₁ _
  split at h
  · cases h
  · split at h
    · cases h
    · rename_i hnot
      obtain ⟨success, returns, loopExits⟩ := r
      simp only [Option.some.injEq, Prod.mk.injEq] at h
      obtain ⟨rfl, rfl, -⟩ := h
      simpa using hnot

/-- The assertion of `resolve_global_proc_body` holds for every body. -/
theorem resolveGlobalProcBody_sound {chk : Checks P} {M : Meaning P σ ρ} (hM : DefaultsSelect chk M)
    (name : String) (stmts : List (Stmt P)) (st : FlowState) : ∃ result returns st',
      resolveGlobalProcBody chk name stmts st = some (result, returns, st') ∧
        ProcSound chk M stmts st result returns st' := by
  have h := resolveStmtBlockBody_sound hM stmts ⟨false, false⟩ { st with depth := st.depth + 1 }
  have hrun : ((do
      pushScope
      resolveStmtBlockBody chk succeeded stmts ⟨false, false⟩ : Flow StmtFlags).run st) =
    resolveStmtBlockBody chk succeeded stmts ⟨false, false⟩ { st with depth := st.depth + 1 } := rfl
  unfold resolveGlobalProcBody
  rw [hrun]
  generalize resolveStmtBlockBody chk succeeded stmts _ _ = out at h ⊢
  obtain ⟨⟨success, returns, loopExits⟩, st₁⟩ := out
  dsimp only
  cases success with
  | false =>
    rw [if_neg (by simp), if_neg (by simp)]
    exact ⟨_, _, _, rfl, nofun, fun _ => h.reports rfl, nofun, nofun⟩
  | true =>
    obtain rfl : st₁ = { st with depth := st.depth + 1 } := h.same rfl
    obtain rfl : loopExits = false := h.outside rfl rfl
    rw [if_neg (by simp)]
    split
    · exact ⟨_, _, _, rfl, nofun, fun _ => ⟨_, [], rfl⟩, nofun, nofun⟩
    · rename_i hvalue
      refine ⟨_, _, _, rfl, fun _ => rfl, nofun, fun _ n => (h.ends rfl n).mono fun o ho => ?_,
        fun _ hr => by simpa [hr] using hvalue⟩
      match o with
      | .ret w => exact .inl ⟨w, rfl⟩
      | .brk => exact absurd rfl (ho.outside rfl).1
      | .cont => exact absurd rfl (ho.outside rfl).2
      | .normal =>
        cases returns with
        | false => exact .inr ⟨rfl, rfl⟩
        | true => exact absurd rfl (ho.ends (.inl rfl))

def unitParts : StmtParts := ⟨Unit, Unit, Unit, Unit, Unit, Unit, Unit⟩

/-- A procedure with a value, in which each `switch` with a case has a default. -/
def unitChecks : Checks unitParts where
  retType := some "int"
  cond _ := true
  expr _ := true
  exprAssign _ := true
  decl _ := .ok
  ret _ := true
  switchExpr _ k := 0 < k
  switchCase _ _ := true
  switchCases _ := true
  hasDefault _ := true
  staticAssert _ := true

/-- A condition takes a bit of the store, and each `switch` selects its first case. -/
def unitMeaning : Meaning unitParts Nat Nat where
  simple _ n := n + 1
  cond _ n := (n / 2, n % 2 = 1)
  ret _ n := (n, n)
  select _ n := (n, some 0)

/-- `while (c) { e; if (c) break; } switch (e) { default: return e; }` -/
def whileSwitch : List (Stmt unitParts) :=
  [.whileStmt () (.block [.simple (.expr ()), .ifStmt () .brk none]),
    .switchStmt () [[.ret (some ())]]]

theorem resolveGlobalProcBody_sound_whileSwitch : ∃ result returns st',
    resolveGlobalProcBody unitChecks "f" whileSwitch ⟨[], 0⟩ = some (result, returns, st') ∧
      ProcSound unitChecks unitMeaning whileSwitch ⟨[], 0⟩ result returns st' :=
  resolveGlobalProcBody_sound (M := unitMeaning)
    (fun _ _ hk _ _ => ⟨0, of_decide_eq_true hk, rfl⟩) "f" whileSwitch ⟨[], 0⟩

end Nibble.Resolve.Flow
