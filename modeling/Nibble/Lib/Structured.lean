import Mathlib.Logic.Relation
import Mathlib.Tactic.ByContra

/-!
# Structured programs

What a program with loops, `break`, `continue` and `return` does to a store. A
loop is cut after a number of rounds; a program that is cut for every number
does not end. A machine carries a program out (`Carries`) if it reaches an exit
for the program's outcome, and runs at least as long as the loops are followed
where the program is cut.
-/

namespace Nibble.Lib

/-- How control leaves a program. -/
inductive Outcome (ρ : Type*) where
  | normal
  | brk
  | cont
  | ret (r : ρ)
  deriving DecidableEq, Repr

namespace Structured

variable {σ ρ : Type*}

/-- From a store to an outcome and a store, or to nothing if a loop has been cut. -/
abbrev Prog (σ ρ : Type*) := σ → Option (Outcome ρ × σ)

def act (f : σ → σ) : Prog σ ρ := fun st => some (.normal, f st)

def skip : Prog σ ρ := act id

def seq (p q : Prog σ ρ) : Prog σ ρ := fun st =>
  match p st with
  | some (.normal, st') => q st'
  | r => r

def branch (c : σ → σ × Bool) (p q : Prog σ ρ) : Prog σ ρ := fun st =>
  if (c st).2 then p (c st).1 else q (c st).1

/-- One of the programs, or none of them. -/
def switch (c : σ → σ × Option Nat) (ps : List (Prog σ ρ)) : Prog σ ρ := fun st =>
  match (c st).2.bind (ps[·]?) with
  | some p => p (c st).1
  | none => some (.normal, (c st).1)

/-! ## Loops -/

/-- A round of a loop: to the store that the next one begins in, or out of the loop. -/
abbrev Round (σ ρ : Type*) := σ → Option (σ ⊕ Outcome ρ × σ)

/-- At most `n` rounds. -/
def rounds (r : Round σ ρ) : Nat → Prog σ ρ
  | 0, _ => none
  | n + 1, st =>
    match r st with
    | none => none
    | some (.inl st') => rounds r n st'
    | some (.inr out) => some out

/-- What the body of a loop leads to, with what is done when it ends and when it continues. -/
def afterBody (normal cont : σ → σ ⊕ Outcome ρ × σ) :
    Option (Outcome ρ × σ) → Option (σ ⊕ Outcome ρ × σ)
  | none => none
  | some (.normal, st) => some (normal st)
  | some (.cont, st) => some (cont st)
  | some (.brk, st) => some (.inr (.normal, st))
  | some (.ret r, st) => some (.inr (.ret r, st))

/-- A round that tests first. The body, also where it continues, is followed by `next`. -/
def whileRound (c : σ → σ × Bool) (body : Prog σ ρ) (next : σ → σ) : Round σ ρ := fun st =>
  if (c st).2 then
    afterBody (fun st => .inl (next st)) (fun st => .inl (next st)) (body (c st).1)
  else some (.inr (.normal, (c st).1))

/-- A round that tests last. Where the body continues there is no test. -/
def doWhileRound (c : σ → σ × Bool) (body : Prog σ ρ) : Round σ ρ := fun st =>
  afterBody (fun st => if (c st).2 then .inl (c st).1 else .inr (.normal, (c st).1)) .inl (body st)

/-! ## Outcomes -/

/-- Where the program ends, the outcome is one of `Q`. -/
def Ends (p : Prog σ ρ) (Q : Outcome ρ → Prop) : Prop := ∀ st o st', p st = some (o, st') → Q o

namespace Ends

variable {p q : Prog σ ρ} {Q Q' : Outcome ρ → Prop} {c : σ → σ × Bool} {next : σ → σ}

theorem mono (h : Ends p Q) (hQ : ∀ o, Q o → Q' o) : Ends p Q' :=
  fun st o st' hp => hQ o (h st o st' hp)

theorem act (h : Q .normal) (f : σ → σ) : Ends (act f) Q := by
  intro st o st' hp
  cases hp
  exact h

theorem seq (hp : Ends p Q) (hnormal : Q .normal → Ends q Q')
    (hexit : ∀ o, o ≠ .normal → Q o → Q' o) : Ends (seq p q) Q' := by
  intro st o st' hrun
  unfold Structured.seq at hrun
  split at hrun
  · rename_i st₁ hfirst
    exact hnormal (hp st _ st₁ hfirst) _ _ _ hrun
  · rename_i hfirst
    exact hexit o (fun ho => hfirst st' (ho ▸ hrun)) (hp st o st' hrun)

theorem branch (hp : Ends p Q) (hq : Ends q Q) (c : σ → σ × Bool) : Ends (branch c p q) Q := by
  intro st o st' hrun
  unfold Structured.branch at hrun
  split at hrun
  · exact hp _ _ _ hrun
  · exact hq _ _ _ hrun

/-- Either one of the programs is always selected, or they are all passed over at times. -/
theorem switch {ps : List (Prog σ ρ)} {c : σ → σ × Option Nat} (hps : ∀ p ∈ ps, Ends p Q)
    (hnone : Q .normal ∨ ∀ st, ∃ i, i < ps.length ∧ (c st).2 = some i) :
    Ends (switch c ps) Q := by
  intro st o st' hrun
  unfold Structured.switch at hrun
  split at hrun
  · rename_i p hp
    obtain ⟨i, -, hi⟩ := Option.bind_eq_some_iff.mp hp
    exact hps p (List.mem_of_getElem? hi) _ _ _ hrun
  · rename_i hp
    rcases hnone with h | h
    · cases hrun
      exact h
    · obtain ⟨i, hlt, hi⟩ := h st
      rw [hi, Option.bind_some, List.getElem?_eq_getElem hlt] at hp
      cases hp

theorem rounds {r : Round σ ρ} (h : ∀ st o st', r st = some (.inr (o, st')) → Q o) (n : Nat) :
    Ends (rounds r n) Q := by
  induction n with
  | zero => nofun
  | succ n ih =>
    intro st o st' hrun
    unfold Structured.rounds at hrun
    split at hrun
    · cases hrun
    · exact ih _ _ _ hrun
    · rename_i hr
      cases hrun
      exact h _ _ _ hr

/-- A loop ends normally or as a `return` of its body. -/
theorem whileLoop (hbody : Ends p Q) (hnormal : Q' .normal) (hret : ∀ r, Q (.ret r) → Q' (.ret r))
    (n : Nat) : Ends (Structured.rounds (whileRound c p next) n) Q' := by
  refine rounds (fun st o st' hr => ?_) n
  unfold whileRound at hr
  split at hr
  · generalize hb : p (c st).1 = b at hr
    match b with
    | none | some (.normal, _) | some (.cont, _) => cases hr
    | some (.brk, _) =>
      cases hr
      exact hnormal
    | some (.ret r, _) =>
      cases hr
      exact hret r (hbody _ _ _ hb)
  · cases hr
    exact hnormal

theorem doWhileLoop (hbody : Ends p Q) (hnormal : Q' .normal) (hret : ∀ r, Q (.ret r) → Q' (.ret r))
    (n : Nat) : Ends (Structured.rounds (doWhileRound c p) n) Q' := by
  refine rounds (fun st o st' hr => ?_) n
  unfold doWhileRound at hr
  generalize hb : p st = b at hr
  match b with
  | none | some (.cont, _) => cases hr
  | some (.normal, st₁) =>
    unfold afterBody at hr
    dsimp only at hr
    split at hr
    · cases hr
    · cases hr
      exact hnormal
  | some (.brk, _) =>
    cases hr
    exact hnormal
  | some (.ret r, _) =>
    cases hr
    exact hret r (hbody _ _ _ hb)

end Ends

/-! ## Machines -/

section Machine

variable {γ : Type*} {step : γ → Option γ} {c d : γ} {n m : Nat}

/-- The machine makes `n` steps. -/
def LongRun (step : γ → Option γ) : Nat → γ → Prop
  | 0, _ => True
  | n + 1, c => ∃ d, step c = some d ∧ LongRun step n d

abbrev StepsTo (step : γ → Option γ) : γ → γ → Prop :=
  Relation.ReflTransGen fun c d => step c = some d

theorem LongRun.mono (h : LongRun step n c) (hm : m ≤ n) : LongRun step m c := by
  induction m generalizing n c with
  | zero => trivial
  | succ m ih =>
    obtain ⟨n, rfl⟩ := Nat.exists_eq_succ_of_ne_zero (Nat.ne_of_gt (Nat.zero_lt_of_lt hm))
    obtain ⟨d, hd, h⟩ := h
    exact ⟨d, hd, ih h (Nat.le_of_succ_le_succ hm)⟩

theorem LongRun.of_steps (hs : StepsTo step c d) (h : LongRun step n d) : LongRun step n c := by
  induction hs using Relation.ReflTransGen.head_induction_on with
  | refl => exact h
  | head hstep _ ih => exact LongRun.mono (n := n + 1) ⟨_, hstep, ih⟩ (Nat.le_succ n)

/-- A long run goes on from every state that it passes. -/
theorem LongRun.exists_step (h : ∀ n, LongRun step n c) (hs : StepsTo step c d) :
    ∃ e, step d = some e := by
  have hall : ∀ n, LongRun step n d := by
    induction hs with
    | refl => exact h
    | tail _ hstep ih =>
      intro n
      obtain ⟨e, he, hrun⟩ := ih (n + 1)
      rwa [← Option.some.inj (hstep.symm.trans he)] at hrun
  obtain ⟨e, he, -⟩ := hall 1
  exact ⟨e, he⟩

/-- The machine gets to an exit for the outcome, or makes `n` steps where there is none. -/
def Carries (step : γ → Option γ) (exit : Outcome ρ → σ → γ → Prop) (n : Nat)
    (r : Option (Outcome ρ × σ)) (c : γ) : Prop :=
  match r with
  | some (o, st) => ∃ d, StepsTo step c d ∧ exit o st d
  | none => LongRun step n c

variable {exit exit' : Outcome ρ → σ → γ → Prop} {r : Option (Outcome ρ × σ)} {p q : Prog σ ρ}
  {st : σ}

theorem Carries.of_steps (hs : StepsTo step c d) (h : Carries step exit n r d) :
    Carries step exit n r c := by
  cases r with
  | none => exact LongRun.of_steps hs h
  | some out =>
    obtain ⟨e, hrun, he⟩ := h
    exact ⟨e, hs.trans hrun, he⟩

/-- What the exits of a program lead to. -/
theorem Carries.bind (h : Carries step exit n r c)
    (hexit : ∀ o st d, r = some (o, st) → exit o st d → ∃ e, StepsTo step d e ∧ exit' o st e) :
    Carries step exit' n r c := by
  cases r with
  | none => exact h
  | some out =>
    obtain ⟨d, hs, hd⟩ := h
    obtain ⟨e, hs', he⟩ := hexit _ _ d rfl hd
    exact ⟨e, hs.trans hs', he⟩

theorem Carries.seq (h : Carries step exit n (p st) c)
    (hnormal : ∀ st' d, p st = some (.normal, st') → exit .normal st' d →
      Carries step exit' n (q st') d)
    (hexit : ∀ o st' d, p st = some (o, st') → o ≠ .normal → exit o st' d →
      ∃ e, StepsTo step d e ∧ exit' o st' e) :
    Carries step exit' n (seq p q st) c := by
  unfold Structured.seq
  generalize hr : p st = r at h hnormal hexit
  match r with
  | none => exact h
  | some (.normal, st') =>
    obtain ⟨d, hs, hd⟩ := h
    exact (hnormal st' d rfl hd).of_steps hs
  | some (.brk, st') | some (.cont, st') | some (.ret w, st') =>
    exact h.bind fun o st d heq hd => hexit o st d heq (by cases heq; nofun) hd

/-- What a round has to do: get back to the head of the loop in a step or more, or out of it. -/
def RoundCarries (step : γ → Option γ) (head : σ → γ → Prop) (exit : Outcome ρ → σ → γ → Prop)
    (n : Nat) (r : Option (σ ⊕ Outcome ρ × σ)) (c : γ) : Prop :=
  match r with
  | none => LongRun step n c
  | some (.inl st) => ∃ d e, step c = some d ∧ StepsTo step d e ∧ head st e
  | some (.inr (o, st)) => ∃ d, StepsTo step c d ∧ exit o st d

theorem exists_step_of_tail {e : γ} (hs : StepsTo step c d) (hstep : step d = some e) :
    ∃ d', step c = some d' ∧ StepsTo step d' e := by
  rcases hs.cases_head with rfl | ⟨d', hd', hs⟩
  · exact ⟨e, hstep, .refl⟩
  · exact ⟨d', hd', hs.tail hstep⟩

/-- A round that ends with its body. -/
theorem RoundCarries.afterBody {head : σ → γ → Prop} {f g : σ → σ ⊕ Outcome ρ × σ}
    (h : Carries step exit' n r c)
    (hnormal : ∀ st d, StepsTo step c d → exit' .normal st d →
      RoundCarries step head exit n (some (f st)) c)
    (hcont : ∀ st d, StepsTo step c d → exit' .cont st d →
      RoundCarries step head exit n (some (g st)) c)
    (hbrk : ∀ st d, exit' .brk st d → ∃ e, StepsTo step d e ∧ exit .normal st e)
    (hret : ∀ w st d, exit' (.ret w) st d → ∃ e, StepsTo step d e ∧ exit (.ret w) st e) :
    RoundCarries step head exit n (afterBody f g r) c := by
  match r with
  | none => exact h
  | some (.normal, st) =>
    obtain ⟨d, hs, hd⟩ := h
    exact hnormal st d hs hd
  | some (.cont, st) =>
    obtain ⟨d, hs, hd⟩ := h
    exact hcont st d hs hd
  | some (.brk, st) =>
    obtain ⟨d, hs, hd⟩ := h
    obtain ⟨e, hs', he⟩ := hbrk st d hd
    exact ⟨e, hs.trans hs', he⟩
  | some (.ret w, st) =>
    obtain ⟨d, hs, hd⟩ := h
    obtain ⟨e, hs', he⟩ := hret w st d hd
    exact ⟨e, hs.trans hs', he⟩

theorem Carries.rounds {head : σ → γ → Prop} {round : Round σ ρ} {N : Nat}
    (hround : ∀ st c, head st c → RoundCarries step head exit N (round st) c) (hn : n ≤ N)
    (hc : head st c) : Carries step exit n (rounds round n st) c := by
  induction n generalizing st c with
  | zero => trivial
  | succ n ih =>
    have h := hround st c hc
    unfold Structured.rounds
    generalize round st = r at h
    match r with
    | none => exact LongRun.mono h hn
    | some (.inr (o, st')) => exact h
    | some (.inl st') =>
      obtain ⟨d, e, hstep, hs, he⟩ := h
      have hrest := ih (Nat.le_of_succ_le hn) he
      show Carries step exit (n + 1) (Structured.rounds round n st') c
      generalize Structured.rounds round n st' = out at hrest
      cases out with
      | none => exact ⟨d, hstep, LongRun.of_steps hs hrest⟩
      | some out =>
        obtain ⟨f, hs', hf⟩ := hrest
        exact ⟨f, .head hstep (hs.trans hs'), hf⟩

/-- A loop that the machine carries out for every number of rounds, with exits where it stops: it
stops just as the program does, and nowhere else. -/
theorem Carries.complete {p : Nat → Prog σ ρ} (hexit : ∀ o st d, exit o st d → step d = none)
    (huniq : ∀ o st o' st' d, exit o st d → exit o' st' d → o = o' ∧ st = st')
    (h : ∀ n, Carries step exit n (p n st) c) :
    (∀ o st', (∃ d, StepsTo step c d ∧ exit o st' d) ↔ ∃ n, p n st = some (o, st')) ∧
      ∀ d, StepsTo step c d → (∃ e, step d = some e) ∨ ∃ o st', exit o st' d := by
  have hdet : Relator.RightUnique fun c d : γ => step c = some d := fun _ _ _ h h' =>
    Option.some.inj (h.symm.trans h')
  -- A state that is reached lies on the way to an exit.
  have hway : ∀ {d e o st'}, StepsTo step c d → StepsTo step c e → exit o st' e →
      (∃ f, step d = some f) ∨ d = e := by
    intro d e o st' hd he hexit'
    rcases Relation.ReflTransGen.total_of_right_unique hdet hd he with hs | hs
    · rcases hs.cases_head with rfl | ⟨f, hf, -⟩
      · exact .inr rfl
      · exact .inl ⟨f, hf⟩
    · rcases hs.cases_head with rfl | ⟨f, hf, -⟩
      · exact .inr rfl
      · rw [hexit _ _ _ hexit'] at hf
        cases hf
  refine ⟨fun o st' => ⟨?_, ?_⟩, fun d hd => ?_⟩
  · rintro ⟨d, hd, ho⟩
    by_contra hnone
    have hlong : ∀ n, LongRun step n c := by
      intro n
      have hn := h n
      cases hr : p n st with
      | none => rwa [hr] at hn
      | some out =>
        rw [hr] at hn
        obtain ⟨e, he, hexit'⟩ := hn
        rcases hway hd he hexit' with ⟨f, hf⟩ | rfl
        · rw [hexit _ _ _ ho] at hf
          cases hf
        · obtain ⟨ho', hst⟩ := huniq _ _ _ _ _ ho hexit'
          exact absurd ⟨n, hr.trans (by rw [ho', hst])⟩ hnone
    obtain ⟨e, he⟩ := LongRun.exists_step hlong hd
    rw [hexit _ _ _ ho] at he
    cases he
  · rintro ⟨n, hn⟩
    have h := h n
    rw [hn] at h
    exact h
  · by_cases hall : ∀ n, p n st = none
    · refine .inl (LongRun.exists_step (fun n => ?_) hd)
      have hn := h n
      rw [hall n] at hn
      exact hn
    · obtain ⟨n, hn⟩ := Classical.not_forall.mp hall
      obtain ⟨⟨o, st'⟩, hout⟩ := Option.ne_none_iff_exists'.mp hn
      have h := h n
      rw [hout] at h
      obtain ⟨e, he, hexit'⟩ := h
      rcases hway hd he hexit' with hstep | rfl
      · exact .inl hstep
      · exact .inr ⟨o, st', hexit'⟩

end Machine

end Structured

end Nibble.Lib
