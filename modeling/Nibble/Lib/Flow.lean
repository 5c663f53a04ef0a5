import Mathlib.Data.List.Basic
import Mathlib.Logic.Basic

/-!
# Flow graphs

A graph of blocks: each has a body and an exit, and a jump may lead nowhere.
`Reach` follows a path through the graph with the choices made at branches and
the bodies passed; `Runs` is what can be observed of a path. Removing a block
that only jumps, with all jumps to it redirected (`Threads`), keeps every path,
unless the block jumps to itself.
-/

namespace Nibble.Lib.Flow

variable {β ι : Type*}

/-- How a block ends. A target that is `none` is a jump to nowhere. -/
inductive Exit (β : Type*) where
  | ret
  | fall
  | jump (t : Option β)
  | branch (ts : List (Option β))
  deriving DecidableEq, Repr

structure Node (β ι : Type*) where
  body : List ι
  exit : Exit β
  deriving DecidableEq, Repr

/-- The blocks that are there. -/
abbrev FlowGraph (β ι : Type*) := β → Option (Node β ι)

inductive Final where
  | returned
  | wrong
  deriving DecidableEq, Repr

def Exit.map (f : β → β) : Exit β → Exit β
  | ret => ret
  | fall => fall
  | jump t => jump (t.map f)
  | branch ts => branch (ts.map (Option.map f))

def Node.map (f : β → β) (n : Node β ι) : Node β ι := ⟨n.body, n.exit.map f⟩

/-- From `x` to `y` with the choices `cs`, through the bodies `tr`. -/
inductive Reach (g : FlowGraph β ι) : Option β → List Nat → List ι → Option β → Prop where
  | refl (x : Option β) : Reach g x [] [] x
  | jump {b : β} {l : List ι} {t y : Option β} {cs : List Nat} {tr : List ι}
      (hb : g b = some ⟨l, .jump t⟩) (h : Reach g t cs tr y) : Reach g (some b) cs (l ++ tr) y
  | branch {b : β} {l : List ι} {ts : List (Option β)} {k : Nat} {t y : Option β} {cs : List Nat}
      {tr : List ι} (hb : g b = some ⟨l, .branch ts⟩) (hk : ts[k]? = some t)
      (h : Reach g t cs tr y) : Reach g (some b) (k :: cs) (l ++ tr) y

/-- Control ends at `x`, after the body `l`. -/
inductive Ends (g : FlowGraph β ι) : Option β → List ι → Final → Prop where
  | nowhere : Ends g none [] .wrong
  | gone {b : β} (hb : g b = none) : Ends g (some b) [] .wrong
  | ret {b : β} {l : List ι} (hb : g b = some ⟨l, .ret⟩) : Ends g (some b) l .returned
  | fall {b : β} {l : List ι} (hb : g b = some ⟨l, .fall⟩) : Ends g (some b) l .wrong

/-- What can be observed: the bodies passed up to some block, or all of them and how it ended. -/
def Runs (g : FlowGraph β ι) (x : Option β) (cs : List Nat) (tr : List ι) : Option Final → Prop
  | none => ∃ y, Reach g x cs tr y
  | some f => ∃ y tr' l, Reach g x cs tr' y ∧ Ends g y l f ∧ tr = tr' ++ l

/-- The same paths from `x`. -/
def SamePaths (g g' : FlowGraph β ι) (x : Option β) : Prop :=
  ∀ cs tr f, Runs g x cs tr f ↔ Runs g' x cs tr f

variable {g g' : FlowGraph β ι} {x y z : Option β} {cs cs' : List Nat} {tr tr' l : List ι} {b t : β}
  {f : Final} {S : β → Prop}

theorem Reach.trans (h : Reach g x cs tr y) (h' : Reach g y cs' tr' z) :
    Reach g x (cs ++ cs') (tr ++ tr') z := by
  induction h with
  | refl => exact h'
  | jump hb _ ih =>
    rw [List.append_assoc]
    exact .jump hb (ih h')
  | branch hb hk _ ih =>
    rw [List.append_assoc]
    exact .branch hb hk (ih h')

theorem SamePaths.refl (g : FlowGraph β ι) (x : Option β) : SamePaths g g x := fun _ _ _ => Iff.rfl

theorem SamePaths.trans {g'' : FlowGraph β ι} (h : SamePaths g g' x) (h' : SamePaths g' g'' x) :
    SamePaths g g'' x := fun cs tr f => (h cs tr f).trans (h' cs tr f)

/-! ## Silent loops -/

/-- From the blocks of `S` control only jumps, and stays in `S`. -/
def Loops (g : FlowGraph β ι) (S : β → Prop) : Prop :=
  ∀ b, S b → ∃ t, g b = some ⟨[], .jump (some t)⟩ ∧ S t

theorem Loops.reach (hS : Loops g S) (h : Reach g x cs tr y) (hx : ∃ b, x = some b ∧ S b) :
    cs = [] ∧ tr = [] ∧ ∃ c, y = some c ∧ S c := by
  induction h with
  | refl => exact ⟨rfl, rfl, hx⟩
  | jump hg _ ih =>
    obtain ⟨_, e, hb⟩ := hx
    cases e
    obtain ⟨t, ht, hSt⟩ := hS _ hb
    rw [ht] at hg
    cases hg
    obtain ⟨h1, h2, h3⟩ := ih ⟨t, rfl, hSt⟩
    exact ⟨h1, by rw [h2]; rfl, h3⟩
  | branch hg =>
    obtain ⟨_, e, hb⟩ := hx
    cases e
    obtain ⟨t, ht, -⟩ := hS _ hb
    rw [ht] at hg
    cases hg

theorem Ends.of_block {n : Node β ι} (h : Ends g (some b) l f) (hb : g b = some n) :
    n = ⟨l, .ret⟩ ∧ f = .returned ∨ n = ⟨l, .fall⟩ ∧ f = .wrong := by
  cases h with
  | gone hg =>
    rw [hb] at hg
    cases hg
  | ret hg =>
    rw [hb] at hg
    cases hg
    exact .inl ⟨rfl, rfl⟩
  | fall hg =>
    rw [hb] at hg
    cases hg
    exact .inr ⟨rfl, rfl⟩

/-- A path that has come into a silent loop does not end. -/
theorem Loops.not_runs (hS : Loops g S) (hb : S b) (h : Reach g x cs tr (some b)) :
    ¬ Runs g x cs tr (some f) := by
  rintro ⟨y, tr', l, hr, he, htr⟩
  generalize hz : some b = z at h
  induction h generalizing tr' with
  | refl =>
    subst hz
    obtain ⟨-, -, c, rfl, hc⟩ := hS.reach hr ⟨_, rfl, hb⟩
    obtain ⟨t, ht, -⟩ := hS c hc
    rcases he.of_block ht with ⟨e, -⟩ | ⟨e, -⟩ <;> cases e
  | jump hg _ ih =>
    cases hr with
    | refl => rcases he.of_block hg with ⟨e, -⟩ | ⟨e, -⟩ <;> cases e
    | jump hg' hr' =>
      rw [hg] at hg'
      cases hg'
      rw [List.append_assoc] at htr
      exact ih _ hr' (List.append_cancel_left htr) hz
    | branch hg' =>
      rw [hg] at hg'
      cases hg'
  | branch hg hk _ ih =>
    cases hr with
    | jump hg' _ =>
      rw [hg] at hg'
      cases hg'
    | branch hg' hk' hr' =>
      rw [hg] at hg'
      cases hg'
      rw [hk] at hk'
      cases hk'
      rw [List.append_assoc] at htr
      exact ih _ hr' (List.append_cancel_left htr) hz

/-! ## Removing a block -/

/-- Jumps to `b` go to `t` instead. -/
def redirect [DecidableEq β] (b t x : β) : β := if x = b then t else x

/-- `b` only jumps to `t`. It is gone from `g'`, and jumps to it are redirected. -/
structure Threads [DecidableEq β] (b t : β) (g g' : FlowGraph β ι) : Prop where
  jump : g b = some ⟨[], .jump (some t)⟩
  gone : g' b = none
  other : ∀ x, x ≠ b → g' x = (g x).map (Node.map (redirect b t))

section Threads

variable [DecidableEq β]

@[simp] theorem redirect_self : redirect b t b = t := if_pos rfl

theorem redirect_other {x : β} (h : x ≠ b) : redirect b t x = x := if_neg h

theorem redirect_id : redirect b b = (id : β → β) := by
  funext x
  unfold redirect
  split
  · rename_i h
    exact h.symm
  · rfl

theorem Threads.reach (h : Threads b t g g') (hr : Reach g x cs tr y) :
    Reach g' (x.map (redirect b t)) cs tr (y.map (redirect b t)) := by
  induction hr with
  | refl => exact .refl _
  | @jump c l u y cs tr hg _ ih =>
    by_cases e : c = b
    · subst e
      rw [h.jump] at hg
      cases hg
      rw [Option.map_some, redirect_self, List.nil_append]
      by_cases e' : t = c
      · subst e'
        simpa using ih
      · rw [Option.map_some, redirect_other e'] at ih
        exact ih
    · rw [Option.map_some, redirect_other e]
      refine .jump (t := u.map (redirect b t)) ?_ ih
      rw [h.other c e, hg]
      rfl
  | @branch c l ts k u y cs tr hg hk _ ih =>
    have e : c ≠ b := by
      rintro rfl
      rw [h.jump] at hg
      cases hg
    rw [Option.map_some, redirect_other e]
    have hg' : g' c = some ⟨l, .branch (ts.map (Option.map (redirect b t)))⟩ := by
      rw [h.other c e, hg]
      rfl
    refine .branch hg' ?_ ih
    rw [List.getElem?_map, hk]
    rfl

theorem Threads.ends (h : Threads b t g g') (he : Ends g y l f) :
    Ends g' (y.map (redirect b t)) l f := by
  have hne : ∀ {c}, g c ≠ some ⟨[], .jump (some t)⟩ → c ≠ b := by
    rintro c hc rfl
    exact hc h.jump
  cases he with
  | nowhere => exact .nowhere
  | @gone c hg =>
    have e := hne (c := c) (by rw [hg]; simp)
    rw [Option.map_some, redirect_other e]
    exact .gone (by rw [h.other c e, hg]; rfl)
  | @ret c _ hg =>
    have e := hne (c := c) (by rw [hg]; simp)
    rw [Option.map_some, redirect_other e]
    exact .ret (by rw [h.other c e, hg]; rfl)
  | @fall c _ hg =>
    have e := hne (c := c) (by rw [hg]; simp)
    rw [Option.map_some, redirect_other e]
    exact .fall (by rw [h.other c e, hg]; rfl)

theorem Threads.runs {o : Option Final} (h : Threads b t g g') (hr : Runs g x cs tr o) :
    Runs g' (x.map (redirect b t)) cs tr o := by
  cases o with
  | none =>
    obtain ⟨y, hy⟩ := hr
    exact ⟨_, h.reach hy⟩
  | some f =>
    obtain ⟨y, tr', l, hy, he, rfl⟩ := hr
    exact ⟨_, tr', l, h.reach hy, h.ends he, rfl⟩

theorem Threads.node (h : Threads b t g g') {c : β} {n : Node β ι} (hn : g' c = some n) :
    c ≠ b ∧ ∃ m, g c = some m ∧ n = m.map (redirect b t) := by
  have e : c ≠ b := by
    rintro rfl
    rw [h.gone] at hn
    cases hn
  rw [h.other c e] at hn
  obtain ⟨m, hm, rfl⟩ := Option.map_eq_some_iff.mp hn
  exact ⟨e, m, hm, rfl⟩

/-- Paths from `x` do not begin at `b`, and do not come to it if it jumps to itself. -/
def Avoids (g : FlowGraph β ι) (b t : β) (x : Option β) : Prop :=
  x ≠ some b ∧ (t = b → ∀ cs tr, ¬ Reach g x cs tr (some b))

/-- The next block of a path. A redirected jump has passed `b`. -/
theorem Threads.next {u : Option β} (h : Threads b t g g') (hu : Avoids g b t u ∨ u = some b ∧ t ≠ b)
    (hr : Avoids g b t (u.map (redirect b t)) → Reach g (u.map (redirect b t)) cs tr y ∧ y ≠ some b) :
    Reach g u cs tr y ∧ y ≠ some b := by
  rcases hu with hu | ⟨rfl, ht⟩
  · have e : u.map (redirect b t) = u := by
      cases u with
      | none => rfl
      | some c => rw [Option.map_some, redirect_other fun e => hu.1 (by rw [e])]
    rw [e] at hr
    exact hr hu
  · rw [Option.map_some, redirect_self] at hr
    obtain ⟨h1, h2⟩ := hr ⟨fun e => ht (Option.some.inj e), fun e => absurd e ht⟩
    exact ⟨.jump h.jump h1, h2⟩

theorem Threads.reach_back (h : Threads b t g g') (hr : Reach g' x cs tr y)
    (ha : Avoids g b t x) : Reach g x cs tr y ∧ y ≠ some b := by
  have hnext : ∀ {c : β} {u : Option β}, Avoids g b t (some c) →
      (∀ {cs tr y}, Reach g u cs tr y → ∃ cs tr, Reach g (some c) cs tr y) →
      Avoids g b t u ∨ u = some b ∧ t ≠ b := by
    intro c u hc hstep
    by_cases e : t = b
    · have hno : ∀ cs tr, ¬ Reach g u cs tr (some b) := fun cs tr hr => by
        obtain ⟨cs', tr', hr'⟩ := hstep hr
        exact hc.2 e _ _ hr'
      refine .inl ⟨?_, fun _ => hno⟩
      rintro rfl
      exact hno _ _ (.refl _)
    · by_cases e' : u = some b
      · exact .inr ⟨e', e⟩
      · exact .inl ⟨e', fun h => absurd h e⟩
  induction hr with
  | refl => exact ⟨.refl _, ha.1⟩
  | @jump c l u' y cs tr hg _ ih =>
    obtain ⟨-, ⟨l', x'⟩, hm, e⟩ := h.node hg
    cases x' with
    | ret | fall | branch =>
      cases e
    | jump u =>
      cases e
      obtain ⟨h1, h2⟩ := h.next (hnext ha fun hr => ⟨_, _, .jump hm hr⟩) ih
      exact ⟨.jump hm h1, h2⟩
  | @branch c l ts' k u' y cs tr hg hk _ ih =>
    obtain ⟨-, ⟨l', x'⟩, hm, e⟩ := h.node hg
    cases x' with
    | ret | fall | jump => cases e
    | branch ts =>
      cases e
      rw [List.getElem?_map] at hk
      obtain ⟨u, hu, rfl⟩ := Option.map_eq_some_iff.mp hk
      obtain ⟨h1, h2⟩ := h.next (hnext ha fun hr => ⟨_, _, .branch hm hu hr⟩) ih
      exact ⟨.branch hm hu h1, h2⟩

theorem Threads.ends_back (h : Threads b t g g') (he : Ends g' y l f) (hy : y ≠ some b) :
    Ends g y l f := by
  cases he with
  | nowhere => exact .nowhere
  | @gone c hg =>
    rw [h.other c fun e => hy (by rw [e]), Option.map_eq_none_iff] at hg
    exact .gone hg
  | @ret c _ hg =>
    obtain ⟨-, ⟨l', x'⟩, hm, e⟩ := h.node hg
    cases x' <;> cases e
    exact .ret hm
  | @fall c _ hg =>
    obtain ⟨-, ⟨l', x'⟩, hm, e⟩ := h.node hg
    cases x' <;> cases e
    exact .fall hm

/-- A path that avoids a removed block is there exactly when it was there before. -/
theorem Threads.samePaths (h : Threads b t g g') (ha : Avoids g b t x) : SamePaths g g' x := by
  intro cs tr o
  constructor
  · intro hr
    have := h.runs hr
    cases x with
    | none => exact this
    | some c => rwa [Option.map_some, redirect_other fun e => ha.1 (by rw [e])] at this
  · intro hr
    cases o with
    | none =>
      obtain ⟨y, hy⟩ := hr
      exact ⟨y, (h.reach_back hy ha).1⟩
    | some f =>
      obtain ⟨y, tr', l, hy, he, rfl⟩ := hr
      obtain ⟨h1, h2⟩ := h.reach_back hy ha
      exact ⟨y, tr', l, h1, h.ends_back he h2, rfl⟩

end Threads

/-- A silent loop is still one, or has become a jump to nowhere. -/
theorem Threads.loops [DecidableEq β] {c : β} (h : Threads b t g g') (hS : Loops g S) (hc : S c)
    (hr : Reach g x cs tr (some c)) :
    (∃ S' : β → Prop, (∀ z, S' z → S z) ∧ Loops g' S' ∧
      ∃ c', S' c' ∧ Reach g' (x.map (redirect b t)) cs tr (some c')) ∨
    Runs g' (x.map (redirect b t)) cs tr (some .wrong) := by
  by_cases e : t = b
  · subst e
    by_cases hv : ∃ cs tr, Reach g (some c) cs tr (some t)
    · obtain ⟨cs', tr', hv⟩ := hv
      obtain ⟨rfl, rfl, -⟩ := hS.reach hv ⟨c, rfl, hc⟩
      have hb := h.reach (hr.trans hv)
      rw [List.append_nil, List.append_nil, Option.map_some, redirect_self] at hb
      exact .inr ⟨_, tr, [], hb, .gone h.gone, (List.append_nil _).symm⟩
    · refine .inl ⟨fun z => S z ∧ ¬ ∃ cs tr, Reach g (some z) cs tr (some t), fun z hz => hz.1,
        fun z hz => ?_, c, ⟨hc, hv⟩, ?_⟩
      · obtain ⟨u, hu, hSu⟩ := hS z hz.1
        have hz' : z ≠ t := by
          rintro rfl
          exact hz.2 ⟨_, _, .refl _⟩
        refine ⟨u, ?_, hSu, ?_⟩
        · rw [h.other z hz', hu, redirect_id]
          rfl
        · rintro ⟨cs', tr', hv⟩
          exact hz.2 ⟨_, _, .jump hu hv⟩
      · simpa [redirect_id] using h.reach hr
  · refine .inl ⟨fun z => S z ∧ z ≠ b, fun z hz => hz.1, fun z hz => ?_, redirect b t c, ?_, h.reach hr⟩
    · obtain ⟨u, hu, hSu⟩ := hS z hz.1
      refine ⟨redirect b t u, ?_, ?_⟩
      · rw [h.other z hz.2, hu]
        rfl
      · by_cases e' : u = b
        · subst e'
          obtain ⟨t', ht', hSt⟩ := hS u hSu
          rw [h.jump] at ht'
          cases ht'
          rw [redirect_self]
          exact ⟨hSt, e⟩
        · rw [redirect_other e']
          exact ⟨hSu, e'⟩
    · by_cases e' : c = b
      · subst e'
        obtain ⟨t', ht', hSt⟩ := hS c hc
        rw [h.jump] at ht'
        cases ht'
        rw [redirect_self]
        exact ⟨hSt, e⟩
      · rw [redirect_other e']
        exact ⟨hc, e'⟩

/-- A silent loop was one before, perhaps through `b`. -/
theorem Threads.loops_back [DecidableEq β] (h : Threads b t g g') (hS : Loops g' S) :
    ∃ S' : β → Prop, Loops g S' ∧ (∀ z, S z → S' z) ∧ ∀ z, S' z → S z ∨ z = b := by
  have hinner : ∀ {z : β}, S z → ∃ u, g z = some ⟨[], .jump (some u)⟩ ∧ S (redirect b t u) := by
    intro z hz
    obtain ⟨u', hu', hSu⟩ := hS z hz
    obtain ⟨-, ⟨l, e⟩, hm, he⟩ := h.node hu'
    cases e with
    | ret | fall | branch => cases he
    | jump u =>
      cases u with
      | none => cases he
      | some u =>
        cases he
        exact ⟨u, hm, hSu⟩
  refine ⟨fun z => S z ∨ z = b ∧ ∃ y, S y ∧ g y = some ⟨[], .jump (some b)⟩, ?_, fun z hz => .inl hz,
    fun z hz => hz.imp id And.left⟩
  rintro z (hz | ⟨rfl, y, hy, hgy⟩)
  · obtain ⟨u, hu, hSu⟩ := hinner hz
    refine ⟨u, hu, ?_⟩
    by_cases e : u = b
    · subst e
      exact .inr ⟨rfl, z, hz, hu⟩
    · rw [redirect_other e] at hSu
      exact .inl hSu
  · obtain ⟨u, hu, hSu⟩ := hinner hy
    rw [hgy] at hu
    cases hu
    rw [redirect_self] at hSu
    exact ⟨t, h.jump, .inl hSu⟩

/-- An empty block, from which control goes nowhere, is gone from `g'`. -/
structure Drops (b : β) (g g' : FlowGraph β ι) : Prop where
  empty : g b = some ⟨[], .fall⟩
  gone : g' b = none
  other : ∀ x, x ≠ b → g' x = g x

theorem Drops.reach_iff (h : Drops b g g') : Reach g x cs tr y ↔ Reach g' x cs tr y := by
  have hb : ∀ {c n}, g c = some n → n ≠ ⟨[], .fall⟩ → g' c = some n := by
    intro c n hn hne
    rw [h.other c, hn]
    rintro rfl
    rw [h.empty] at hn
    exact hne (Option.some.inj hn).symm
  have hb' : ∀ {c n}, g' c = some n → g c = some n := by
    intro c n hn
    rw [← h.other c, hn]
    rintro rfl
    rw [h.gone] at hn
    cases hn
  constructor
  · intro hr
    induction hr with
    | refl => exact .refl _
    | jump hg _ ih => exact .jump (hb hg (by simp)) ih
    | branch hg hk _ ih => exact .branch (hb hg (by simp)) hk ih
  · intro hr
    induction hr with
    | refl => exact .refl _
    | jump hg _ ih => exact .jump (hb' hg) ih
    | branch hg hk _ ih => exact .branch (hb' hg) hk ih

theorem Drops.ends_iff (h : Drops b g g') : Ends g y l f ↔ Ends g' y l f := by
  cases y with
  | none =>
    constructor <;> intro he <;> cases he <;> exact .nowhere
  | some c =>
    by_cases e : c = b
    · subst e
      constructor
      · intro he
        rcases he.of_block h.empty with ⟨e, -⟩ | ⟨e, rfl⟩ <;> cases e
        exact .gone h.gone
      · intro he
        cases he with
        | gone => exact .fall h.empty
        | ret hg | fall hg =>
          rw [h.gone] at hg
          cases hg
    · have heq := h.other c e
      constructor
      · intro he
        cases he with
        | gone hg => exact .gone (heq.trans hg)
        | ret hg => exact .ret (heq.trans hg)
        | fall hg => exact .fall (heq.trans hg)
      · intro he
        cases he with
        | gone hg => exact .gone (heq.symm.trans hg)
        | ret hg => exact .ret (heq.symm.trans hg)
        | fall hg => exact .fall (heq.symm.trans hg)

theorem Drops.loops (h : Drops b g g') (hS : Loops g S) : Loops g' S := by
  intro z hz
  obtain ⟨u, hu, hSu⟩ := hS z hz
  refine ⟨u, ?_, hSu⟩
  rw [h.other z, hu]
  rintro rfl
  rw [h.empty] at hu
  cases hu

theorem Drops.loops_back (h : Drops b g g') (hS : Loops g' S) : Loops g S := by
  intro z hz
  obtain ⟨u, hu, hSu⟩ := hS z hz
  refine ⟨u, ?_, hSu⟩
  rw [← h.other z, hu]
  rintro rfl
  rw [h.gone] at hu
  cases hu

theorem Drops.samePaths (h : Drops b g g') : SamePaths g g' x := by
  intro cs tr o
  cases o with
  | none => exact exists_congr fun _ => h.reach_iff
  | some f =>
    refine exists_congr fun y => exists_congr fun tr' => exists_congr fun l => ?_
    rw [h.reach_iff, h.ends_iff]

end Nibble.Lib.Flow
