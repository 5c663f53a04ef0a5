import Mathlib.Data.List.Basic

/-!
# Interning

A state that answers requests with objects and remembers the answers. If an
answer is what a lookup finds afterwards, lookups are never lost, and the
object says the key of the request it was made for, then equal objects are
answers to requests of equal keys, over any sequence of requests. An interner
that tells all requests apart is one whose keys are the requests.
-/

namespace Nibble.Lib

/-- Requests of type `ρ` answered with objects of type `ω` over states of type `σ`, where requests
of one key are not told apart. -/
structure KeyedInterner (σ ρ κ ω : Type) where
  request : ρ → σ → Option (ω × σ)
  key : ρ → κ
  lookup : σ → κ → Option ω
  meaning : σ → ω → Option κ
  Inv : σ → Prop
  sound : ∀ {s c o}, Inv s → lookup s c = some o → meaning s o = some c
  answer : ∀ {s s' r o}, Inv s → request r s = some (o, s') →
    Inv s' ∧ lookup s' (key r) = some o ∧ ∀ c o', lookup s c = some o' → lookup s' c = some o'

namespace KeyedInterner

variable {σ ρ κ ω : Type} (I : KeyedInterner σ ρ κ ω)

/-- A sequence of requests, with the answers. -/
def run : List ρ → σ → Option (List ω × σ)
  | [], s => some ([], s)
  | r :: rs, s => do
    let (o, s₁) ← I.request r s
    let (os, s₂) ← run rs s₁
    return (o :: os, s₂)

/-- At the end of a run all answers are found. -/
theorem run_found {rs : List ρ} {os : List ω} {s s' : σ} (hs : I.Inv s)
    (h : I.run rs s = some (os, s')) :
    I.Inv s' ∧ os.length = rs.length ∧
      (∀ c o, I.lookup s c = some o → I.lookup s' c = some o) ∧
      ∀ (k : Nat) (r : ρ) (o : ω), rs[k]? = some r → os[k]? = some o →
        I.lookup s' (I.key r) = some o := by
  induction rs generalizing s os with
  | nil =>
    cases h
    exact ⟨hs, rfl, fun _ _ h => h, fun k r o hr => by cases hr⟩
  | cons r rs ih =>
    obtain ⟨⟨o, s₁⟩, hreq, h⟩ := Option.bind_eq_some_iff.mp h
    obtain ⟨⟨os₁, s₂⟩, hrun, h⟩ := Option.bind_eq_some_iff.mp h
    cases h
    obtain ⟨hs₁, hfound, hkeep⟩ := I.answer hs hreq
    obtain ⟨hinv, hlen, hkeep', hall⟩ := ih hs₁ hrun
    refine ⟨hinv, by simp [hlen], fun c o' h' => hkeep' c o' (hkeep c o' h'), ?_⟩
    intro k r' o' hr ho
    cases k with
    | zero =>
      cases hr
      cases ho
      exact hkeep' _ o hfound
    | succ k => exact hall k r' o' hr ho

/-- Two answers are the same object exactly if the requests have the same key. -/
theorem run_exact {rs : List ρ} {os : List ω} {s s' : σ} (hs : I.Inv s)
    (h : I.run rs s = some (os, s')) {j k : Nat} {rj rk : ρ} {oj ok : ω} (hrj : rs[j]? = some rj)
    (hrk : rs[k]? = some rk) (hoj : os[j]? = some oj) (hok : os[k]? = some ok) :
    oj = ok ↔ I.key rj = I.key rk := by
  obtain ⟨hinv, -, -, hall⟩ := I.run_found hs h
  have hj := hall j rj oj hrj hoj
  have hk := hall k rk ok hrk hok
  constructor
  · rintro rfl
    have := (I.sound hinv hj).symm.trans (I.sound hinv hk)
    exact Option.some.inj this
  · intro hkey
    rw [hkey] at hj
    exact Option.some.inj (hj.symm.trans hk)

/-- A run answers all its requests exactly if every request that can fail is not among them. -/
theorem run_isSome {rs : List ρ} {Runs : ρ → Prop} (hruns : ∀ r s, (I.request r s).isSome ↔ Runs r)
    (s : σ) : (I.run rs s).isSome ↔ ∀ r ∈ rs, Runs r := by
  induction rs generalizing s with
  | nil => simp [run]
  | cons r rs ih =>
    rw [List.forall_mem_cons, ← hruns r s, run]
    cases hreq : I.request r s with
    | none => simp
    | some a =>
      rw [← ih a.2]
      cases hrun : I.run rs a.2 <;> simp [hrun]

end KeyedInterner

/-- Requests of type `ρ` answered with objects of type `ω` over states of type `σ`. -/
structure Interner (σ ρ ω : Type) where
  request : ρ → σ → Option (ω × σ)
  lookup : σ → ρ → Option ω
  meaning : σ → ω → Option ρ
  Inv : σ → Prop
  sound : ∀ {s r o}, Inv s → lookup s r = some o → meaning s o = some r
  answer : ∀ {s s' r o}, Inv s → request r s = some (o, s') →
    Inv s' ∧ lookup s' r = some o ∧ ∀ r' o', lookup s r' = some o' → lookup s' r' = some o'

namespace Interner

variable {σ ρ ω : Type} (I : Interner σ ρ ω)

/-- A sequence of requests, with the answers. -/
def run : List ρ → σ → Option (List ω × σ)
  | [], s => some ([], s)
  | r :: rs, s => do
    let (o, s₁) ← I.request r s
    let (os, s₂) ← run rs s₁
    return (o :: os, s₂)

/-- Every request is its own key. -/
def keyed : KeyedInterner σ ρ ρ ω where
  request := I.request
  key := id
  lookup := I.lookup
  meaning := I.meaning
  Inv := I.Inv
  sound := I.sound
  answer := I.answer

theorem run_keyed (rs : List ρ) (s : σ) : I.keyed.run rs s = I.run rs s := by
  induction rs generalizing s with
  | nil => rfl
  | cons r rs ih => simp only [KeyedInterner.run, run, keyed, ← ih]

/-- At the end of a run all answers are found. -/
theorem run_found {rs : List ρ} {os : List ω} {s s' : σ} (hs : I.Inv s)
    (h : I.run rs s = some (os, s')) :
    I.Inv s' ∧ os.length = rs.length ∧
      (∀ r o, I.lookup s r = some o → I.lookup s' r = some o) ∧
      ∀ (k : Nat) (r : ρ) (o : ω), rs[k]? = some r → os[k]? = some o → I.lookup s' r = some o := by
  rw [← run_keyed] at h
  exact I.keyed.run_found hs h

/-- Two answers are the same object exactly if the requests are the same. -/
theorem run_exact {rs : List ρ} {os : List ω} {s s' : σ} (hs : I.Inv s)
    (h : I.run rs s = some (os, s')) {j k : Nat} {rj rk : ρ} {oj ok : ω} (hrj : rs[j]? = some rj)
    (hrk : rs[k]? = some rk) (hoj : os[j]? = some oj) (hok : os[k]? = some ok) :
    oj = ok ↔ rj = rk := by
  rw [← run_keyed] at h
  exact I.keyed.run_exact hs h hrj hrk hoj hok

end Interner

end Nibble.Lib
