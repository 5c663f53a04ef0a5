import Nibble.Lib.Layout
import Mathlib.Data.List.Infix
import Mathlib.Data.List.Nodup

/-!
# Placement of arguments

A calling convention hands out the registers of each class in order. An
argument takes the registers it wants if so many of its class are left, and
whole words of the stack otherwise. Whatever the order of the arguments, no two
share a register or a byte.
-/

namespace Nibble.Lib

/-- What an argument asks for: registers of a class, none if it never goes to registers, or
bytes on the stack. -/
structure Demand (κ : Type) where
  cls : κ
  want : Nat
  bytes : Nat

/-- Where an argument is: in registers, lowest bytes first, or at an offset of the stack. -/
inductive Place (ρ : Type) where
  | regs (rs : List ρ)
  | stack (start : Int) (bytes : Nat)
  deriving DecidableEq

def Place.Disjoint {ρ : Type} : Place ρ → Place ρ → Prop
  | .regs rs, .regs ss => rs.Disjoint ss
  | .stack s m, .stack t n => s + m ≤ t ∨ t + n ≤ s
  | _, _ => True

/-- The registers taken of each class and the bytes taken of the stack. -/
structure Cursor (κ : Type) where
  used : κ → Nat
  top : Nat

section

variable {κ ρ : Type} [DecidableEq κ] (word : Nat) (regs : κ → List ρ)

def Cursor.takeRegs (c : Cursor κ) (cls : κ) (n : Nat) : Cursor κ :=
  { c with used := fun k => if k = cls then c.used k + n else c.used k }

def Cursor.takeBytes (c : Cursor κ) (n : Nat) : Cursor κ :=
  { c with top := c.top + alignUp n word }

def placeArg (c : Cursor κ) (d : Demand κ) : Place ρ × Cursor κ :=
  if 0 < d.want ∧ c.used d.cls + d.want ≤ (regs d.cls).length then
    (.regs (((regs d.cls).drop (c.used d.cls)).take d.want), c.takeRegs d.cls d.want)
  else (.stack c.top d.bytes, c.takeBytes word d.bytes)

def placeArgs : Cursor κ → List (Demand κ) → List (Place ρ)
  | _, [] => []
  | c, d :: ds => (placeArg word regs c d).1 :: placeArgs (placeArg word regs c d).2 ds

/-- No register has two numbers. -/
structure DistinctRegs (regs : κ → List ρ) : Prop where
  nodup : ∀ k, (regs k).Nodup
  disjoint : ∀ j k, j ≠ k → (regs j).Disjoint (regs k)

/-- The place is among what was taken. -/
def Place.Taken (c : Cursor κ) : Place ρ → Prop
  | .regs rs => ∀ r ∈ rs, ∃ k, r ∈ (regs k).take (c.used k)
  | .stack s n => s + n ≤ c.top

/-- The place is among what is left. -/
def Place.Left (c : Cursor κ) : Place ρ → Prop
  | .regs rs => ∀ r ∈ rs, ∃ k, r ∈ (regs k).drop (c.used k)
  | .stack s _ => c.top ≤ s

def Cursor.Le (c c' : Cursor κ) : Prop := (∀ k, c.used k ≤ c'.used k) ∧ c.top ≤ c'.top

end

section

variable {κ ρ : Type} [DecidableEq κ] {word : Nat} {regs : κ → List ρ} {c c' : Cursor κ}
  {p q : Place ρ} {d : Demand κ}

theorem placeArg_regs {rs rest : List ρ} (h : (regs d.cls).drop (c.used d.cls) = rs ++ rest)
    (hlen : rs.length = d.want) (hpos : 0 < d.want) :
    placeArg word regs c d = (.regs rs, c.takeRegs d.cls d.want) := by
  have hl := congrArg List.length h
  rw [List.length_drop, List.length_append, hlen] at hl
  unfold placeArg
  rw [if_pos ⟨hpos, by omega⟩, h, ← hlen, List.take_left]

theorem placeArg_stack
    (h : d.want = 0 ∨ ((regs d.cls).drop (c.used d.cls)).length < d.want) :
    placeArg word regs c d = (.stack c.top d.bytes, c.takeBytes word d.bytes) := by
  rw [List.length_drop] at h
  exact if_neg (by omega)

/-- What was taken and what is left have nothing in common. -/
theorem Place.Taken.disjoint (hregs : DistinctRegs regs) (hp : p.Taken regs c)
    (hq : q.Left regs c) : p.Disjoint q := by
  cases p with
  | stack s n =>
    cases q with
    | stack t m => exact .inl (Int.le_trans hp hq)
    | regs ss => trivial
  | regs rs =>
    cases q with
    | stack t m => trivial
    | regs ss =>
      intro r hr hr'
      obtain ⟨j, hj⟩ := hp r hr
      obtain ⟨k, hk⟩ := hq r hr'
      by_cases hjk : j = k
      · subst hjk
        exact List.disjoint_take_drop (hregs.nodup j) (Nat.le_refl _) hj hk
      · exact hregs.disjoint j k hjk (List.mem_of_mem_take hj) (List.mem_of_mem_drop hk)

omit [DecidableEq κ] in
theorem Place.Left.mono (hq : q.Left regs c') (h : c.Le c') : q.Left regs c := by
  cases q with
  | stack s n => exact Int.le_trans (Int.ofNat_le.mpr h.2) hq
  | regs rs =>
    intro r hr
    obtain ⟨k, hk⟩ := hq r hr
    exact ⟨k, List.drop_subset_drop_left (regs k) (h.1 k) hk⟩

variable (c d) in
theorem le_placeArg : c.Le (placeArg word regs c d).2 := by
  unfold placeArg
  split
  · refine ⟨fun k => ?_, Nat.le_refl _⟩
    simp only [Cursor.takeRegs]
    split <;> omega
  · exact ⟨fun k => Nat.le_refl _, Nat.le_add_right _ _⟩

variable (c d) in
theorem left_placeArg : (placeArg word regs c d).1.Left regs c := by
  unfold placeArg
  split
  · exact fun r hr => ⟨d.cls, List.mem_of_mem_take hr⟩
  · exact Int.le_refl _

variable (c d) in
theorem taken_placeArg (hword : 0 < word) :
    (placeArg word regs c d).1.Taken regs (placeArg word regs c d).2 := by
  unfold placeArg
  split
  · intro r hr
    refine ⟨d.cls, ?_⟩
    simp only [Cursor.takeRegs, if_pos]
    rw [List.take_add]
    exact List.mem_append_right _ hr
  · have := le_alignUp d.bytes hword
    simp only [Place.Taken, Cursor.takeBytes]
    omega

variable (c) in
@[simp] theorem length_placeArgs (ds : List (Demand κ)) :
    (placeArgs word regs c ds).length = ds.length := by
  induction ds generalizing c with
  | nil => rfl
  | cons d ds ih => simp [placeArgs, ih]

variable (c) in
theorem left_placeArgs (ds : List (Demand κ)) :
    ∀ p ∈ placeArgs word regs c ds, p.Left regs c := by
  induction ds generalizing c with
  | nil => simp [placeArgs]
  | cons d ds ih =>
    intro p hp
    rcases List.mem_cons.mp hp with rfl | hp
    · exact left_placeArg c d
    · exact (ih _ p hp).mono (le_placeArg c d)

variable (c) in
/-- Arguments that are placed one after another are apart. -/
theorem pairwise_placeArgs (hword : 0 < word) (hregs : DistinctRegs regs) (ds : List (Demand κ)) :
    (placeArgs word regs c ds).Pairwise Place.Disjoint := by
  induction ds generalizing c with
  | nil => exact .nil
  | cons d ds ih =>
    exact .cons (fun p hp => (taken_placeArg c d hword).disjoint hregs (left_placeArgs _ ds p hp))
      (ih _)

end

end Nibble.Lib
