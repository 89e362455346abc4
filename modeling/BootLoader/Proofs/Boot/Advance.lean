import BootLoader.Boot.Program

/-!
# Programs that run alone

A program that runs alone goes on step by step (`Program.next`) until it is done, or until it waits
for a change that never comes. What each step keeps holds after any number of steps
(`Program.advance_keeps`), and a program that never waits and comes closer to its end with each step
gets there (`Program.isDone_advance`).
-/

namespace BootLoader.Boot.Program

variable {κ μ : Type} {p : Program κ μ}

/-- How far a core has come after one more step. -/
def next (p : Program κ μ) (r : Progress κ μ) : Progress κ μ :=
  let made := p.step r.place r.memory
  { r with place := made.value, memory := made.memory, actions := r.actions ++ made.actions }

/-- A program that is done does not go on. -/
theorem advance_of_done {r : Progress κ μ} (h : p.isDone r.place = true) (steps : Nat) :
    p.advance steps [] r = r := by
  cases steps with
  | zero => rfl
  | succ steps => rw [advance, if_pos h]

/-- A program that is not done makes a step, and goes on unless it waits. -/
theorem advance_succ {r : Progress κ μ} (h : p.isDone r.place = false) (steps : Nat) :
    p.advance (steps + 1) [] r = p.next r ∨
      p.advance (steps + 1) [] r = p.advance steps [] (p.next r) := by
  rw [advance, if_neg (by rw [h]; exact Bool.false_ne_true)]
  dsimp only
  split
  · exact .inl rfl
  · exact .inr rfl

/-- What each step keeps holds after any number of steps. -/
theorem advance_keeps {P : Progress κ μ → Prop}
    (hstep : ∀ r, p.isDone r.place = false → P r → P (p.next r)) (steps : Nat)
    {r : Progress κ μ} (h : P r) : P (p.advance steps [] r) := by
  induction steps generalizing r with
  | zero => exact h
  | succ steps ih =>
    cases hdone : p.isDone r.place with
    | true => rwa [advance_of_done hdone]
    | false =>
      rcases advance_succ hdone steps with hstop | hon
      · exact hstop ▸ hstep r hdone h
      · exact hon ▸ ih (hstep r hdone h)

/-- A program that never waits and has less to do after each step is done when it has nothing left to
do. -/
theorem isDone_advance {left : κ → Nat}
    (hstep : ∀ place memory, p.isDone place = false →
      left (p.step place memory).value < left place ∧
        (p.step place memory).actions.any Action.isHint = false)
    {steps : Nat} {r : Progress κ μ} (h : left r.place ≤ steps) :
    p.isDone (p.advance steps [] r).place = true := by
  induction steps generalizing r with
  | zero =>
    -- With nothing left to do there is no further step.
    cases hdone : p.isDone r.place with
    | true => exact hdone
    | false =>
      have := (hstep r.place r.memory hdone).1
      omega
  | succ steps ih =>
    cases hdone : p.isDone r.place with
    | true => rwa [advance_of_done hdone]
    | false =>
      obtain ⟨hless, hhint⟩ := hstep r.place r.memory hdone
      rw [advance, if_neg (by rw [hdone]; exact Bool.false_ne_true)]
      dsimp only
      rw [hhint, if_neg Bool.false_ne_true]
      exact ih (r := p.next r) (Nat.le_of_lt_succ (Nat.lt_of_lt_of_le hless h))

end BootLoader.Boot.Program
