import BootLoader.Proofs.Boot.Machine
import BootLoader.Proofs.Boot.Meeting

/-!
# From the barrier into the kernel

The part of every core is carried by two relations. `Tail.Matches` ties it to a visitor of a meeting
at the barrier, so what is known of meetings is known of it. `Tail.Follows` says that the core does
what a plan asks of it: where it is tells which part of the entry sequence of the plan it has
performed. Each step preserves both.
-/

namespace BootLoader.Boot

open Barrier (Meeting Visitor)
open Paging (Format)
open Processor (Operation)

variable {F : Format} {frames room n : Nat}

/-- The operations with which a core enters the kernel of a plan, in order. -/
def entrySequence (smp : Bool) (p : Plan) (core : CoreIdentity) : List Operation :=
  [.fenceData, .publish p.root, .fenceInstructions,
    .jump p.images.kernel.virtEntry
      (Handoff.registers smp { user := p.images.user, tree := p.tree, core })]

/-- A core performs no operations at the barrier but hints. -/
theorem operationsOf_visitor_step (v : Visitor) (b : Barrier room) :
    operationsOf (v.step b).actions = [] := by
  unfold Visitor.step
  cases v.phase <;> dsimp only <;> (try split) <;> (try split) <;> rfl

/-- A core starts no other core at the barrier. -/
theorem startedWith_visitor_step (v : Visitor) (b : Barrier room) :
    startedWith (v.step b).actions = [] := by
  unfold Visitor.step
  cases v.phase <;> dsimp only <;> (try split) <;> (try split) <;> rfl

namespace Tail

variable {smp : Bool} {core : CoreIdentity} {t : Tail} {c : Context F frames room} {p : Plan}
  {done : List Operation}

/-- The step of a core that has passed the barrier. -/
theorem step_barrier_of_left {v : Visitor} (h : v.phase = .left) :
    step smp core (.barrier v) c = { value := .awaitPlan, memory := c } := by
  unfold step
  exact if_pos (beq_iff_eq.mpr h)

/-- The step of a core at the barrier. -/
theorem step_barrier {v : Visitor} (h : v.phase ≠ .left) :
    step smp core (.barrier v) c =
      ((v.step c.barrier).mapMemory fun barrier => { c with barrier }).map .barrier := by
  unfold step
  exact if_neg fun hleft => h (beq_iff_eq.mp hleft)

/-- The step of a core that has nothing to wait for, as the plan is there. -/
theorem step_awaitPlan (h : c.plan = some p) :
    step smp core .awaitPlan c = { value := .fence p (.begin p.root), memory := c } := by
  unfold step
  rw [h]

/-! ## At the barrier -/

/-- Whether a core has passed the barrier. -/
def hasPassed : Tail → Bool
  | .barrier v => v.phase == .left
  | _ => true

/-- Whether a visitor of a meeting is where a core is. -/
def Matches (v : Visitor) : Tail → Prop
  | .barrier w => v = w
  | _ => v.phase = .left

/-- The visitor has left when the core has passed. -/
theorem phase_of_matches {v : Visitor} (h : t.Matches v) (hpassed : t.hasPassed = true) :
    v.phase = .left := by
  cases t with
  | barrier w =>
    obtain rfl : v = w := h
    exact eq_of_beq hpassed
  | _ => exact h

/-- The step of a core is the step of its visitor, or one that no visitor sees. -/
theorem matches_step (smp : Bool) (core : CoreIdentity) {m : Meeting room n} {i : Fin n}
    (hroom : n ≤ room) (h : m.Orderly) (hbarrier : m.barrier = c.barrier)
    (ht : t.Matches (m.visitors i)) :
    ∃ m' : Meeting room n, m'.Orderly ∧ m'.barrier = (t.step smp core c).memory.barrier ∧
      m'.opening = m.opening ∧ (t.step smp core c).value.Matches (m'.visitors i) ∧
      ∀ j, j ≠ i → m'.visitors j = m.visitors j := by
  cases t with
  | barrier v =>
    obtain rfl : m.visitors i = v := ht
    by_cases hleft : (m.visitors i).phase = .left
    · rw [step_barrier_of_left hleft]
      exact ⟨m, h, hbarrier, rfl, hleft, fun _ _ => rfl⟩
    · -- what the core does to the barrier of the boot, its visitor does to that of the meeting
      rw [step_barrier hleft, ← hbarrier]
      exact ⟨m.step (.core i), h.core hroom i, rfl, rfl, Meeting.move_self i _ _,
        fun j hj => Meeting.move_of_ne hj _ _⟩
  | awaitPlan =>
    unfold step
    cases c.plan <;> exact ⟨m, h, hbarrier, rfl, ht, fun _ _ => rfl⟩
  | _ => exact ⟨m, h, hbarrier, rfl, ht, fun _ _ => rfl⟩

/-! ## After the barrier -/

/-- How many of the operations of the entry sequence a core has performed. -/
def stage : Tail → Nat
  | .barrier _ | .awaitPlan | .fence _ _ => 0
  | .publish _ _ => 1
  | .enter _ _ => 3
  | .returned _ => 4

/-- Before it has passed the barrier, a core has performed none of them. -/
theorem stage_of_not_hasPassed (h : t.hasPassed = false) : t.stage = 0 := by
  cases t with
  | barrier v => rfl
  | _ => cases h

/-- What a core has of a plan. -/
def Holds (p : Plan) : Tail → Prop
  | .barrier _ | .awaitPlan => True
  | .fence q vm => q = p ∧ vm.root = p.root
  | .publish q vm => q = p ∧ vm.root = p.root
  | .enter q vm => q = p ∧ vm.root = p.root
  | .returned e => e = .unexpectedReturn p.images.kernel.virtEntry

/-- A core that has performed the operations `done` enters the kernel of a plan. -/
structure Follows (smp : Bool) (p : Plan) (core : CoreIdentity) (t : Tail)
    (done : List Operation) : Prop where
  /-- it has performed what it has to up to here -/
  done_eq : done = (entrySequence smp p core).take t.stage
  /-- it goes on with that plan -/
  holds : t.Holds p

/-- Before the barrier nothing is done. -/
theorem follows_initial : (initial core).Follows smp p core [] := ⟨rfl, trivial⟩

/-- A core goes on as the plan asks. -/
theorem Follows.step (h : t.Follows smp p core done) (hplan : c.plan = some p) :
    (t.step smp core c).value.Follows smp p core
      (done ++ operationsOf (t.step smp core c).actions) := by
  obtain ⟨rfl, hholds⟩ := h
  cases t with
  | barrier v =>
    by_cases hleft : v.phase = .left
    · rw [step_barrier_of_left hleft]
      exact ⟨rfl, trivial⟩
    · rw [step_barrier hleft]
      refine ⟨?_, trivial⟩
      show [] ++ operationsOf (v.step c.barrier).actions = []
      rw [operationsOf_visitor_step, List.append_nil]
  | awaitPlan =>
    rw [step_awaitPlan hplan]
    exact ⟨rfl, rfl, rfl⟩
  | fence q vm =>
    obtain ⟨rfl, hroot⟩ := hholds
    exact ⟨rfl, rfl, hroot⟩
  | publish q vm =>
    obtain ⟨rfl, hroot⟩ := hholds
    refine ⟨?_, rfl, hroot⟩
    show Operation.fenceData :: [.publish vm.root, .fenceInstructions] = _
    rw [hroot]
    rfl
  | enter q vm =>
    obtain ⟨rfl, hroot⟩ := hholds
    exact ⟨rfl, rfl⟩
  | returned e =>
    refine ⟨?_, hholds⟩
    exact List.append_nil _

/-- How many steps of its own bring a core that has passed the barrier back from the kernel. -/
def remaining : Tail → Nat
  | .barrier _ => 5
  | .awaitPlan => 4
  | .fence _ _ => 3
  | .publish _ _ => 2
  | .enter _ _ => 1
  | .returned _ => 0

/-- A core that has passed the barrier goes on with each of its steps, as the plan is there. -/
theorem remaining_step (hpassed : t.hasPassed = true) (hplan : c.plan = some p) :
    (t.step smp core c).value.hasPassed = true ∧
      (t.step smp core c).value.remaining = t.remaining - 1 := by
  cases t with
  | barrier v =>
    rw [step_barrier_of_left (eq_of_beq hpassed)]
    exact ⟨rfl, rfl⟩
  | awaitPlan =>
    rw [step_awaitPlan hplan]
    exact ⟨rfl, rfl⟩
  | _ => exact ⟨rfl, rfl⟩

/-- No core changes the plan. -/
theorem plan_step : (t.step smp core c).memory.plan = c.plan := by
  cases t with
  | barrier v =>
    by_cases hleft : v.phase = .left
    · rw [step_barrier_of_left hleft]
    · rw [step_barrier hleft]
      rfl
  | awaitPlan =>
    unfold step
    cases hplan : c.plan <;> exact hplan
  | _ => rfl

/-- A core that has not passed the barrier performs no operation. -/
theorem hasPassed_of_operation {o : Operation}
    (h : o ∈ operationsOf (t.step smp core c).actions) : t.hasPassed = true := by
  cases t with
  | barrier v =>
    by_cases hleft : v.phase = .left
    · exact beq_iff_eq.mpr hleft
    · rw [step_barrier hleft] at h
      have hnone := operationsOf_visitor_step v c.barrier
      exact absurd (hnone ▸ h) List.not_mem_nil
  | _ => rfl

/-- No core starts another in the part of every core. -/
theorem startedWith_step : startedWith (t.step smp core c).actions = [] := by
  cases t with
  | barrier v =>
    by_cases hleft : v.phase = .left
    · rw [step_barrier_of_left hleft]
      rfl
    · rw [step_barrier hleft]
      exact startedWith_visitor_step v c.barrier
  | awaitPlan =>
    unfold step
    cases c.plan <;> rfl
  | _ => rfl

end Tail

end BootLoader.Boot
