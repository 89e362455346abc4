import BootLoader.Proofs.Boot.Meeting

/-!
# What a barrier is for

A core that leaves the barrier knows that all others have come to it (`Barrier.Meeting.safe_run`). It
looks at one mark after the other while others are still setting theirs; that this is enough is due
to marks that are never cleared, so what it saw of the first still holds when it looks at the last.
-/

namespace BootLoader.Boot.Barrier.Meeting

variable {room n : Nat} {m : Meeting room n}

/-! ## Marks stay set -/

/-- No step of any party clears a mark. -/
theorem isReady_step (p : Party n) {j : Nat} (h : m.barrier.isReady j = true) :
    (m.step p).barrier.isReady j = true := by
  cases p with
  | opener =>
    unfold step openNext
    cases m.opening <;> exact h
  | core i => exact (m.visitors i).isReady_step h

/-- No run clears a mark. -/
theorem isReady_run (schedule : List (Party n)) {j : Nat} (h : m.barrier.isReady j = true) :
    (m.run schedule).barrier.isReady j = true := by
  induction schedule generalizing m with
  | nil => exact h
  | cons p schedule ih => exact ih (isReady_step p h)

/-- A schedule may be run in two parts. -/
theorem run_append (earlier later : List (Party n)) :
    m.run (earlier ++ later) = (m.run earlier).run later := List.foldl_append

/-! ## Places stay given -/

/-- No step of any party takes a place away. -/
theorem place_step (p : Party n) {i : Fin n} (h : (m.visitors i).phase.hasPlace = true) :
    ((m.step p).visitors i).place = (m.visitors i).place ∧
      ((m.step p).visitors i).phase.hasPlace = true := by
  cases p with
  | opener =>
    unfold step openNext
    cases m.opening <;> exact ⟨rfl, h⟩
  | core j =>
    simp only [step]
    by_cases hij : i = j
    · subst hij
      rw [move_self]
      exact Visitor.place_step h
    · rw [move_of_ne hij]
      exact ⟨rfl, h⟩

/-- No run takes a place away. -/
theorem place_run (schedule : List (Party n)) {i : Fin n}
    (h : (m.visitors i).phase.hasPlace = true) :
    ((m.run schedule).visitors i).place = (m.visitors i).place := by
  induction schedule generalizing m with
  | nil => rfl
  | cons p schedule ih => exact (ih (place_step p h).2).trans (place_step p h).1

/-! ## Safety -/

/-- What a barrier is for: what holds at a point of a run, and at any later point of it. -/
structure Safe (m later : Meeting room n) : Prop where
  /-- no core has left before the barrier was opened and all marks were set -/
  left : ∀ i, (m.visitors i).phase = .left →
    m.opening = .opened ∧ m.barrier.go = true ∧ m.barrier.cores = n ∧
      ∀ j < n, m.barrier.isReady j = true
  /-- the arrivals are the marks whenever nobody has the lock -/
  arrivals_eq : m.barrier.locked = false → m.barrier.arrivals = m.barrier.marks
  /-- marks stay set -/
  mark_stays : ∀ j, m.barrier.isReady j = true → later.barrier.isReady j = true
  /-- a core that has left was given a place -/
  place_isSome : ∀ i, (m.visitors i).phase = .left → (m.visitors i).place.isSome = true
  /-- a place is one of as many as there are cores -/
  place_le : ∀ i p, (m.visitors i).place = some p → 1 ≤ p ∧ p ≤ n
  /-- a place stays given -/
  place_stays : ∀ i p, (m.visitors i).place = some p → (later.visitors i).place = some p
  /-- no two cores are given the same place -/
  distinct : ∀ i j p, (m.visitors i).place = some p → (m.visitors j).place = some p → i = j
  /-- one core that does not arrive holds all -/
  held : (∃ j < n, later.barrier.isReady j = false) → ∀ i, (m.visitors i).phase ≠ .left

/-- In every run of a meeting, whatever the order of the steps: no core leaves before the barrier has
been opened and all have set their marks, the arrivals are counted exactly whenever nobody has the
lock, no mark is cleared, the places that the cores are given are different ones of `1, …, n`, and
in a run in which the mark of one core is never set no core leaves. -/
theorem safe_run (hn : 1 ≤ n) (hroom : n ≤ room) (earlier later : List (Party n)) :
    (run ({} : Meeting room n) earlier).Safe (run ({} : Meeting room n) (earlier ++ later)) := by
  have h := Orderly.initial.run hn hroom earlier
  rw [run_append]
  generalize run ({} : Meeting room n) earlier = m at h ⊢
  have hleft : ∀ i, (m.visitors i).phase = .left → ∀ j < n, m.barrier.isReady j = true :=
    fun i hphase => (h.placed i).left hphase
  exact
    { left := fun i hphase => by
        have hgo : m.barrier.go = true := (h.placed i).go (by rw [hphase]; nofun)
        exact ⟨h.opened hgo, hgo, h.cores_eq (by rw [hphase]; nofun), hleft i hphase⟩
      arrivals_eq := fun hfree => h.arrivals_eq (h.not_count_of_unlocked hfree)
      mark_stays := fun j hj => isReady_run later hj
      place_isSome := fun i hphase => (h.placed i).place_isSome.trans (by rw [hphase]; rfl)
      place_le := fun i p hp =>
        ⟨((h.placed i).place_le p hp).1, Nat.le_trans ((h.placed i).place_le p hp).2 h.arrivals_le⟩
      place_stays := fun i p hp => by
        have hgiven : (m.visitors i).phase.hasPlace = true := by
          rw [← (h.placed i).place_isSome, hp]
          rfl
        exact (place_run later hgiven).trans hp
      distinct := h.distinct
      held := fun hmissing i hphase => by
        -- a core that has left has seen the mark, and no later step clears it
        obtain ⟨j, hj, hunset⟩ := hmissing
        rw [isReady_run later (hleft i hphase j hj)] at hunset
        cases hunset }

/-- A schedule for two cores, where the second comes first and has to wait in the middle of its way
until the first has set its mark. -/
def pairEarlier : List (Party 2) :=
  .core 1 :: .opener :: .core 0 :: .opener ::
    (List.replicate 9 (.core 1) ++ List.replicate 5 (.core 0))

/-- How that schedule may go on. -/
def pairLater : List (Party 2) := List.replicate 10 (.core 1) ++ List.replicate 20 (.core 0)

/-- At a barrier with room for four, both of two cores leave. -/
theorem safe_run_pair :
    (run ({} : Meeting 4 2) pairEarlier).Safe (run ({} : Meeting 4 2) (pairEarlier ++ pairLater)) ∧
      ((run ({} : Meeting 4 2) pairEarlier).visitors 1).phase = .scan 0 2 ∧
      ∀ i, ((run ({} : Meeting 4 2) (pairEarlier ++ pairLater)).visitors i).phase = .left :=
  ⟨safe_run (by decide) (by decide) pairEarlier pairLater, by decide, by decide⟩

end BootLoader.Boot.Barrier.Meeting
