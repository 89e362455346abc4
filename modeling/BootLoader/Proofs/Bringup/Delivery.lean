import BootLoader.Proofs.Bringup.Orderly

/-!
# Every core leaves with its own pair

Calls that start parked cores hand each of them its own entry point and context, in every order of
the steps of all parties (`Park.delivers_run`). One mailbox is enough, because a call waits until
the mailbox is empty and releases its core only after both words are in it.
-/

namespace BootLoader.Bringup

namespace Park

/-! ## What is waiting -/

section Waiting

variable {r : Roster} {p : Park} {waiting : Option Parcel}

/-- The pair that is posted and not taken yet is the one that is waiting. -/
theorem Orderly.posted_eq_append_iff (h : p.Orderly r waiting) {parcel : Parcel} :
    p.posted = p.taken ++ [parcel] ↔ waiting = some parcel := by
  rw [h.posted_eq]
  cases waiting <;> simp

/-- All pairs that are posted are taken when none is waiting. -/
theorem Orderly.posted_eq_taken_iff (h : p.Orderly r waiting) :
    p.posted = p.taken ↔ waiting = none := by
  rw [h.posted_eq]
  cases waiting <;> simp

/-- A core that has left has taken the pair that it left with. -/
theorem Orderly.mem_taken_of_left (h : p.Orderly r waiting) (haccount : p.Accounted r)
    {hwId entry context : UInt64} (hcore : p.cores hwId = .left entry context) :
    ⟨hwId, entry, context⟩ ∈ p.taken := by
  cases hword : r.word hwId with
  | none => simp [haccount.watching hwId hword] at hcore
  | some word => exact (h.core hwId word hword).left entry context hcore

/-- While a core reads the mailbox, its own pair is waiting. -/
theorem Orderly.waiting_of_reads (h : p.Orderly r waiting) (haccount : p.Accounted r)
    {hwId : UInt64} (hreads : (∃ context, p.cores hwId = .takeEntry context) ∨
      ∃ entry context, p.cores hwId = .clear entry context) :
    ∃ parcel, waiting = some parcel ∧ parcel.hwId = hwId := by
  cases hword : r.word hwId with
  | none => simp [haccount.watching hwId hword] at hreads
  | some word =>
    have hplaced := h.core hwId word hword
    rcases hreads with ⟨context, hcore⟩ | ⟨entry, context, hcore⟩
    · obtain ⟨entry, hwaiting⟩ := hplaced.takeEntry context hcore
      exact ⟨_, hwaiting, rfl⟩
    · exact ⟨_, hplaced.clear entry context hcore, rfl⟩

end Waiting

/-! ## Every run delivers -/

/-- What a hand-over is for: what holds at every point of a run. -/
structure Delivers (r : Roster) (p : Park) : Prop where
  /-- a core that has left did so with what a call has handed over for it -/
  own : ∀ hwId entry context, p.cores hwId = .left entry context →
    ∃ q ∈ r.requests, q.hwId = hwId ∧ q.entry.raw = entry ∧ q.context = context
  /-- pairs are posted in the order of the calls -/
  posted : p.posted.Sublist (r.requests.map (·.parcel))
  /-- they are taken in that order, and at most one is not taken yet -/
  taken : p.posted = p.taken ∨ ∃ parcel, p.posted = p.taken ++ [parcel]
  /-- a pair is taken when its core leaves, and by no other core -/
  taken_iff : ∀ hwId entry context,
    ⟨hwId, entry, context⟩ ∈ p.taken ↔ p.cores hwId = .left entry context
  /-- no core takes two pairs -/
  nodup : (p.taken.map (·.hwId)).Nodup
  /-- a pair that is not taken yet is in the mailbox -/
  kept : ∀ parcel, p.posted = p.taken ++ [parcel] →
    p.memory.mailbox = ⟨parcel.entry, parcel.context⟩
  /-- the mailbox is empty when all are taken -/
  emptied : p.posted = p.taken → p.memory.mailbox.isEmpty = true
  /-- a call is about to write into the mailbox only when all are taken -/
  written : ∀ q s, p.current = some (q, s) → s.step = .postEntry ∨ s.step = .postContext →
    p.posted = p.taken
  /-- a core reads the mailbox only while its own pair is in it -/
  read : ∀ hwId, (∃ context, p.cores hwId = .takeEntry context) ∨
    (∃ entry context, p.cores hwId = .clear entry context) →
      ∃ parcel, p.posted = p.taken ++ [parcel] ∧ parcel.hwId = hwId
  /-- the calls return in their order -/
  ordered : p.answers.map (·.1) <+: r.requests
  /-- each returns what the driver answers to it alone -/
  answers : ∀ q result, (q, result) ∈ p.answers →
    result = (SpinTable.start q.hwId q.entry q.context r.table).result
  /-- the mailbox and the release words are what the stores have made of them -/
  memory_eq : p.memory = p.stores.foldl Store.apply r.table.handover
  /-- a call that returns an error makes no store, and leaves the driver as it is -/
  refused : ∀ q e, (q, .error e) ∈ p.answers →
    (∀ store ∈ p.stores, store.request? ≠ some q) ∧
      (SpinTable.start q.hwId q.entry q.context r.table).state = r.table

/-- In every run of calls that start different parked cores, and of those cores, whatever the order
of the steps: each core that leaves does so with what was handed over for it, each pair stays in the
mailbox until its core has taken it, and a call that returns an error stores nothing. -/
theorem delivers_run {r : Roster} (hready : r.Ready) (schedule : List Party) :
    ((initial r).run r schedule).Delivers r := by
  obtain ⟨waiting, h⟩ := (Orderly.initial hready).run hready schedule
  have haccount := (Accounted.initial (r := r)).run schedule
  generalize (Park.initial r).run r schedule = p at h haccount ⊢
  have hposted : p.posted.Sublist (r.requests.map (·.parcel)) :=
    (List.sublist_append_left _ _).trans h.sublist
  have hresult : ∀ q result, (q, result) ∈ p.answers →
      result = (SpinTable.start q.hwId q.entry q.context r.table).result := by
    intro q result hmem
    rw [SpinTable.result_start]
    exact haccount.answers q result hmem
  exact
    { own := fun hwId entry context hcore => by
        have hmem : ⟨hwId, entry, context⟩ ∈ p.posted := by
          rw [h.posted_eq]
          exact List.mem_append_left _ (h.mem_taken_of_left haccount hcore)
        obtain ⟨q, hq, hparcel⟩ := List.mem_map.mp (hposted.subset hmem)
        exact ⟨q, hq, congrArg Parcel.hwId hparcel, congrArg Parcel.entry hparcel,
          congrArg Parcel.context hparcel⟩
      posted := hposted
      taken := by
        cases hwaiting : waiting with
        | none => exact .inl (h.posted_eq_taken_iff.mpr hwaiting)
        | some parcel => exact .inr ⟨parcel, h.posted_eq_append_iff.mpr hwaiting⟩
      taken_iff := fun hwId entry context =>
        ⟨h.gone hwId entry context, h.mem_taken_of_left haccount⟩
      nodup := by
        have hnodup := h.nodup hready
        rw [h.posted_eq] at hnodup
        refine hnodup.sublist (List.Sublist.map _ ?_)
        exact (List.sublist_append_left _ _).trans (List.sublist_append_left _ _)
      kept := fun parcel hparcel => by
        have hholds := h.holds
        rw [h.posted_eq_append_iff.mp hparcel] at hholds
        exact hholds.1
      emptied := fun htaken => by
        have hholds := h.holds
        rw [h.posted_eq_taken_iff.mp htaken] at hholds
        exact hholds
      written := fun q s hcurrent hstep =>
        h.posted_eq_taken_iff.mpr ((h.start q s hcurrent).posting hstep)
      read := fun hwId hreads => by
        obtain ⟨parcel, hwaiting, hid⟩ := h.waiting_of_reads haccount hreads
        exact ⟨parcel, h.posted_eq_append_iff.mpr hwaiting, hid⟩
      ordered := by
        rw [← haccount.requests_eq, List.append_assoc]
        exact List.prefix_append _ _
      answers := hresult
      memory_eq := haccount.memory_eq
      refused := fun q e hmem => by
        refine ⟨fun store hstore hq => ?_, SpinTable.state_start (hresult q _ hmem).symm⟩
        obtain ⟨s, hs⟩ := haccount.stores store hstore q hq
        simpa [hs, Except.map] using haccount.answers q _ hmem }

/-- Calls that start two cores, and in between two that return errors: there is no release word for
core `3`, and no context for core `4`. -/
def pairRoster : Roster where
  table :=
    { slots := #v[some ⟨1, ⟨0x1000⟩⟩, some ⟨2, ⟨0x2000⟩⟩, some ⟨4, ⟨0x3000⟩⟩, none, none, none,
        none, none, none, none, none, none, none, none, none, none] }
  requests := [⟨1, ⟨0x80000⟩, 7⟩, ⟨3, ⟨0x80000⟩, 8⟩, ⟨4, ⟨0x80000⟩, 0⟩, ⟨2, ⟨0x90000⟩, 9⟩]

/-- A schedule in which the call for core `2` has to wait for core `1` to leave. -/
def pairSchedule : List Party :=
  List.flatten [[.core 1, .core 2], List.replicate 7 .caller, [.core 1, .core 1],
    List.replicate 4 .caller, [.core 1, .core 2, .caller, .core 1, .core 1],
    List.replicate 7 .caller, [.core 2, .core 2, .core 2, .caller, .core 2, .core 2]]

/-- Both cores leave with their own pairs, and the two calls in between return errors. -/
theorem delivers_run_pair :
    ((initial pairRoster).run pairRoster pairSchedule).Delivers pairRoster ∧
      ((initial pairRoster).run pairRoster pairSchedule).taken =
        [⟨1, 0x80000, 7⟩, ⟨2, 0x90000, 9⟩] ∧
      ((initial pairRoster).run pairRoster pairSchedule).answers.map (·.2.isOk) =
        [true, false, false, true] :=
  ⟨delivers_run
      { distinct := by decide
        apart := by decide
        isEmpty := rfl
        parked := by decide }
      pairSchedule,
    by decide +kernel, by decide +kernel⟩

end Park

end BootLoader.Bringup
