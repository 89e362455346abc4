import BootLoader.Boot.Barrier

/-!
# A core at the barrier

Marks are set one by one and never cleared. What a core has done at the barrier, and what it knows of
the others, is told by where it is (`Visitor.Placed`): whether its own mark is set, whether it has the
lock, which of the marks it has seen set, and what place it was given.
-/

namespace BootLoader.Boot.Barrier

variable {room n : Nat}

/-! ## Marks -/

/-- How many marks are set. -/
def marks (b : Barrier room) : Nat := b.ready.count true

/-- No mark is set at first. -/
theorem isReady_empty (id : Nat) : ({} : Barrier room).isReady id = false := by
  show ((Vector.replicate room false)[id]?).getD false = false
  rw [Vector.getElem?_replicate]
  split <;> rfl

/-- Setting a mark sets that mark alone. -/
theorem isReady_mark (b : Barrier room) {id : Nat} (h : id < room) (j : Nat) :
    (b.mark id).isReady j = (decide (j = id) || b.isReady j) := by
  unfold isReady mark
  simp only [Vector.getElem?_setIfInBounds]
  by_cases hj : id = j
  · subst hj
    simp [h]
  · simp [hj, Ne.symm hj]

/-- A mark that is not set is expected, if there is room for it. -/
theorem isExpected_of_not_isReady {b : Barrier room} {id : Nat} (h : id < room)
    (hready : b.isReady id = false) : b.isExpected id = true := by
  unfold isReady at hready
  unfold isExpected
  rw [Vector.getElem?_eq_getElem h, Option.getD_some] at hready
  rw [Vector.getElem?_eq_getElem h, hready]
  rfl

/-- Setting a mark that is not set makes one more. -/
theorem marks_mark {b : Barrier room} {id : Nat} (h : id < room) (hready : b.isReady id = false) :
    (b.mark id).marks = b.marks + 1 := by
  unfold isReady at hready
  rw [Vector.getElem?_eq_getElem h, Option.getD_some] at hready
  unfold marks mark
  rw [← Vector.count_toList, ← Vector.count_toList, Vector.toList_setIfInBounds,
    List.count_set (by simpa using h), Vector.getElem_toList, hready]
  rfl

/-- If a mark is set there is at least one. -/
theorem marks_pos {b : Barrier room} {id : Nat} (h : b.isReady id = true) : 0 < b.marks := by
  unfold marks
  rw [Vector.count_pos_iff]
  unfold isReady at h
  cases hslot : b.ready[id]? with
  | none =>
    rw [hslot] at h
    cases h
  | some mark =>
    rw [hslot, Option.getD_some] at h
    exact h ▸ Vector.mem_of_getElem? hslot

/-- There are no more marks than places where one may be set. -/
theorem marks_le {b : Barrier room} (h : ∀ id, b.isReady id = true → id < n) : b.marks ≤ n := by
  have hdrop : (b.ready.toList.drop n).count true = 0 := by
    rw [List.count_eq_zero]
    intro hmem
    obtain ⟨j, hj⟩ := List.mem_iff_getElem?.mp hmem
    rw [List.getElem?_drop, Vector.getElem?_toList] at hj
    have hlt := h (n + j) (by unfold isReady; rw [hj]; rfl)
    omega
  have hsplit := congrArg (List.count true) (List.take_append_drop n b.ready.toList)
  rw [List.count_append, hdrop, Nat.add_zero] at hsplit
  unfold marks
  rw [← Vector.count_toList, ← hsplit]
  exact Nat.le_trans List.count_le_length (List.length_take_le _ _)

/-! ## Where a core is -/

namespace Phase

/-- Whether the core has set its mark. -/
def hasMarked : Phase → Bool
  | .awaitGo | .countCores | .lock | .mark => false
  | .count | .tally | .unlock | .report | .beginScan | .scan _ _ | .left => true

/-- Whether the core has the lock. -/
def isInside : Phase → Bool
  | .mark | .count | .tally | .unlock => true
  | .awaitGo | .countCores | .lock | .report | .beginScan | .scan _ _ | .left => false

/-- Whether the core knows how many have arrived. -/
def hasPlace : Phase → Bool
  | .unlock | .report | .beginScan | .scan _ _ | .left => true
  | .awaitGo | .countCores | .lock | .mark | .count | .tally => false

end Phase

/-- What holds of the core number `id` of `n`, given where it is. -/
structure Visitor.Placed (b : Barrier room) (n id : Nat) (v : Visitor) : Prop where
  /-- it is that core -/
  id_eq : v.id = id
  /-- it was let in -/
  go : v.phase ≠ .awaitGo → b.go = true
  /-- its mark is set when it says so -/
  marked : b.isReady id = v.phase.hasMarked
  /-- it has the lock when it says so -/
  locked : v.phase.isInside = true → b.locked = true
  /-- it knows whether it is alone -/
  isAlone : v.phase ≠ .awaitGo → v.phase ≠ .countCores → v.isAlone = (n == 1)
  /-- it knows its place -/
  place_isSome : v.place.isSome = v.phase.hasPlace
  /-- its place is one of those that were given -/
  place_le : ∀ p, v.place = some p → 1 ≤ p ∧ p ≤ b.arrivals
  /-- the marks that it looked at are set -/
  scanned : ∀ index limit, v.phase = .scan index limit →
    limit = n ∧ ∀ j < index, b.isReady j = true
  /-- it leaves when all marks are set -/
  left : v.phase = .left → ∀ j < n, b.isReady j = true

/-- What holds of a core still holds after others have moved. -/
theorem Visitor.Placed.mono {b c : Barrier room} {id : Nat} {v : Visitor} (h : v.Placed b n id)
    (hgo : b.go = true → c.go = true) (hmark : c.isReady id = b.isReady id)
    (hready : ∀ j, b.isReady j = true → c.isReady j = true)
    (hlocked : v.phase.isInside = true → c.locked = true) (harrivals : b.arrivals ≤ c.arrivals) :
    v.Placed c n id where
  id_eq := h.id_eq
  go hphase := hgo (h.go hphase)
  marked := hmark.trans h.marked
  locked := hlocked
  isAlone := h.isAlone
  place_isSome := h.place_isSome
  place_le p hp := ⟨(h.place_le p hp).1, Nat.le_trans (h.place_le p hp).2 harrivals⟩
  scanned index limit hphase :=
    ⟨(h.scanned index limit hphase).1, fun j hj => hready j ((h.scanned index limit hphase).2 j hj)⟩
  left hphase j hj := hready j (h.left hphase j hj)

/-- A core that knows whether it is alone goes on. -/
theorem Visitor.Placed.advance {b c : Barrier room} {id : Nat} {v : Visitor} {before after : Phase}
    {place : Option Nat} (h : v.Placed b n id) (hbefore : v.phase = before)
    (hlet : before ≠ .awaitGo) (hknows : before ≠ .countCores) (hgo : c.go = b.go)
    (hmarked : c.isReady id = after.hasMarked) (hlocked : after.isInside = true → c.locked = true)
    (hsome : place.isSome = after.hasPlace) (hle : ∀ p, place = some p → 1 ≤ p ∧ p ≤ c.arrivals)
    (hscanned : ∀ index limit, after = .scan index limit →
      limit = n ∧ ∀ j < index, c.isReady j = true)
    (hleft : after = .left → ∀ j < n, c.isReady j = true) :
    { v with phase := after, place }.Placed c n id where
  id_eq := h.id_eq
  go _ := hgo.trans (h.go (hbefore ▸ hlet))
  marked := hmarked
  locked := hlocked
  isAlone _ _ := h.isAlone (hbefore ▸ hlet) (hbefore ▸ hknows)
  place_isSome := hsome
  place_le := hle
  scanned := hscanned
  left := hleft

/-- A core that knows whether it is alone goes on without marking its arrival. It may take or give
back the lock. -/
theorem Visitor.Placed.turn {b : Barrier room} {id : Nat} {v : Visitor} {before after : Phase}
    {locked : Bool} (h : v.Placed b n id) (hbefore : v.phase = before)
    (hlet : before ≠ .awaitGo) (hknows : before ≠ .countCores)
    (hmarked : before.hasMarked = after.hasMarked) (hplace : before.hasPlace = after.hasPlace)
    (hlocked : after.isInside = true → locked = true)
    (hscanned : ∀ index limit, after = .scan index limit →
      limit = n ∧ ∀ j < index, b.isReady j = true)
    (hleft : after = .left → ∀ j < n, b.isReady j = true) :
    { v with phase := after }.Placed { b with locked } n id := by
  have hready : b.isReady id = after.hasMarked := by rw [h.marked, hbefore, hmarked]
  have hsome : v.place.isSome = after.hasPlace := by rw [h.place_isSome, hbefore, hplace]
  exact h.advance hbefore hlet hknows rfl hready hlocked hsome h.place_le hscanned hleft

/-! ## What no step undoes -/

/-- No step of a core clears a mark. -/
theorem Visitor.isReady_step {b : Barrier room} (v : Visitor) {j : Nat}
    (h : b.isReady j = true) : (v.step b).memory.isReady j = true := by
  have hmark : (b.mark v.id).isReady j = true := by
    by_cases hid : v.id < room
    · rw [isReady_mark _ hid, h, Bool.or_true]
    · unfold isReady mark
      rw [Vector.setIfInBounds_eq_of_size_le (Nat.le_of_not_lt hid)]
      exact h
  unfold step
  cases v.phase <;> dsimp only <;> (try split) <;> (try split) <;> first | exact h | exact hmark

/-- A core that knows its place keeps it. -/
theorem Visitor.place_step {b : Barrier room} {v : Visitor} (h : v.phase.hasPlace = true) :
    (v.step b).value.place = v.place ∧ (v.step b).value.phase.hasPlace = true := by
  unfold step
  cases hphase : v.phase with
  | unlock => cases v.isAlone <;> exact ⟨rfl, rfl⟩
  | report => exact ⟨rfl, rfl⟩
  | beginScan => exact ⟨rfl, rfl⟩
  | scan index limit =>
    dsimp only
    split
    · split <;> exact ⟨rfl, rfl⟩
    · exact ⟨rfl, rfl⟩
  | left => exact ⟨rfl, by rw [hphase]; rfl⟩
  | awaitGo => rw [hphase] at h; cases h
  | countCores => rw [hphase] at h; cases h
  | lock => rw [hphase] at h; cases h
  | mark => rw [hphase] at h; cases h
  | count => rw [hphase] at h; cases h
  | tally => rw [hphase] at h; cases h

end BootLoader.Boot.Barrier
