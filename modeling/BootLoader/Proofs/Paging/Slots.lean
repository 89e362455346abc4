import BootLoader.Proofs.Paging.Care
import Mathlib.Data.Finset.Card
import Mathlib.Order.Interval.Finset.Nat

/-!
# The root entries of a plan

The range of a plan is *straight* when it lies between two multiples of the coverage
(`Plan.Straight`). The root entries of a straight plan never decrease from one leaf to the next, and
planning compares the first with the last of them, so a plan that is made is straight exactly when it
does not end under the entry at which it starts (`Plan.Sound.slot_mono_iff`).

`Tables.vacancies` are the root entries of an intermediate plan that are empty. Planning counts visits
that find no child, and a visit belongs to one entry, so it counts the vacancies when no entry is
visited twice (`Tables.lacking_eq_card`), and one entry twice otherwise
(`Tables.missing_eq_card_add`).
-/

namespace BootLoader.Paging

variable {F : Format} {n : Nat}

namespace Plan

/-- Whether the range of a plan lies between two multiples of the coverage of a root. -/
def Straight (F : Format) (p : Plan) : Prop := p.virt.toNat % F.coverage + p.span ≤ F.coverage

instance (p : Plan) : Decidable (p.Straight F) := inferInstanceAs (Decidable (_ ≤ _))

namespace Sound

variable {p : Plan}

/-- The distance of an address from a multiple of a root granule is part of its distance from a
multiple of the coverage. -/
theorem mod_coverage_eq (F : Format) (a : Nat) :
    a % F.coverage = F.levelSize 0 * (a % F.coverage / F.levelSize 0) + a % F.levelSize 0 := by
  rw [← Nat.mod_mod_of_dvd a (F.levelSize_dvd_coverage 0), Nat.div_add_mod]

/-- The root entry of a leaf of a straight plan. -/
theorem slot_straight (h : p.Sound F) (hs : p.Straight F) {j : Nat} (hj : j < p.steps) :
    p.slot F j = (p.virt.toNat % F.coverage + j * p.granule) / F.levelSize 0 := by
  have hle := leaf_le_span hj
  have hpos := h.granule_pos
  unfold Straight at hs
  unfold slot
  rw [← F.block_zero, Format.block, h.toNat_leafVirt hj, ← Nat.mod_add_mod,
    Nat.mod_eq_of_lt (a := p.virt.toNat % F.coverage + j * p.granule) (by omega)]

/-- The root entries of a straight plan do not decrease. -/
theorem slot_mono (h : p.Sound F) (hs : p.Straight F) {i j : Nat} (hij : i ≤ j)
    (hj : j < p.steps) : p.slot F i ≤ p.slot F j := by
  rw [h.slot_straight hs hj, h.slot_straight hs (Nat.lt_of_le_of_lt hij hj)]
  have := Nat.mul_le_mul_right p.granule hij
  exact Nat.div_le_div_right (by omega)

/-- A straight plan does not end under the root entry at which it starts by going around the root. -/
theorem not_rounds_of_straight (hs : p.Straight F) : ¬p.Rounds F := by
  have hmod := mod_coverage_eq F p.virt.toNat
  unfold Straight at hs
  unfold Rounds
  omega

/-- A plan whose last byte does not lie under an earlier root entry than the first one is straight,
unless it goes around the root. -/
theorem straight_of_not_rounds (h : p.Sound F) (hround : ¬p.Rounds F)
    (hindex : F.index p.virt 0 ≤ F.index (.ofNat (p.virt.toNat + (p.span - 1))) 0) :
    p.Straight F := by
  have hmod := mod_coverage_eq F p.virt.toNat
  have hlt := Nat.mod_lt p.virt.toNat F.coverage_pos
  have hend := h.virt_end
  have hpos := h.span_pos
  have hspan := h.span_le
  rw [← F.block_zero, ← F.block_zero, Format.block, Format.block,
    Address.toNat_ofNat_of_lt (by omega), ← Nat.mod_add_mod] at hindex
  unfold Rounds at hround
  unfold Straight
  by_contra hnot
  -- The last byte would lie before the block of the first one.
  have hlast : (p.virt.toNat % F.coverage + (p.span - 1)) % F.coverage =
      p.virt.toNat % F.coverage + (p.span - 1) - F.coverage := by
    rw [Nat.mod_eq_sub_mod (by omega), Nat.mod_eq_of_lt (by omega)]
  rw [hlast] at hindex
  refine Nat.not_lt_of_le hindex (Nat.div_lt_of_lt_mul ?_)
  omega

/-- The root entries of a plan whose last byte does not lie under an earlier one than the first do not
decrease exactly when the plan does not go around the root. -/
theorem slot_mono_iff (h : p.Sound F)
    (hindex : F.index p.virt 0 ≤ F.index (.ofNat (p.virt.toNat + (p.span - 1))) 0) :
    (∀ i j, i ≤ j → j < p.steps → p.slot F i ≤ p.slot F j) ↔ ¬p.Rounds F := by
  constructor
  · intro hmono hround
    cases htier : p.tier with
    | top => exact h.not_rounds htier hround
    | intermediate =>
      have hsteps := h.steps_pos
      have hentries := F.entries_pos
      have hsplit := Nat.div_add_mod' (p.firstBlock F) F.entries
      have hmod := Nat.mod_lt (p.firstBlock F) hentries
      have hsquare : F.entries ≤ F.entries * F.entries := Nat.le_mul_of_pos_left _ hentries
      rw [h.rounds_iff htier, Nat.add_mul] at hround
      -- The second visit is to another entry than the first, and the last one is to the same.
      have hlast := h.slot_of_round htier (j := p.steps - 1) (by omega) (by rw [Nat.add_mul]; omega)
      have hnext : (p.firstBlock F + (F.entries - p.firstBlock F % F.entries)) / F.entries =
          p.firstBlock F / F.entries + 1 := by
        refine Nat.div_eq_of_lt_le ?_ ?_
        · rw [Nat.add_mul]
          omega
        · rw [Nat.add_mul, Nat.add_mul]
          omega
      have hsecond := h.slot_ne htier (i := 0) (j := F.entries - p.firstBlock F % F.entries)
        (by omega) (by omega) (by rw [hnext]; exact Nat.lt_succ_self _)
        (by
          rw [hnext, Nat.add_zero]
          exact Nat.add_lt_add_left F.one_lt_entries _)
      have hle := hmono 0 (F.entries - p.firstBlock F % F.entries) (Nat.zero_le _) (by omega)
      have hge := hmono (F.entries - p.firstBlock F % F.entries) (p.steps - 1) (by omega) (by omega)
      omega
  · intro hround i j hij hj
    exact h.slot_mono (h.straight_of_not_rounds hround hindex) hij hj

end Sound

end Plan

/-! ## Vacant entries -/

namespace Tables

variable {t t' : Tables F n} {root : FrameId} {p : Plan}

/-- The empty root entries under which the leaves of a plan lie, from number `step` on and `remaining`
of them. -/
def vacant (t : Tables F n) (root : FrameId) (p : Plan) (step remaining : Nat) : Finset Nat :=
  ((Finset.Ico step (step + remaining)).image (p.slot F)).filter (t.entryAt root · = 0)

/-- The empty root entries for which an intermediate plan needs children. -/
def vacancies (t : Tables F n) (root : FrameId) (p : Plan) : Finset Nat :=
  match p.tier with
  | .top => ∅
  | .intermediate => t.vacant root p 0 p.steps

/-- The vacant entries of some leaves. -/
theorem mem_vacant {step remaining s : Nat} :
    s ∈ t.vacant root p step remaining ↔
      (∃ j, step ≤ j ∧ j < step + remaining ∧ p.slot F j = s) ∧ t.entryAt root s = 0 := by
  unfold vacant
  simp only [Finset.mem_filter, Finset.mem_image, Finset.mem_Ico, and_assoc]

/-- There is nothing vacant without leaves. -/
theorem vacant_zero (step : Nat) : t.vacant root p step 0 = ∅ := by
  unfold vacant
  rw [Nat.add_zero, Finset.Ico_self, Finset.image_empty, Finset.filter_empty]

/-- The vacant entries are that of the first visit, if it finds no child, and those of the others. -/
theorem mem_vacant_visit {step inSlot remaining s : Nat} (hpos : 0 < inSlot)
    (hle : inSlot ≤ remaining)
    (hsame : ∀ j, step ≤ j → j < step + inSlot → p.slot F j = p.slot F step) :
    s ∈ t.vacant root p step remaining ↔
      (s = p.slot F step ∧ t.entryAt root s = 0) ∨
        s ∈ t.vacant root p (step + inSlot) (remaining - inSlot) := by
  rw [mem_vacant, mem_vacant]
  constructor
  · rintro ⟨⟨j, hge, hlt, rfl⟩, hz⟩
    rcases Nat.lt_or_ge j (step + inSlot) with hj | hj
    · exact .inl ⟨hsame j hge hj, hz⟩
    · exact .inr ⟨⟨j, hj, by omega, rfl⟩, hz⟩
  · rintro (⟨rfl, hz⟩ | ⟨⟨j, hge, hlt, hj⟩, hz⟩)
    · exact ⟨⟨step, Nat.le_refl _, by omega, rfl⟩, hz⟩
    · exact ⟨⟨j, by omega, by omega, hj⟩, hz⟩

/-- An entry that is not vacant for a visit is not counted for it. -/
theorem vacant_visit_of_ne {step inSlot remaining : Nat} (hpos : 0 < inSlot)
    (hle : inSlot ≤ remaining)
    (hsame : ∀ j, step ≤ j → j < step + inSlot → p.slot F j = p.slot F step)
    (hne : t.entryAt root (p.slot F step) ≠ 0) :
    t.vacant root p step remaining = t.vacant root p (step + inSlot) (remaining - inSlot) := by
  ext s
  rw [mem_vacant_visit hpos hle hsame]
  exact or_iff_right fun ⟨hs, hz⟩ => hne (hs ▸ hz)

/-- An entry that is vacant for a visit is counted for it. -/
theorem vacant_visit_of_eq {step inSlot remaining : Nat} (hpos : 0 < inSlot)
    (hle : inSlot ≤ remaining)
    (hsame : ∀ j, step ≤ j → j < step + inSlot → p.slot F j = p.slot F step)
    (hz : t.entryAt root (p.slot F step) = 0) :
    t.vacant root p step remaining =
      insert (p.slot F step) (t.vacant root p (step + inSlot) (remaining - inSlot)) := by
  ext s
  rw [mem_vacant_visit hpos hle hsame, Finset.mem_insert]
  exact or_congr_left (and_iff_left_of_imp fun hs => hs ▸ hz)

/-- A visit that finds no child is made for each vacant entry. -/
theorem card_vacant_le_missing (hp : p.Sound F) (hmid : p.tier = .intermediate)
    {step remaining : Nat} (hle : step + remaining ≤ p.steps) :
    (t.vacant root p step remaining).card ≤ t.missing root p step remaining := by
  induction remaining using Nat.strongRecOn generalizing step with
  | ind remaining ih =>
  rcases Nat.eq_zero_or_pos remaining with rfl | hpos
  · rw [vacant_zero]
    exact Nat.zero_le _
  have hvisit := F.stepsInSlot_pos (p.leafVirt step) remaining hpos
  have hinSlot := F.stepsInSlot_le (p.leafVirt step) remaining
  have hsame := hp.slot_eq_of_visit hmid hle
  rw [t.missing_of_pos root p step hpos]
  generalize F.stepsInSlot (p.leafVirt step) remaining = inSlot at *
  have hrest := ih (remaining - inSlot) (by omega) (show step + inSlot + (remaining - inSlot) ≤ p.steps
    by omega)
  by_cases hz : t.entryAt root (p.slot F step) = 0
  · rw [vacant_visit_of_eq hvisit hinSlot hsame hz, hz, beq_self_eq_true, if_pos rfl]
    exact Nat.le_trans (Finset.card_insert_le _ _) (Nat.add_le_add_right hrest 1)
  · rw [vacant_visit_of_ne hvisit hinSlot hsame hz, beq_false_of_ne hz, if_neg Bool.false_ne_true]
    exact hrest

/-- Visits that find no child are as many as there are vacant entries, when no entry is visited
twice. -/
theorem missing_eq_card (hp : p.Sound F) (hmid : p.tier = .intermediate) {step remaining : Nat}
    (hend : step + remaining = p.steps)
    (hround : p.Ahead F step p.steps) :
    t.missing root p step remaining = (t.vacant root p step remaining).card := by
  induction remaining using Nat.strongRecOn generalizing step with
  | ind remaining ih =>
  rcases Nat.eq_zero_or_pos remaining with rfl | hpos
  · rw [vacant_zero]
    unfold missing
    rw [Format.visits_zero]
    rfl
  have hvisit := F.stepsInSlot_pos (p.leafVirt step) remaining hpos
  have hinSlot := F.stepsInSlot_le (p.leafVirt step) remaining
  have hsame := hp.slot_eq_of_visit hmid (Nat.le_of_eq hend)
  have hlater := fun j => hp.slot_ne_of_visit hmid hend (by omega) hround (j := j)
  rw [t.missing_of_pos root p step hpos]
  generalize F.stepsInSlot (p.leafVirt step) remaining = inSlot at *
  rw [ih (remaining - inSlot) (by omega) (by omega) (hround.mono (Nat.le_add_right _ _))]
  by_cases hz : t.entryAt root (p.slot F step) = 0
  · have hnot : p.slot F step ∉ t.vacant root p (step + inSlot) (remaining - inSlot) := by
      rw [mem_vacant]
      rintro ⟨⟨j, hge, hlt, hj⟩, -⟩
      exact hlater j hge (by omega) (by omega) hj
    rw [vacant_visit_of_eq hvisit hinSlot hsame hz, Finset.card_insert_of_notMem hnot, hz,
      beq_self_eq_true, if_pos rfl]
  · rw [vacant_visit_of_ne hvisit hinSlot hsame hz, beq_false_of_ne hz, if_neg Bool.false_ne_true,
      Nat.add_zero]

/-- A plan lacks a table for each of its vacancies, or more of them. -/
theorem card_vacancies_le (t : Tables F n) (root : FrameId) (hp : p.Sound F) :
    (t.vacancies root p).card ≤ t.lacking root p := by
  unfold lacking vacancies
  cases htier : p.tier with
  | top => exact Nat.le_refl 0
  | intermediate => exact card_vacant_le_missing hp htier (Nat.le_of_eq (Nat.zero_add _))

/-- A plan that does not go around the root lacks a table for each of its vacancies. -/
theorem lacking_eq_card (hp : p.Sound F) (hround : ¬p.Rounds F) :
    t.lacking root p = (t.vacancies root p).card := by
  unfold lacking vacancies
  cases htier : p.tier with
  | top => rfl
  | intermediate =>
    rw [hp.not_rounds_iff htier] at hround
    exact missing_eq_card hp htier (Nat.zero_add _) hround

/-- A plan that goes around the root visits its first entry twice, and a child that is missing there is
counted twice. -/
theorem missing_eq_card_add (t : Tables F n) (root : FrameId) (hp : p.Sound F)
    (hmid : p.tier = .intermediate) (hround : p.Rounds F) :
    t.missing root p 0 p.steps = (t.vacant root p 0 p.steps).card +
      if t.entryAt root (p.slot F 0) == 0 then 1 else 0 := by
  have hpos := F.entries_pos
  have hsteps := hp.steps_pos
  have hbound := hp.steps_le hmid
  have hsplit := Nat.div_add_mod' (p.firstBlock F) F.entries
  have hmod := Nat.mod_lt (p.firstBlock F) hpos
  have hsquare : F.entries ≤ F.entries * F.entries := Nat.le_mul_of_pos_left _ hpos
  have hfirst := hp.stepsInSlot_eq hmid hsteps p.steps
  have hvisit := F.stepsInSlot_pos (p.leafVirt 0) p.steps hsteps
  have hinSlot := F.stepsInSlot_le (p.leafVirt 0) p.steps
  have hsame := hp.slot_eq_of_visit hmid (Nat.le_of_eq (Nat.zero_add p.steps))
  rw [hp.rounds_iff hmid, Nat.add_mul] at hround
  rw [t.missing_of_pos root p 0 hsteps]
  rw [Nat.add_zero] at hfirst
  generalize F.stepsInSlot (p.leafVirt 0) p.steps = inSlot at *
  have hnext : (p.firstBlock F + (0 + inSlot)) / F.entries = p.firstBlock F / F.entries + 1 := by
    refine Nat.div_eq_of_lt_le ?_ ?_
    · rw [Nat.add_mul]
      omega
    · rw [Nat.add_mul, Nat.add_mul]
      omega
  have hahead : p.Ahead F (0 + inSlot) p.steps := by
    unfold Plan.Ahead
    rw [hnext, Nat.add_mul, Nat.add_mul]
    omega
  rw [missing_eq_card hp hmid (by omega) hahead]
  -- The last leaf lies under the first entry again, so the first visit adds no entry.
  congr 2
  ext s
  rw [mem_vacant_visit hvisit hinSlot hsame]
  refine (or_iff_right_of_imp ?_).symm
  rintro ⟨rfl, hz⟩
  have hlast := hp.slot_of_round hmid (j := p.steps - 1) (by omega) (by rw [Nat.add_mul]; omega)
  exact mem_vacant.mpr ⟨⟨p.steps - 1, by omega, by omega, hlast⟩, hz⟩

end Tables

end BootLoader.Paging
