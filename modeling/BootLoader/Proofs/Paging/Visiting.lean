import BootLoader.Proofs.Paging.Slots

/-!
# The visits of two loops

Planning and performing an intermediate plan visit the same root entries: the first reads them as
they are, the second while it changes them. A root is *ready* for the leaves of a plan when each of
their entries is empty or points at a child that is not the root itself (`Tables.Ready`), which is
what the check finds when it passes (`Tables.checkSlots_ok`). What one visit does to its root is
`Tables.Visited`: one entry points at a child afterwards, and the others are as they were. The
leaves of a ready root are therefore written to the end, and as many frames are handed out as there
are vacant entries (`Builder.apply_ready`). A plan that comes back to the entry at which it started
reads a pointer that it has written itself, for which the format has to hold the addresses of the
frames.
-/

namespace BootLoader.Paging

variable {F : Format} {n : Nat}

namespace Tables

/-! ## What planning finds -/

/-- Whether the root entries of the leaves from number `step` on, and `remaining` of them, are empty
or point at children that are not the root itself. -/
def Ready (t : Tables F n) (root : FrameId) (p : Plan) (step remaining : Nat) : Prop :=
  ∀ j, step ≤ j → j < step + remaining → t.entryAt root (p.slot F j) = 0 ∨
    ∃ c, t.childAt root (p.slot F j) = some c ∧ c ≠ root

variable {t : Tables F n} {root : FrameId} {p : Plan}

/-- When the check of the leaves of an intermediate plan passes, it has counted the tables that are
missing, and has found empty entries and pointers at frames in use only. -/
theorem checkSlots_ok (hroot : root < n)
    (hzero : ∀ i, F.decode (t.entryAt root i) 0 = .invalid → t.entryAt root i = 0)
    (hp : p.Sound F) (hmid : p.tier = .intermediate) {step remaining added count : Nat}
    (hle : step + remaining ≤ p.steps)
    (hok : t.checkSlots root p step remaining added = .ok count) :
    count = added + t.missing root p step remaining ∧
      ∀ j, step ≤ j → j < step + remaining → t.entryAt root (p.slot F j) = 0 ∨
        ∃ c, t.childAt root (p.slot F j) = some c := by
  -- As the check recurses: a visit takes at least one of the leaves that are left.
  induction remaining using Nat.strongRecOn generalizing step added with
  | ind remaining ih =>
  rcases Nat.eq_zero_or_pos remaining with rfl | hpos
  · rw [checkSlots, dif_pos rfl] at hok
    cases hok
    unfold missing
    rw [Format.visits_zero]
    exact ⟨rfl, fun j hge hlt => by omega⟩
  have hvisit := F.stepsInSlot_pos (p.leafVirt step) remaining hpos
  have hinSlot := F.stepsInSlot_le (p.leafVirt step) remaining
  have hsame := hp.slot_eq_of_visit hmid hle
  have hread := t.read_eq_ok hroot (p.slot_lt F step)
  rw [t.missing_of_pos root p step hpos]
  rw [checkSlots, dif_neg (Nat.ne_of_gt hpos), hp.virtAt_eq_ok (by omega)] at hok
  simp only [p.index_leafVirt, hread] at hok
  generalize F.stepsInSlot (p.leafVirt step) remaining = inSlot at *
  have hrest : ∀ {k}, t.checkSlots root p (step + inSlot) (remaining - inSlot) k = .ok count →
      count = k + t.missing root p (step + inSlot) (remaining - inSlot) ∧ _ :=
    ih (remaining - inSlot) (by omega) (by omega)
  -- What is found at the entry of this visit is found for all of its leaves.
  have hall : (t.entryAt root (p.slot F step) = 0 ∨ ∃ c, t.childAt root (p.slot F step) = some c) →
      (∀ j, step + inSlot ≤ j → j < step + inSlot + (remaining - inSlot) →
        t.entryAt root (p.slot F j) = 0 ∨ ∃ c, t.childAt root (p.slot F j) = some c) →
      ∀ j, step ≤ j → j < step + remaining → t.entryAt root (p.slot F j) = 0 ∨
        ∃ c, t.childAt root (p.slot F j) = some c := by
    intro hhere hothers j hge hlt
    rcases Nat.lt_or_ge j (step + inSlot) with hj | hj
    · rw [hsame j hge hj]
      exact hhere
    · exact hothers j hj (by omega)
  cases hd : F.decode (t.entryAt root (p.slot F step)) 0 with
  | invalid =>
    simp only [hd] at hok
    have hz := hzero _ hd
    obtain ⟨hcount, hothers⟩ := hrest hok
    refine ⟨?_, hall (.inl hz) hothers⟩
    rw [hcount, hz, beq_self_eq_true, if_pos rfl]
    omega
  | leaf base attrs =>
    simp only [hd] at hok
    cases hok
  | next child =>
    simp only [hd] at hok
    cases hf : t.frameAt child with
    | none =>
      simp only [hf] at hok
      cases hok
    | some c =>
      simp only [hf] at hok
      have hc : t.childAt root (p.slot F step) = some c := childAt_eq_some.mpr ⟨child, hd, hf⟩
      split at hok
      · cases hok
      · obtain ⟨hcount, hothers⟩ := hrest hok
        refine ⟨?_, hall (.inr ⟨c, hc⟩) hothers⟩
        rw [hcount, beq_false_of_ne (childAt_ne_zero hc), if_neg Bool.false_ne_true, Nat.add_zero]

/-- When the check of a plan passes, it has counted the tables that the plan lacks, and has found
empty entries and pointers at frames in use only where the plan needs children. -/
theorem missingTables_ok (hroot : root < n)
    (hzero : ∀ i, F.decode (t.entryAt root i) 0 = .invalid → t.entryAt root i = 0)
    (hp : p.Sound F) {count : Nat} (hok : t.missingTables root p = .ok count) :
    count = t.lacking root p ∧ (p.tier = .intermediate → ∀ j, j < p.steps →
      t.entryAt root (p.slot F j) = 0 ∨ ∃ c, t.childAt root (p.slot F j) = some c) := by
  unfold missingTables at hok
  unfold lacking
  cases htier : p.tier with
  | top =>
    rw [htier] at hok
    simp only at hok
    cases hcheck : t.checkLeaves p root 0 0 p.steps with
    | ok _ =>
      rw [hcheck] at hok
      cases hok
      exact ⟨rfl, fun h => by cases h⟩
    | error stop =>
      simp only [hcheck, bind, Except.bind] at hok
      cases hok
  | intermediate =>
    rw [htier] at hok
    obtain ⟨hcount, hready⟩ :=
      checkSlots_ok hroot hzero hp htier (Nat.le_of_eq (Nat.zero_add _)) hok
    exact ⟨hcount.trans (Nat.zero_add _), fun _ j hj => hready j (Nat.zero_le j) (by omega)⟩

/-! ## What a visit does -/

/-- What a visit of the entry at `s` does to its root: the entry points at a child afterwards, which
is handed out if the entry was empty, and the other entries are as they were. -/
structure Visited (t t' : Tables F n) (root : FrameId) (s : Nat) : Prop where
  /-- the storage is in order -/
  regular : t'.Regular
  /-- the frames are where they were -/
  base_eq : t'.base = t.base
  /-- a frame is handed out for an empty entry -/
  used_eq : t'.used = t.used + if t.entryAt root s == 0 then 1 else 0
  /-- the other entries of the root are as they were -/
  entry_eq : ∀ i, i ≠ s → t'.entryAt root i = t.entryAt root i
  /-- the entry is in use -/
  filled : t'.entryAt root s ≠ 0
  /-- the child can be read back -/
  child : F.Placed n t.base → ∃ c, t'.childAt root s = some c ∧ c ≠ root

namespace Visited

variable {t' : Tables F n} {s : Nat}

/-- Frames stay in use. -/
theorem used_le (h : t.Visited t' root s) : t.used ≤ t'.used := by
  rw [h.used_eq]
  exact Nat.le_add_right _ _

/-- Planting a child for an empty entry is a visit. -/
theorem plant (hreg : t.Regular) (hroot : root < t.used) (hbase : t.base.toNat % pageSize = 0)
    (hu : t.used < n) (hz : t.entryAt root s = 0) {step count : Nat}
    (haccepts : t.AcceptsAll (t.plantEdits root s p step count)) :
    t.Visited (t.after (t.plantEdits root s p step count)) root s where
  regular := haccepts.regular hreg
  base_eq := base_after _ _
  used_eq := by rw [used_after_plantEdits, hz, beq_self_eq_true, if_pos rfl]
  entry_eq := by
    intro i hi
    by_contra hne
    obtain ⟨raw, hmem⟩ := haccepts.mem_of_entryAt_ne hreg hne
    rcases write_of_mem_plantEdits hmem with ⟨-, hs⟩ | ⟨j, -, -, hframe, -⟩
    · exact hi hs
    · exact Nat.ne_of_lt hroot hframe
  filled := by
    have hmem : Edit.write root s (F.pointerWord (t.frameAddress t.used)) ∈
        t.plantEdits root s p step count :=
      List.mem_cons_of_mem _ (List.mem_append_right _ List.mem_cons_self)
    have hne : F.width.stored (F.pointerWord (t.frameAddress t.used)) ≠ 0 :=
      Format.stored_pointerWord_ne_zero (frameAddress_aligned hbase t.used)
    rw [haccepts.entryAt_of_mem hreg hmem hne]
    exact hne
  child := fun hplaced =>
    ⟨t.used, childAt_after_plantEdits hreg hplaced hu haccepts, Nat.ne_of_gt hroot⟩

/-- Filling the child of an entry is a visit: the child is not the root itself. -/
theorem fill (hreg : t.Regular) {c : FrameId} (hc : t.childAt root s = some c) (hne : c ≠ root)
    (step count : Nat) : t.Visited (t.after (p.leafEdits F c step count)) root s := by
  have hreach := reachesAll_leafEdits (childAt_lt hc) p step count
  have hentry : ∀ i, (t.after (p.leafEdits F c step count)).entryAt root i = t.entryAt root i := by
    intro i
    by_contra hdiff
    obtain ⟨raw, hmem⟩ := hreach.mem_of_entryAt_ne hreg hdiff
    obtain ⟨j, -, -, he⟩ := Plan.mem_leafEdits.mp hmem
    injection he with hframe
    exact hne hframe.symm
  exact {
    regular := (hreach.after hreg).1
    base_eq := base_after _ _
    used_eq := by
      rw [used_after, p.count_leafEdits, beq_false_of_ne (childAt_ne_zero hc),
        if_neg Bool.false_ne_true]
    entry_eq := fun i _ => hentry i
    filled := hentry s ▸ childAt_ne_zero hc
    child := fun _ =>
      ⟨c, childAt_congr (base_after _ _) (hreach.after hreg).2 (hentry s) hc, hne⟩ }

/-- An entry that is not visited stays ready. -/
theorem ready_of_ne (h : t.Visited t' root s) {i : Nat} (hi : i ≠ s)
    (hready : t.entryAt root i = 0 ∨ ∃ c, t.childAt root i = some c ∧ c ≠ root) :
    t'.entryAt root i = 0 ∨ ∃ c, t'.childAt root i = some c ∧ c ≠ root := by
  rw [h.entry_eq i hi]
  refine hready.imp_right ?_
  rintro ⟨c, hc, hne⟩
  exact ⟨c, childAt_congr h.base_eq h.used_le (h.entry_eq i hi) hc, hne⟩

/-- The entry that is visited is not vacant any more, and the others are as they were. -/
theorem vacant_eq (h : t.Visited t' root s) (step remaining : Nat) :
    t'.vacant root p step remaining = (t.vacant root p step remaining).erase s := by
  ext i
  rw [Finset.mem_erase, mem_vacant, mem_vacant]
  by_cases hi : i = s
  · subst hi
    exact iff_of_false (fun hz => h.filled hz.2) fun hne => hne.1 rfl
  · rw [h.entry_eq i hi, and_iff_right hi]

/-- The vacant entries are those that the other visits find, and that of this visit if it finds no
child. -/
theorem card_vacant (h : t.Visited t' root (p.slot F step)) {inSlot remaining : Nat}
    (hpos : 0 < inSlot) (hle : inSlot ≤ remaining)
    (hsame : ∀ j, step ≤ j → j < step + inSlot → p.slot F j = p.slot F step) :
    (t.vacant root p step remaining).card =
      (t'.vacant root p (step + inSlot) (remaining - inSlot)).card +
        if t.entryAt root (p.slot F step) == 0 then 1 else 0 := by
  rw [h.vacant_eq]
  by_cases hz : t.entryAt root (p.slot F step) = 0
  · rw [vacant_visit_of_eq hpos hle hsame hz, hz, beq_self_eq_true, if_pos rfl,
      ← Finset.card_erase_add_one (Finset.mem_insert_self _ _), Finset.erase_insert_eq_erase]
  · have hnot : p.slot F step ∉ t.vacant root p (step + inSlot) (remaining - inSlot) :=
      fun hm => hz (mem_vacant.mp hm).2
    rw [vacant_visit_of_ne hpos hle hsame hz, Finset.erase_eq_of_notMem hnot, beq_false_of_ne hz,
      if_neg Bool.false_ne_true, Nat.add_zero]

end Visited

/-- What a visit writes for the leaves number `step` to `step + count - 1`: a child is planted for
an empty entry of the root, or the child that is there is filled. -/
inductive Visit (t : Tables F n) (root : FrameId) (p : Plan) (step count : Nat) : List Edit → Prop where
  /-- there is no child -/
  | plant (hz : t.entryAt root (p.slot F step) = 0) :
    Visit t root p step count (t.plantEdits root (p.slot F step) p step count)
  /-- the child is there, and is not the root itself -/
  | fill {c : FrameId} (hc : t.childAt root (p.slot F step) = some c) (hne : c ≠ root) :
    Visit t root p step count (p.leafEdits F c step count)

/-- The visits by which the leaves of an intermediate plan are written, from number `step` on and
`remaining` of them. -/
inductive Visits (root : FrameId) (p : Plan) : Tables F n → (step remaining : Nat) → List Edit → Prop
    where
  /-- no leaf is left -/
  | done (t : Tables F n) (step : Nat) : Visits root p t step 0 []
  /-- one visit, and those of the leaves that are left -/
  | visit {t : Tables F n} {step remaining : Nat} {es es' : List Edit} (hpos : 0 < remaining)
    (hvisit : t.Visit root p step (F.stepsInSlot (p.leafVirt step) remaining) es)
    (hvisited : t.Visited (t.after es) root (p.slot F step))
    (hrest : Visits root p (t.after es) (step + F.stepsInSlot (p.leafVirt step) remaining)
      (remaining - F.stepsInSlot (p.leafVirt step) remaining) es') :
    Visits root p t step remaining (es ++ es')

/-- Visits hand out a frame for each vacant entry. -/
theorem Visits.used_eq (hp : p.Sound F) (hmid : p.tier = .intermediate) {step remaining : Nat}
    {es : List Edit} (h : Visits root p t step remaining es) (hle : step + remaining ≤ p.steps) :
    (t.after es).used = t.used + (t.vacant root p step remaining).card := by
  induction h with
  | done t step =>
    rw [vacant_zero]
    rfl
  | @visit t step remaining es es' hpos _ hvisited hrest ih =>
    have hvisit := F.stepsInSlot_pos (p.leafVirt step) remaining hpos
    have hinSlot := F.stepsInSlot_le (p.leafVirt step) remaining
    have hcount := hvisited.card_vacant hvisit hinSlot (hp.slot_eq_of_visit hmid hle)
    have hused := hvisited.used_eq
    rw [after_append, ih (by omega)]
    omega

end Tables

/-! ## What performing does -/

namespace Builder

open Tables (Ready Visit Visited Visits)

variable {w : Worksite F n} {root : FrameId} {p : Plan}

/-- One visit of an entry that is ready writes the leaves of its child, and hands out a frame if
there is no child. -/
theorem writeSlot_ready (hreg : w.tables.Regular) (hroot : root < w.tables.used)
    (hbase : w.tables.base.toNat % pageSize = 0) (hp : p.Sound F) (hmid : p.tier = .intermediate)
    {step count : Nat} (hle : step + count ≤ p.steps)
    (hsame : ∀ j, step ≤ j → j < step + count → p.slot F j = p.slot F step)
    (hready : w.tables.entryAt root (p.slot F step) = 0 ∨
      ∃ c, w.tables.childAt root (p.slot F step) = some c ∧ c ≠ root)
    (hroom : w.tables.entryAt root (p.slot F step) = 0 → w.tables.used < n) :
    ∃ es, writeSlot root p (p.leafVirt step) step count w = .ok () (w.perform es) ∧
      w.tables.Visit root p step count es ∧
      w.tables.Visited (w.tables.after es) root (p.slot F step) := by
  have hrootn := Nat.lt_of_lt_of_le hroot hreg.used_le
  rcases hready with hz | ⟨c, hc, hne⟩
  · -- There is no child: one is planted.
    have hu := hroom hz
    have haccepts :=
      Tables.acceptsAll_plantEdits hreg hu hroot hp hle (p.slot_lt F step) hsame hz
    exact ⟨_, writeSlot_plant hrootn hbase hu hp hmid hle hz, .plant hz,
      .plant hreg hroot hbase hu hz haccepts⟩
  · -- The child is there: it is filled.
    exact ⟨_, writeSlot_fill hrootn hreg.used_le hp hmid hle hc, .fill hc hne,
      .fill hreg hc hne step count⟩

/-- The leaves from number `step` on are written, visit by visit, when their entries are ready and
there are frames for the vacant ones. -/
theorem writeSlots_ready (hreg : w.tables.Regular) (hroot : root < w.tables.used)
    (hbase : w.tables.base.toNat % pageSize = 0) (hp : p.Sound F) (hmid : p.tier = .intermediate)
    {step remaining : Nat} (hend : step + remaining = p.steps)
    (hready : w.tables.Ready root p step remaining)
    (hagain : F.Placed n w.tables.base ∨ p.Ahead F step p.steps)
    (hroom : (w.tables.vacant root p step remaining).card ≤ w.tables.available) :
    ∃ es, writeSlots root p step remaining w = .ok () (w.perform es) ∧
      Visits root p w.tables step remaining es := by
  -- A visit takes at least one leaf, so the induction is on the leaves that are left.
  induction remaining using Nat.strongRecOn generalizing step w with
  | ind remaining ih =>
  rcases Nat.eq_zero_or_pos remaining with rfl | hpos
  · refine ⟨[], ?_, .done _ _⟩
    rw [writeSlots, dif_pos rfl, w.perform_nil]
    rfl
  have hstep : step < p.steps := by omega
  have hvisit := F.stepsInSlot_pos (p.leafVirt step) remaining hpos
  have hinSlot := F.stepsInSlot_le (p.leafVirt step) remaining
  have hsame := hp.slot_eq_of_visit hmid (Nat.le_of_eq hend)
  have hlater := fun (hround : p.Ahead F step p.steps) j =>
    hp.slot_ne_of_visit hmid hend hstep hround (j := j)
  rw [writeSlots, dif_neg (Nat.ne_of_gt hpos), hp.virtAt_eq_ok hstep]
  simp only
  have hfree : w.tables.entryAt root (p.slot F step) = 0 → w.tables.used < n := by
    intro hz
    have hcard : 0 < (w.tables.vacant root p step remaining).card :=
      Finset.card_pos.mpr ⟨p.slot F step, Tables.mem_vacant.mpr
        ⟨⟨step, Nat.le_refl _, by omega, rfl⟩, hz⟩⟩
    unfold Tables.available at hroom
    omega
  obtain ⟨es, hrun, hwrites, hvisited⟩ := writeSlot_ready hreg hroot hbase hp hmid (by omega) hsame
    (hready step (Nat.le_refl _) (by omega)) hfree
  have hcount := hvisited.card_vacant hvisit hinSlot hsame
  have hused := hvisited.used_eq
  have hless := hvisited.used_le
  -- An entry that is visited again holds the pointer that has been read or written here.
  have hready' : (w.tables.after es).Ready root p (step + F.stepsInSlot (p.leafVirt step) remaining)
      (remaining - F.stepsInSlot (p.leafVirt step) remaining) := by
    intro j hge hlt
    by_cases hj : p.slot F j = p.slot F step
    · rcases hagain with hplaced | hround
      · rw [hj]
        exact .inr (hvisited.child hplaced)
      · exact absurd hj (hlater hround j hge (by omega) (by omega))
    · exact hvisited.ready_of_ne hj (hready j (by omega) (by omega))
  have hagain' : F.Placed n (w.tables.after es).base ∨
      p.Ahead F (step + F.stepsInSlot (p.leafVirt step) remaining) p.steps :=
    hagain.imp (fun hplaced => hvisited.base_eq.symm ▸ hplaced) fun hround =>
      hround.mono (Nat.le_add_right _ _)
  obtain ⟨es', hrun', hrest⟩ := ih _ (Nat.sub_lt hpos hvisit) (w := w.perform es)
    hvisited.regular (Nat.lt_of_lt_of_le hroot hless) (hvisited.base_eq.symm ▸ hbase)
    (by omega) hready' hagain'
    (by
      unfold Tables.available at hroom ⊢
      rw [Worksite.tables_perform]
      omega)
  refine ⟨es ++ es', ?_, .visit hpos hwrites hvisited hrest⟩
  rw [bind_ok hrun, hrun', Worksite.perform_append]

/-- A plan whose root is ready for it is performed to its end, visit by visit, when there are frames
for its vacancies, and as many frames are handed out. It may go around the root when the format
holds the addresses of the frames. -/
theorem apply_ready (hreg : w.tables.Regular) (hroot : root < w.tables.used)
    (hbase : w.tables.base.toNat % pageSize = 0) (hp : p.Sound F)
    (hready : p.tier = .intermediate → w.tables.Ready root p 0 p.steps)
    (hagain : F.Placed n w.tables.base ∨ ¬p.Rounds F)
    (hroom : (w.tables.vacancies root p).card ≤ w.tables.available) :
    ∃ es, apply root p w = .ok () (w.perform es) ∧
      (w.tables.after es).used = w.tables.used + (w.tables.vacancies root p).card ∧
      (p.tier = .intermediate → Visits root p w.tables 0 p.steps es) := by
  unfold apply
  unfold Tables.vacancies at hroom ⊢
  cases htier : p.tier with
  | top =>
    have hlevel : p.tier.level = 0 := by rw [htier]; rfl
    have hrootn : root < n := Nat.lt_of_lt_of_le hroot hreg.used_le
    have hrun := writeLeaves_ok hp hrootn (Nat.le_of_eq (Nat.zero_add _)) w
    rw [hlevel] at hrun
    refine ⟨_, hrun, ?_, fun hmid => by cases hmid⟩
    rw [Tables.used_after, p.count_leafEdits]
    rfl
  | intermediate =>
    rw [htier] at hroom
    rw [hp.not_rounds_iff htier] at hagain
    obtain ⟨es, hrun, hvisits⟩ := writeSlots_ready hreg hroot hbase hp htier (Nat.zero_add _)
      (hready htier) hagain hroom
    exact ⟨es, hrun, hvisits.used_eq hp htier (Nat.le_of_eq (Nat.zero_add _)), fun _ => hvisits⟩

end Builder

end BootLoader.Paging
