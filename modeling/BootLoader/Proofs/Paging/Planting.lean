import BootLoader.Proofs.Paging.Performing
import Mathlib.Data.Nat.Find

/-!
# Planting children in a fresh root

When the root entries that an intermediate plan visits are empty, and no entry is visited twice,
performing the plan plants a child for each of them and never reads a pointer back. What is then
written does not depend on where the storage is, so these statements do without the addresses of the
frames: `Builder.writeSlots_plant` takes the construction up to a leaf that starts a child table,
or to the end. An entry is visited twice only by a plan that goes around the root and ends under the
entry at which it starts (`Plan.Rounds`).
-/

namespace BootLoader.Paging

variable {F : Format} {n : Nat}

namespace Plan

/-- Whether a plan goes around the root, and ends under the root entry at which it starts. -/
def Rounds (F : Format) (p : Plan) : Prop :=
  F.coverage < p.virt.toNat % F.levelSize 0 + p.span

instance (p : Plan) : Decidable (p.Rounds F) := inferInstanceAs (Decidable (_ < _))

/-- Going around the root in blocks of the intermediate tier. -/
theorem Sound.rounds_iff {p : Plan} (h : p.Sound F) (hmid : p.tier = .intermediate) :
    p.Rounds F ↔ (p.firstBlock F / F.entries + F.entries) * F.entries < p.firstBlock F + p.steps := by
  have hgranule := h.granule_mid hmid
  have hpos := F.levelSize_pos 1
  have hvirt : p.virt.toNat = F.levelSize 1 * p.firstBlock F :=
    (Nat.mul_div_cancel' (Nat.dvd_of_mod_eq_zero (hgranule ▸ h.virt_aligned))).symm
  have hoffset : p.virt.toNat % F.levelSize 0 = F.levelSize 1 * (p.firstBlock F % F.entries) := by
    rw [hvirt, Format.levelSize_zero, Nat.mul_mod_mul_left]
  have hcoverage : F.coverage = F.levelSize 1 * (F.entries * F.entries) := by
    unfold Format.coverage
    rw [Format.levelSize_zero, Nat.mul_assoc]
  have hsplit := Nat.div_add_mod (p.firstBlock F) F.entries
  unfold Rounds span
  rw [hoffset, hcoverage, hgranule, Nat.mul_comm p.steps, ← Nat.mul_add, Nat.mul_lt_mul_left hpos,
    Nat.add_mul, Nat.mul_comm (p.firstBlock F / F.entries)]
  omega

/-- An intermediate plan has no more leaves than there are places under a root. -/
theorem Sound.steps_le {p : Plan} (h : p.Sound F) (hmid : p.tier = .intermediate) :
    p.steps ≤ F.entries * F.entries := by
  have hspan := h.span_le
  have hgranule := h.granule_mid hmid
  unfold span Format.coverage at hspan
  rw [hgranule, Format.levelSize_zero, Nat.mul_assoc, Nat.mul_comm] at hspan
  exact Nat.le_of_mul_le_mul_left hspan (F.levelSize_pos 1)

/-- Two leaves lie under different root entries when the child tables that hold them are different,
and fewer than there are root entries apart. -/
theorem Sound.slot_ne {p : Plan} (h : p.Sound F) (hmid : p.tier = .intermediate) {i j : Nat}
    (hi : i < p.steps) (hj : j < p.steps)
    (hlt : (p.firstBlock F + i) / F.entries < (p.firstBlock F + j) / F.entries)
    (hnear : (p.firstBlock F + j) / F.entries < (p.firstBlock F + i) / F.entries + F.entries) :
    p.slot F j ≠ p.slot F i := by
  rw [h.slot_mid hmid hi, h.slot_mid hmid hj]
  generalize (p.firstBlock F + i) / F.entries = a at *
  generalize (p.firstBlock F + j) / F.entries = b at *
  intro hmod
  have hzero : b - a = 0 := by
    refine add_left_cancel_mod (a := a) (m := F.entries) ?_ (by omega) F.entries_pos
    rw [Nat.add_sub_cancel' (Nat.le_of_lt hlt), hmod, Nat.add_zero]
  omega

/-- A leaf that does not start a child table lies under the root entry of the leaf before it. -/
theorem Sound.slot_pred {p : Plan} (h : p.Sound F) (hmid : p.tier = .intermediate) {k : Nat}
    (hk : k < p.steps) (hpos : 0 < k) (hmod : (p.firstBlock F + k) % F.entries ≠ 0) :
    p.slot F (k - 1) = p.slot F k := by
  have hsplit := Nat.div_add_mod (p.firstBlock F + k) F.entries
  have hlt := Nat.mod_lt (p.firstBlock F + k) F.entries_pos
  have hdiv : p.firstBlock F + (k - 1) = F.entries * ((p.firstBlock F + k) / F.entries) +
      ((p.firstBlock F + k) % F.entries - 1) := by omega
  have hsmall : (p.firstBlock F + k) % F.entries - 1 < F.entries := by omega
  rw [h.slot_mid hmid hk, h.slot_mid hmid (by omega), hdiv, Nat.mul_add_div F.entries_pos,
    Nat.div_eq_of_lt hsmall, Nat.add_zero]

/-- A leaf that is reached by going around the root lies under the root entry of the first leaf: the
plan is not long enough to go on from there to the next entry. -/
theorem Sound.slot_of_round {p : Plan} (h : p.Sound F) (hmid : p.tier = .intermediate) {j : Nat}
    (hj : j < p.steps)
    (hround : (p.firstBlock F / F.entries + F.entries) * F.entries ≤ p.firstBlock F + j) :
    p.slot F j = p.slot F 0 := by
  have hsteps := h.steps_le hmid
  have hsplit := Nat.div_add_mod (p.firstBlock F) F.entries
  have hmod := Nat.mod_lt (p.firstBlock F) F.entries_pos
  have hturn : (p.firstBlock F / F.entries + F.entries) * F.entries =
      F.entries * (p.firstBlock F / F.entries) + F.entries * F.entries := by
    rw [Nat.add_mul, Nat.mul_comm (p.firstBlock F / F.entries)]
  have hdiv : (p.firstBlock F + j) / F.entries = p.firstBlock F / F.entries + F.entries := by
    refine Nat.div_eq_of_lt_le hround ?_
    rw [Nat.succ_mul, hturn]
    omega
  rw [h.slot_mid hmid hj, hdiv, Nat.add_mod_right, h.slot_mid hmid (by omega), Nat.add_zero]

/-- Whether the leaves from number `step` up to `stop` do not come back to the root entry of the first
of them by going around the root. -/
def Ahead (F : Format) (p : Plan) (step stop : Nat) : Prop :=
  p.firstBlock F + stop ≤ ((p.firstBlock F + step) / F.entries + F.entries) * F.entries

/-- Leaves that do not come back to an earlier root entry do not come back to a later one. -/
theorem Ahead.mono {p : Plan} {step step' stop : Nat} (h : p.Ahead F step stop) (hle : step ≤ step') :
    p.Ahead F step' stop := by
  refine Nat.le_trans h (Nat.mul_le_mul_right _ (Nat.add_le_add_right ?_ _))
  exact Nat.div_le_div_right (Nat.add_le_add_left hle _)

/-- A plan does not go around the root when its leaves do not come back to the first root entry. -/
theorem Sound.not_rounds_iff {p : Plan} (h : p.Sound F) (hmid : p.tier = .intermediate) :
    ¬p.Rounds F ↔ p.Ahead F 0 p.steps := by
  rw [h.rounds_iff hmid, Nat.not_lt]
  exact Iff.rfl

/-- The leaves after a visit lie under other root entries, until the plan has gone around. -/
theorem Sound.slot_ne_of_visit {p : Plan} (h : p.Sound F) (hmid : p.tier = .intermediate)
    {step remaining stop : Nat} (hend : step + remaining = p.steps) (hstep : step < p.steps)
    (hround : p.Ahead F step stop) {j : Nat}
    (hge : step + F.stepsInSlot (p.leafVirt step) remaining ≤ j) (hlt : j < stop) (hj : j < p.steps) :
    p.slot F j ≠ p.slot F step := by
  have hpos := F.entries_pos
  rw [h.stepsInSlot_eq hmid hstep] at hge
  unfold Ahead at hround
  have hsplit := Nat.div_add_mod (p.firstBlock F + step) F.entries
  have hmod := Nat.mod_lt (p.firstBlock F + step) hpos
  refine h.slot_ne hmid hstep hj ?_ (Nat.div_lt_of_lt_mul ?_)
  · rw [Nat.lt_iff_add_one_le, Nat.le_div_iff_mul_le hpos, Nat.add_mul, Nat.one_mul, Nat.mul_comm]
    omega
  · rw [Nat.mul_comm]
    omega

end Plan

namespace Builder

variable {root : FrameId} {p : Plan}

/-- A visit that succeeds is followed by the others. -/
theorem writeSlots_of_ok {w w' : Worksite F n} (hp : p.Sound F) {step remaining : Nat}
    (hstep : step < p.steps) (hpos : 0 < remaining)
    (h : writeSlot root p (p.leafVirt step) step (F.stepsInSlot (p.leafVirt step) remaining) w =
      .ok () w') :
    writeSlots root p step remaining w =
      writeSlots root p (step + F.stepsInSlot (p.leafVirt step) remaining)
        (remaining - F.stepsInSlot (p.leafVirt step) remaining) w' := by
  rw [writeSlots, dif_neg (Nat.ne_of_gt hpos), hp.virtAt_eq_ok hstep]
  exact bind_ok h

/-- A visit that stops is the last. -/
theorem writeSlots_of_error {w w' : Worksite F n} (hp : p.Sound F) {step remaining : Nat}
    (hstep : step < p.steps) (hpos : 0 < remaining) {stop : Stop MapError}
    (h : writeSlot root p (p.leafVirt step) step (F.stepsInSlot (p.leafVirt step) remaining) w =
      .error stop w') : writeSlots root p step remaining w = .error stop w' := by
  rw [writeSlots, dif_neg (Nat.ne_of_gt hpos), hp.virtAt_eq_ok hstep]
  exact bind_error h

/-- A visit does not go past a leaf that starts a child table. -/
theorem visit_le {p : Plan} (hp : p.Sound F) (hmid : p.tier = .intermediate)
    {step remaining stop : Nat} (hend : step + remaining = p.steps) (hlt : step < stop)
    (hstop : stop ≤ p.steps)
    (hbound : stop = p.steps ∨ (p.firstBlock F + stop) % F.entries = 0) :
    step + F.stepsInSlot (p.leafVirt step) remaining ≤ stop := by
  rw [hp.stepsInSlot_eq hmid (Nat.lt_of_lt_of_le hlt hstop)]
  rcases hbound with rfl | hzero
  · omega
  · have hsplit := Nat.div_add_mod (p.firstBlock F + step) F.entries
    have hsplit' := Nat.div_add_mod (p.firstBlock F + stop) F.entries
    rw [hzero, Nat.add_zero] at hsplit'
    -- The child table of a leaf before `stop` comes before the one that starts there.
    have hnext : (p.firstBlock F + step) / F.entries < (p.firstBlock F + stop) / F.entries := by
      refine Nat.lt_of_mul_lt_mul_left (a := F.entries) ?_
      omega
    have hmul := Nat.mul_le_mul_left F.entries hnext
    rw [Nat.mul_succ] at hmul
    omega

end Builder

/-- What planting children for the leaves from number `step` up to `stop` of a plan writes: entries of
the root for these leaves, and leaves at their places in new frames. The first new frame is that of the
first visit, and holds the leaves of that visit only. -/
structure Tables.Plants (t : Tables F n) (root : FrameId) (p : Plan) (step stop : Nat)
    (es : List Edit) : Prop where
  /-- nothing is replaced -/
  accepted : t.AcceptsAll es
  /-- a write is to the root, or to a new frame -/
  write_of_mem : ∀ f i raw, .write f i raw ∈ es → ∃ j, step ≤ j ∧ j < stop ∧
    ((f = root ∧ i = p.slot F j) ∨
      (t.used ≤ f ∧ i = p.place F j ∧ (f = t.used → p.slot F j = p.slot F step)))
  /-- the first visit writes a pointer at the first new frame -/
  pointer_mem : step < stop →
    .write root (p.slot F step) (F.pointerWord (t.frameAddress t.used)) ∈ es
  /-- the first new frame is in use afterwards -/
  used_lt : step < stop → t.used < (t.after es).used

/-- Planting a child for a visit, and then children for the leaves that are left. -/
theorem Tables.Plants.cons {t : Tables F n} (ht : t.Regular) {root : FrameId} {p : Plan}
    {step count stop : Nat} (hcount : 0 < count) (hle : step + count ≤ stop)
    (hsame : ∀ j, step ≤ j → j < step + count → p.slot F j = p.slot F step)
    (haccepts : t.AcceptsAll (t.plantEdits root (p.slot F step) p step count)) {es : List Edit}
    (h : (t.after (t.plantEdits root (p.slot F step) p step count)).Plants root p (step + count)
      stop es) :
    t.Plants root p step stop (t.plantEdits root (p.slot F step) p step count ++ es) where
  accepted := acceptsAll_append.mpr ⟨haccepts, h.accepted⟩
  write_of_mem := by
    intro f i raw hmem
    rcases List.mem_append.mp hmem with hmem | hmem
    · rcases write_of_mem_plantEdits hmem with ⟨hf, hi⟩ | ⟨j, hge, hj, hf, hi, -⟩
      · exact ⟨step, Nat.le_refl _, by omega, .inl ⟨hf, hi⟩⟩
      · exact ⟨j, hge, by omega, .inr ⟨Nat.le_of_eq hf.symm, hi, fun _ => hsame j hge hj⟩⟩
    · -- The frames of the later visits come after that of the first one.
      obtain ⟨j, hge, hj, hwhere⟩ := h.write_of_mem f i raw hmem
      rw [used_after_plantEdits] at hwhere
      refine ⟨j, by omega, hj, ?_⟩
      rcases hwhere with hr | ⟨hf, hi, -⟩
      · exact .inl hr
      · exact .inr ⟨Nat.le_of_succ_le hf, hi, fun he => absurd he (Nat.ne_of_gt hf)⟩
  pointer_mem := fun _ => List.mem_append_left _
    (List.mem_cons_of_mem _ (List.mem_append_right _ List.mem_cons_self))
  used_lt := by
    intro _
    have hused := used_after_plantEdits t root (p.slot F step) p step count
    have hmore := (h.accepted.extends (haccepts.regular ht)).used_le
    rw [after_append]
    omega

namespace Builder

variable {root : FrameId} {p : Plan}

/-- Children are planted for the leaves from number `step` up to `stop`, when their root entries are
empty, and the plan does not go around the root in between. -/
theorem writeSlots_plant {w : Worksite F n} (hw : w.tables.Regular) (hroot : root < w.tables.used)
    (hbase : w.tables.base.toNat % pageSize = 0) (hp : p.Sound F) (hmid : p.tier = .intermediate)
    {step remaining stop : Nat} (hend : step + remaining = p.steps) (hle : step ≤ stop)
    (hstop : stop ≤ p.steps)
    (hbound : step < stop → stop = p.steps ∨ (p.firstBlock F + stop) % F.entries = 0)
    (hround : p.Ahead F step stop)
    (hempty : ∀ j, step ≤ j → j < stop → w.tables.entryAt root (p.slot F j) = 0)
    (hroom : w.tables.used + (F.visits p.leafVirt step remaining).length ≤ n) :
    ∃ es, w.tables.Plants root p step stop es ∧ writeSlots root p step remaining w =
      writeSlots root p stop (p.steps - stop) (w.perform es) := by
  -- The induction is on the leaves that are left; the entries of the later visits stay empty
  -- because no entry is visited twice before the plan has gone around.
  induction remaining using Nat.strongRecOn generalizing step w with
  | ind remaining ih =>
  rcases Nat.eq_or_lt_of_le hle with rfl | hlt
  · refine ⟨[], ⟨trivial, ?_, fun h => absurd h (Nat.lt_irrefl _),
      fun h => absurd h (Nat.lt_irrefl _)⟩, ?_⟩
    · intro f i raw hmem
      cases hmem
    · rw [w.perform_nil, ← hend, Nat.add_sub_cancel_left]
  have hstep : step < p.steps := by omega
  have hpos : 0 < remaining := by omega
  have hvisit := F.stepsInSlot_pos (p.leafVirt step) remaining hpos
  have hinSlot := F.stepsInSlot_le (p.leafVirt step) remaining
  have hsame := hp.slot_eq_of_visit hmid (Nat.le_of_eq hend)
  have hlater := fun j => hp.slot_ne_of_visit hmid hend hstep hround (j := j)
  have hvisitLe := visit_le hp hmid hend hlt hstop (hbound hlt)
  rw [Format.visits_of_pos hpos, List.length_cons] at hroom
  have hzero := hempty step (Nat.le_refl _) hlt
  have hu : w.tables.used < n := by omega
  have hrn := Nat.lt_of_lt_of_le hroot hw.used_le
  have hrun := writeSlots_of_ok hp hstep hpos
    (writeSlot_plant hrn hbase hu hp hmid (by omega) hzero)
  generalize F.stepsInSlot (p.leafVirt step) remaining = inSlot at *
  have haccepts := Tables.acceptsAll_plantEdits hw hu hroot hp (by omega) (p.slot_lt F step) hsame
    hzero
  have hused := Tables.used_after_plantEdits w.tables root (p.slot F step) p step inSlot
  have hreg := haccepts.regular hw
  -- The entries of the later visits are still empty.
  have hempty' : ∀ j, step + inSlot ≤ j → j < stop → (w.tables.after (w.tables.plantEdits root
      (p.slot F step) p step inSlot)).entryAt root (p.slot F j) = 0 := by
    intro j hge hj
    refine Classical.byContradiction fun hne => ?_
    obtain ⟨raw, hmem⟩ := haccepts.mem_of_filled hw (hempty j (by omega) hj) hne
    rcases Tables.write_of_mem_plantEdits hmem with ⟨-, hs⟩ | ⟨k, -, -, hf, -⟩
    · exact hlater j hge hj (by omega) hs
    · exact Nat.ne_of_lt hroot hf
  obtain ⟨es, hplants, hrest⟩ := ih (remaining - inSlot) (by omega)
    (w := w.perform (w.tables.plantEdits root (p.slot F step) p step inSlot)) hreg
    (by rw [Worksite.tables_perform, hused]; exact Nat.lt_succ_of_lt hroot)
    (by rw [Worksite.tables_perform, Tables.base_after, hbase])
    (show step + inSlot + (remaining - inSlot) = p.steps by omega) hvisitLe
    (fun _ => hbound hlt) (hround.mono (Nat.le_add_right _ _)) hempty'
    (by rw [Worksite.tables_perform, hused]; omega)
  rw [Worksite.tables_perform] at hplants
  refine ⟨w.tables.plantEdits root (p.slot F step) p step inSlot ++ es,
    hplants.cons hw hvisit hvisitLe hsame haccepts, ?_⟩
  rw [hrun, hrest, Worksite.perform_append]

/-- The whole of a plan that does not go around the root is planted in empty root entries. -/
theorem apply_plant {w : Worksite F n} (hw : w.tables.Regular) (hroot : root < w.tables.used)
    (hbase : w.tables.base.toNat % pageSize = 0) (hp : p.Sound F) (hmid : p.tier = .intermediate)
    (hround : ¬p.Rounds F) (hempty : ∀ j, j < p.steps → w.tables.entryAt root (p.slot F j) = 0)
    (hroom : w.tables.used + (F.visits p.leafVirt 0 p.steps).length ≤ n) :
    ∃ es, w.tables.AcceptsAll es ∧ apply root p w = .ok () (w.perform es) := by
  rw [hp.not_rounds_iff hmid] at hround
  obtain ⟨es, hplants, hrun⟩ := writeSlots_plant hw hroot hbase hp hmid (Nat.zero_add p.steps)
    (Nat.zero_le _) (Nat.le_refl _) (fun _ => .inl rfl) hround (fun j _ => hempty j) hroom
  refine ⟨es, hplants.accepted, ?_⟩
  unfold apply
  rw [hmid]
  dsimp only
  rw [hrun, Nat.sub_self, writeSlots, dif_pos rfl]
  rfl

/-- A plan is refused for an overlap when there is a leaf in one of its root entries, and the others
are empty. -/
theorem apply_overlap {w : Worksite F n} (hw : w.tables.Regular) (hroot : root < w.tables.used)
    (hbase : w.tables.base.toNat % pageSize = 0) (hp : p.Sound F) (hmid : p.tier = .intermediate)
    (hentry : ∀ j, j < p.steps → w.tables.entryAt root (p.slot F j) = 0 ∨
      F.IsLeaf (w.tables.entryAt root (p.slot F j)) 0)
    (hroom : w.tables.used + (F.visits p.leafVirt 0 p.steps).length ≤ n)
    (hleaf : ∃ j, j < p.steps ∧ w.tables.entryAt root (p.slot F j) ≠ 0) :
    ∃ va w', apply root p w = .error (.refused (.overlap va)) w' := by
  have hpos := F.entries_pos
  -- The first leaf of the plan that lies under a leaf of the root.
  generalize hfirst : Nat.find hleaf = k
  obtain ⟨hk, hne⟩ : k < p.steps ∧ w.tables.entryAt root (p.slot F k) ≠ 0 := by
    rw [← hfirst]
    exact Nat.find_spec hleaf
  have hbefore : ∀ j, j < k → w.tables.entryAt root (p.slot F j) = 0 := by
    intro j hj
    have hnot := Nat.find_min hleaf (hfirst ▸ hj)
    exact Classical.byContradiction fun hno => hnot ⟨by omega, hno⟩
  -- It starts a child table: the leaf before it lies under another entry.
  have hbound : 0 < k → (p.firstBlock F + k) % F.entries = 0 := by
    intro hk0
    refine Classical.byContradiction fun hmod => hne ?_
    rw [← hp.slot_pred hmid hk hk0 hmod]
    exact hbefore (k - 1) (by omega)
  -- It is not reached by going around the root: the first leaf would lie under the same entry.
  have hround : p.firstBlock F + k ≤ (p.firstBlock F / F.entries + F.entries) * F.entries := by
    refine Nat.le_of_not_lt fun hfar => hne ?_
    have hk0 : 0 < k := by
      have hdiv := Nat.div_add_mod' (p.firstBlock F) F.entries
      have hmod := Nat.mod_lt (p.firstBlock F) hpos
      have hentries : F.entries ≤ F.entries * F.entries := Nat.le_mul_of_pos_left _ hpos
      rw [Nat.add_mul] at hfar
      omega
    rw [hp.slot_of_round hmid hk (Nat.le_of_lt hfar)]
    exact hbefore 0 hk0
  obtain ⟨es, hplants, hrun⟩ := writeSlots_plant hw hroot hbase hp hmid (Nat.zero_add p.steps)
    (Nat.zero_le k) (Nat.le_of_lt hk) (fun hk0 => .inr (hbound hk0)) hround
    (fun j _ => hbefore j) hroom
  have hext := hplants.accepted.extends hw
  obtain ⟨base, attrs, hl⟩ : F.IsLeaf ((w.tables.after es).entryAt root (p.slot F k)) 0 := by
    rw [hext.entry_eq root _ hne]
    exact (hentry k hk).resolve_left hne
  have hvisit := writeSlot_eq (p := p) (Nat.lt_of_lt_of_le hroot hw.used_le) (p.leafVirt k) k
    (F.stepsInSlot (p.leafVirt k) (p.steps - k)) (w.perform es)
  rw [Worksite.tables_perform, p.index_leafVirt, hl] at hvisit
  refine ⟨p.leafVirt k, w.perform es, ?_⟩
  unfold apply
  rw [hmid]
  dsimp only
  rw [hrun]
  exact writeSlots_of_error hp hk (by omega) hvisit

/-! ## Going around the root -/

/-- A plan that goes around an empty root plants children until it is back at the entry where it
started, and visits that entry once more for all the leaves that are left. -/
theorem apply_turn {w : Worksite F n} (hw : w.tables.Regular) (hroot : root < w.tables.used)
    (hbase : w.tables.base.toNat % pageSize = 0) (hp : p.Sound F) (hmid : p.tier = .intermediate)
    (hround : p.Rounds F) (hempty : ∀ j, j < p.steps → w.tables.entryAt root (p.slot F j) = 0)
    (hroom : w.tables.used + (F.visits p.leafVirt 0 p.steps).length ≤ n) :
    ∃ stop es, 0 < stop ∧ stop < p.steps ∧ w.tables.Plants root p 0 stop es ∧
      (∀ j, stop ≤ j → j < p.steps → p.slot F j = p.slot F 0) ∧
      F.stepsInSlot (p.leafVirt stop) (p.steps - stop) = p.steps - stop ∧
      apply root p w = writeSlots root p stop (p.steps - stop) (w.perform es) := by
  have hpos := F.entries_pos
  have hsplit := Nat.div_add_mod' (p.firstBlock F) F.entries
  have hmod := Nat.mod_lt (p.firstBlock F) hpos
  have hsquare : F.entries ≤ F.entries * F.entries := Nat.le_mul_of_pos_left _ hpos
  rw [hp.rounds_iff hmid] at hround
  -- The leaf that starts the second visit of the first entry.
  obtain ⟨stop, hstop⟩ : ∃ stop, p.firstBlock F + stop =
      (p.firstBlock F / F.entries + F.entries) * F.entries := by
    refine ⟨_, Nat.add_sub_of_le ?_⟩
    rw [Nat.add_mul]
    omega
  have hlt : stop < p.steps := by omega
  have hlater : ∀ j, stop ≤ j → j < p.steps → p.slot F j = p.slot F 0 :=
    fun j hge hj => hp.slot_of_round hmid hj (by omega)
  have hstart : (p.firstBlock F + stop) % F.entries = 0 := by rw [hstop, Nat.mul_mod_left]
  obtain ⟨es, hplants, hrun⟩ := writeSlots_plant hw hroot hbase hp hmid (Nat.zero_add p.steps)
    (Nat.zero_le stop) (Nat.le_of_lt hlt) (fun _ => .inr hstart) (Nat.le_of_eq hstop)
    (fun j _ hj => hempty j (by omega)) hroom
  have hsteps := hp.steps_le hmid
  rw [Nat.add_mul] at hstop
  refine ⟨stop, es, by omega, hlt, hplants, hlater, ?_, ?_⟩
  · rw [hp.stepsInSlot_eq hmid hlt, hstart]
    omega
  · unfold apply
    rw [hmid]
    exact hrun

/-- A plan that goes around an empty root is performed when the pointer at its first child can be read
back. -/
theorem apply_around {w : Worksite F n} (hw : w.tables.Regular) (hroot : root < w.tables.used)
    (hbase : w.tables.base.toNat % pageSize = 0) (hp : p.Sound F) (hmid : p.tier = .intermediate)
    (hround : p.Rounds F) (hempty : ∀ j, j < p.steps → w.tables.entryAt root (p.slot F j) = 0)
    (hroom : w.tables.used + (F.visits p.leafVirt 0 p.steps).length ≤ n)
    (hlimit : w.tables.base.toNat + pageSize * w.tables.used < F.addressLimit) :
    ∃ es, w.tables.AcceptsAll es ∧ apply root p w = .ok () (w.perform es) := by
  obtain ⟨stop, es, hpos, hlt, hplants, hlater, hall, hrun⟩ :=
    apply_turn hw hroot hbase hp hmid hround hempty hroom
  have hreg := hplants.accepted.regular hw
  have hrootN := Nat.lt_of_lt_of_le hroot hw.used_le
  have hpointer := hplants.accepted.entryAt_of_mem hw (hplants.pointer_mem hpos)
    (Format.stored_pointerWord_ne_zero (Tables.frameAddress_aligned hbase _))
  have hused := hplants.used_lt hpos
  have hchild : (w.tables.after es).childAt root (p.slot F stop) = some w.tables.used := by
    rw [hlater stop (Nat.le_refl _) hlt]
    refine Tables.childAt_of_pointer (by rw [Tables.base_after, hbase]) hused
      (by rw [Tables.base_after]; exact hlimit) ?_
    rw [hpointer, Tables.frameAddress_after]
  have hleaves : (w.tables.after es).AcceptsAll
      (p.leafEdits F w.tables.used stop (p.steps - stop)) := by
    refine Tables.acceptsAll_leafEdits hreg hused ?_ fun j hge hj => .inl ?_
    · intro i j hi hij hj hplace
      refine Nat.ne_of_lt hij (hp.leaf_inj (by omega) (by omega) ?_ hplace)
      rw [hlater i hi (by omega), hlater j (by omega) (by omega)]
    · -- The first visit has filled other places of the child.
      refine Classical.byContradiction fun hne => ?_
      obtain ⟨raw, hmem⟩ := hplants.accepted.mem_of_filled hw
        (hw.free_zero _ (Nat.le_refl _) _) hne
      obtain ⟨k, -, hk, ⟨hf, -⟩ | ⟨-, hi, hslot⟩⟩ := hplants.write_of_mem _ _ raw hmem
      · exact Nat.ne_of_gt hroot hf
      · have hsame := hp.leaf_inj (by omega) (by omega)
          ((hlater j hge (by omega)).trans (hslot rfl).symm) hi
        omega
  have hfill := writeSlot_fill (w := w.perform es) hrootN hreg.used_le hp hmid
    (show stop + (p.steps - stop) ≤ p.steps by omega) hchild
  refine ⟨es ++ p.leafEdits F w.tables.used stop (p.steps - stop),
    Tables.acceptsAll_append.mpr ⟨hplants.accepted, hleaves⟩, ?_⟩
  rw [hrun, writeSlots_of_ok hp hlt (by omega) (hall.symm ▸ hfill), hall, Nat.sub_self, writeSlots,
    dif_pos rfl, Worksite.perform_append]
  rfl

/-- A plan that goes around an empty root is not performed to the end when the pointer at its first
child cannot be read back: the format does not hold the address, and what it holds instead is the
address of no frame. -/
theorem apply_around_foreign {w : Worksite F n} (hw : w.tables.Regular)
    (hroot : root < w.tables.used) (hbase : w.tables.base.toNat % pageSize = 0) (hp : p.Sound F)
    (hmid : p.tier = .intermediate) (hround : p.Rounds F)
    (hempty : ∀ j, j < p.steps → w.tables.entryAt root (p.slot F j) = 0)
    (hroom : w.tables.used + (F.visits p.leafVirt 0 p.steps).length ≤ n)
    (hsize : pageSize * n ≤ F.addressLimit)
    (hlimit : F.addressLimit ≤ w.tables.base.toNat + pageSize * w.tables.used) :
    ∃ va w', apply root p w = .error (.refused (.foreignTable va)) w' := by
  obtain ⟨stop, es, hpos, hlt, hplants, hlater, hall, hrun⟩ :=
    apply_turn hw hroot hbase hp hmid hround hempty hroom
  have hreg := hplants.accepted.regular hw
  have haligned := Tables.frameAddress_aligned hbase w.tables.used
  have hpointer := hplants.accepted.entryAt_of_mem hw (hplants.pointer_mem hpos)
    (Format.stored_pointerWord_ne_zero haligned)
  have hdecode := Format.decode_pointerWord (show 0 + 1 < F.levels from F.two_le_levels) haligned
  have hforeign : (w.tables.after es).frameAt
      (.ofNat ((w.tables.frameAddress w.tables.used).toNat % F.addressLimit)) = none := by
    refine Option.eq_none_iff_forall_ne_some.mpr fun f hf => ?_
    obtain ⟨hfu, hfa⟩ := Tables.toNat_of_frameAt (by rw [Tables.base_after, hbase]) hf
    have hmod := Nat.mod_lt (w.tables.frameAddress w.tables.used).toNat F.addressLimit_pos
    rw [Address.toNat_ofNat_of_lt (Nat.lt_of_lt_of_le hmod F.addressLimit_le), Tables.base_after,
      Tables.toNat_frameAddress_mod F.addressLimit_dvd] at hfa
    have hmod' := Nat.mod_lt (w.tables.base.toNat + pageSize * w.tables.used) F.addressLimit_pos
    have hlast := Nat.mul_lt_mul_of_pos_left (Nat.lt_of_lt_of_le (hplants.used_lt hpos) hreg.used_le)
      (show 0 < pageSize by decide)
    -- The frame would lie below the child, by less than the format can hold.
    have hzero : pageSize * w.tables.used - pageSize * f = 0 := by
      refine add_left_cancel_mod (a := w.tables.base.toNat + pageSize * f)
        (m := F.addressLimit) ?_ (by omega) F.addressLimit_pos
      rw [Nat.add_zero, Nat.mod_eq_of_lt (show w.tables.base.toNat + pageSize * f < _ by omega),
        ← hfa]
      congr 1
      omega
    omega
  have hvisit := writeSlot_eq (p := p) (Nat.lt_of_lt_of_le hroot hw.used_le) (p.leafVirt stop) stop
    (p.steps - stop) (w.perform es)
  rw [Worksite.tables_perform, p.index_leafVirt,
    hlater stop (Nat.le_refl _) hlt, hpointer, hdecode] at hvisit
  dsimp only at hvisit
  rw [hforeign] at hvisit
  exact ⟨_, _, hrun.trans (writeSlots_of_error hp hlt (by omega) (hall.symm ▸ hvisit))⟩

end Builder

end BootLoader.Paging
