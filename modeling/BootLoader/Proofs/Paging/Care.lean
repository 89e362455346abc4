import BootLoader.Proofs.Paging.Account
import BootLoader.Proofs.Paging.Planting

/-!
# Construction with care

`Builder.Careful` says of a construction that it replaces no entry, and that no entry has been written
when it stops. Plans of the top tier are performed whatever their root holds, so they are performed
with care exactly when no plan that is there clashes with them (`Holds.replacesNone_iff`). A plan of
the intermediate tier stops at a leaf, and when it comes back to a child that cannot be addressed
(`Builder.careful_apply_iff`).
-/

namespace BootLoader.Paging

variable {F : Format} {n : Nat}

/-! ## Roots that hold plans -/

/-- Whether two plans, the first of them of the top tier, want one root entry for different
purposes: a table, or a leaf of the second that is not that of the first. -/
def Plan.Clashes (F : Format) (a b : Plan) : Prop :=
  ∃ i < a.steps, ∃ j < b.steps, a.slot F i = b.slot F j ∧
    (b.tier = .top → F.width.stored (a.leafRaw F i) ≠ F.width.stored (b.leafRaw F j))

instance (a b : Plan) : Decidable (a.Clashes F b) :=
  inferInstanceAs (Decidable (∃ i < a.steps, ∃ j < b.steps, _))

/-- A plan of the top tier does not go around the root. -/
theorem Plan.Sound.not_rounds {p : Plan} (h : p.Sound F) (htop : p.tier = .top) : ¬p.Rounds F := by
  have hspan := h.span_le
  have hvirt := h.virt_aligned
  rw [h.granule_eq, htop] at hvirt
  unfold Rounds
  rw [show p.virt.toNat % F.levelSize 0 = 0 from hvirt, Nat.zero_add]
  exact Nat.not_lt_of_le hspan

namespace Tables

/-- The root entries that are in use are those of the leaves of the plans `ps`, of the top tier. -/
structure Holds (t : Tables F n) (root : FrameId) (ps : List Plan) : Prop where
  /-- the plans have leaves in the root -/
  sound : ∀ p ∈ ps, p.Sound F ∧ p.tier = .top
  /-- the leaves are there -/
  leaf_eq : ∀ p ∈ ps, ∀ j, j < p.steps →
    t.entryAt root (p.slot F j) = F.width.stored (p.leafRaw F j)
  /-- nothing else is -/
  mem_of_ne : ∀ i, t.entryAt root i ≠ 0 → ∃ p ∈ ps, ∃ j, j < p.steps ∧ i = p.slot F j

/-- An empty root holds no plans. -/
theorem Holds.nil {t : Tables F n} {root : FrameId} (h : ∀ i, t.entryAt root i = 0) :
    t.Holds root [] where
  sound := fun _ hp => absurd hp List.not_mem_nil
  leaf_eq := fun _ hp => absurd hp List.not_mem_nil
  mem_of_ne := fun i hne => absurd (h i) hne

/-- A root that holds plans of the top tier has no children. -/
theorem Holds.entry {t : Tables F n} {root : FrameId} {ps : List Plan} (h : t.Holds root ps)
    (i : Nat) : t.entryAt root i = 0 ∨ F.IsLeaf (t.entryAt root i) 0 := by
  by_cases hz : t.entryAt root i = 0
  · exact .inl hz
  · obtain ⟨p, hp, j, hj, rfl⟩ := h.mem_of_ne i hz
    obtain ⟨hsound, htop⟩ := h.sound p hp
    have hdecode := hsound.decode_leafRaw hj
    rw [htop, ← h.leaf_eq p hp j hj] at hdecode
    exact .inr ⟨_, _, hdecode⟩

section Top

variable {t : Tables F n} {root : FrameId} {ps : List Plan} {p : Plan}

/-- A plan of the top tier replaces nothing in a root exactly when no plan that the root holds clashes
with it. -/
theorem Holds.replacesNone_iff (hreg : t.Regular) (hroot : root < t.used) (h : t.Holds root ps)
    (hp : p.Sound F) (htop : p.tier = .top) :
    t.ReplacesNone (p.leafEdits F root 0 p.steps) ↔ ∀ q ∈ ps, ¬q.Clashes F p := by
  have hplace := fun j => Plan.Sound.place_eq_slot (F := F) (p := p) htop j
  constructor
  · rintro hnone q hq ⟨i, hi, j, hj, hslot, hdiff⟩
    have haccepts := acceptsAll_iff.mpr ⟨reachesAll_leafEdits hroot p 0 p.steps, hnone⟩
    have hmem : Edit.write root (p.place F j) (p.leafRaw F j) ∈ p.leafEdits F root 0 p.steps :=
      Plan.write_mem_leafEdits (Nat.zero_le _) (by omega)
    -- The entry holds the first leaf before and the second leaf after.
    have hold := h.leaf_eq q hq i hi
    have hkept := (haccepts.extends hreg).entry_eq root (q.slot F i)
      (hold ▸ (h.sound q hq).1.stored_leafRaw_ne_zero hi)
    have hnew := haccepts.entryAt_of_mem hreg hmem (hp.stored_leafRaw_ne_zero hj)
    rw [hplace, ← hslot, hkept, hold] at hnew
    exact hdiff htop hnew
  · intro hclear
    -- An entry in use is that of a plan in the root, and so is the leaf that is written there.
    refine (acceptsAll_iff.mp (acceptsAll_leafEdits hreg hroot ?_ ?_)).2
    · intro i j _ hij hj hsame
      refine Nat.ne_of_lt hij (hp.leaf_inj (by omega) (by omega) ?_ hsame)
      rw [← hplace, ← hplace, hsame]
    · intro j _ hj
      rw [hplace]
      by_cases hz : t.entryAt root (p.slot F j) = 0
      · exact .inl hz
      · obtain ⟨q, hq, i, hi, hslot⟩ := h.mem_of_ne _ hz
        right
        refine Classical.byContradiction fun hne => ?_
        rw [hslot, h.leaf_eq q hq i hi] at hne
        exact hclear q hq ⟨i, hi, j, by omega, hslot.symm, fun _ => hne⟩

/-- A root holds a plan of the top tier after its leaves have been written. -/
theorem Holds.cons (hreg : t.Regular) (hroot : root < t.used) (h : t.Holds root ps)
    (hp : p.Sound F) (htop : p.tier = .top)
    (hnone : t.ReplacesNone (p.leafEdits F root 0 p.steps)) :
    (t.after (p.leafEdits F root 0 p.steps)).Holds root (p :: ps) := by
  have hplace := fun j => Plan.Sound.place_eq_slot (F := F) (p := p) htop j
  have haccepts := acceptsAll_iff.mpr ⟨reachesAll_leafEdits hroot p 0 p.steps, hnone⟩
  have hext := haccepts.extends hreg
  refine ⟨List.forall_mem_cons.mpr ⟨⟨hp, htop⟩, h.sound⟩, List.forall_mem_cons.mpr ⟨?_, ?_⟩, ?_⟩
  · intro j hj
    have hmem : Edit.write root (p.place F j) (p.leafRaw F j) ∈ p.leafEdits F root 0 p.steps :=
      Plan.write_mem_leafEdits (Nat.zero_le _) (by omega)
    rw [← hplace]
    exact haccepts.entryAt_of_mem hreg hmem (hp.stored_leafRaw_ne_zero hj)
  · intro q hq j hj
    have hold := h.leaf_eq q hq j hj
    rw [hext.entry_eq _ _ (hold ▸ (h.sound q hq).1.stored_leafRaw_ne_zero hj), hold]
  · intro i hne
    -- An entry in use was in use before, or is one of the new leaves.
    by_cases hz : t.entryAt root i = 0
    · obtain ⟨raw, hmem⟩ := haccepts.mem_of_filled hreg hz hne
      obtain ⟨j, -, hj, he⟩ := Plan.mem_leafEdits.mp hmem
      injection he with _ hi
      exact ⟨p, List.mem_cons_self, j, by omega, hi.trans (hplace j)⟩
    · obtain ⟨q, hq, hslot⟩ := h.mem_of_ne i hz
      exact ⟨q, List.mem_cons_of_mem _ hq, hslot⟩

/-- What is written to one root leaves another one as it is. -/
theorem Holds.of_other (hreg : t.Regular) (h : t.Holds root ps) {other : FrameId}
    (hne : root ≠ other) {es : List Edit} (haccepts : t.AcceptsAll es)
    (hes : ∀ f i raw, .write f i raw ∈ es → f = other) : (t.after es).Holds root ps := by
  have hsame : ∀ i, (t.after es).entryAt root i = t.entryAt root i := by
    intro i
    refine Classical.byContradiction fun hdiff => ?_
    obtain ⟨raw, hmem⟩ := haccepts.mem_of_entryAt_ne hreg hdiff
    exact hne (hes root i raw hmem)
  refine ⟨h.sound, fun p hp j hj => (hsame _).trans (h.leaf_eq p hp j hj), fun i hi => ?_⟩
  rw [hsame] at hi
  exact h.mem_of_ne i hi

end Top

end Tables

/-! ## Construction with care -/

namespace Builder

variable {ε δ α β : Type}

/-- Whether a construction replaces no entry of the storage, and stops only while no entry has been
written. -/
structure Careful (b : Builder F n ε α) (w : Worksite F n) : Prop where
  /-- what is done is in the account, and replaces nothing -/
  account : ∃ es, (siteAfter b w).tables = w.tables.after es ∧
    (siteAfter b w).edits = w.edits ++ es.toArray ∧ w.tables.ReplacesNone es
  /-- when the construction stops, frames have been handed out and nothing else -/
  unwritten : ∀ stop w', b w = .error stop w' → ∀ e ∈ w'.edits, e = .allocate

/-- Whether no entry has been written when a construction stops. -/
def stopsUnwritten (b : Builder F n ε α) (w : Worksite F n) : Bool :=
  match b w with
  | .ok _ _ => true
  | .error _ w' => w'.edits.all (· == .allocate)

/-- A construction that stops after writing an entry is not careful. -/
theorem not_careful_of_stop {b : Builder F n ε α} {w : Worksite F n}
    (h : stopsUnwritten b w = false) : ¬Careful b w := by
  intro hcareful
  unfold stopsUnwritten at h
  split at h
  · cases h
  · rename_i stop w' herr
    have hall : w'.edits.all (· == .allocate) = true :=
      Array.all_eq_true_iff_forall_mem.mpr fun e he =>
        beq_iff_eq.mpr (hcareful.unwritten stop w' herr e he)
    rw [hall] at h
    cases h

/-- A construction whose account, from its start, replaces an entry is not careful. -/
theorem not_careful_of_replaces {b : Builder F n ε α} {t : Tables F n}
    (h : ¬t.ReplacesNone (siteAfter b { tables := t }).edits.toList) :
    ¬Careful b { tables := t } := by
  intro hcareful
  obtain ⟨es, -, hedits, hnone⟩ := hcareful.account
  rw [hedits, Array.empty_append] at h
  exact h hnone

/-- A construction that succeeds is careful when its account replaces nothing. -/
theorem careful_iff_of_ok {b : Builder F n ε α} {w : Worksite F n} {a : α} {es : List Edit}
    {log : Array Journal.Record} (h : b w = .ok a { w.perform es with log }) :
    Careful b w ↔ w.tables.ReplacesNone es := by
  have hsite := siteAfter_ok h
  constructor
  · rintro ⟨⟨es', -, hedits, hnone⟩, -⟩
    rw [hsite] at hedits
    have hes : es = es' := List.toArray_inj ((Array.append_right_inj _).mp hedits)
    rwa [hes]
  · intro hnone
    refine ⟨⟨es, by rw [hsite]; rfl, by rw [hsite]; rfl, hnone⟩, fun stop w' herr => ?_⟩
    rw [h] at herr
    cases herr

/-- A construction that has succeeded in a first part is careful when both parts are. -/
theorem careful_bind_iff {x : Builder F n ε α} {f : α → Builder F n ε β} {w : Worksite F n} {a : α}
    {es : List Edit} {log : Array Journal.Record} (hx : x w = .ok a { w.perform es with log })
    (hf : Accounts (f a) { w.perform es with log }) :
    Careful (x >>= f) w ↔
      w.tables.ReplacesNone es ∧ Careful (f a) { w.perform es with log } := by
  have hrun : (x >>= f) w = f a { w.perform es with log } := bind_ok hx
  have hsite : siteAfter (x >>= f) w = siteAfter (f a) { w.perform es with log } := by
    unfold siteAfter
    rw [hrun]
  obtain ⟨es', -, htables, hedits⟩ := hf
  -- The account of the whole is that of the first part, followed by that of the second.
  have hall : (siteAfter (f a) { w.perform es with log }).edits = w.edits ++ (es ++ es').toArray := by
    rw [hedits, ← List.append_toArray, ← Array.append_assoc]
    rfl
  constructor
  · rintro ⟨⟨total, -, htotal, hnone⟩, hunwritten⟩
    rw [hsite, hall] at htotal
    have hes : es ++ es' = total := List.toArray_inj ((Array.append_right_inj _).mp htotal)
    rw [← hes, Tables.replacesNone_append] at hnone
    exact ⟨hnone.1, ⟨es', htables, hedits, hnone.2⟩, fun stop w' h => hunwritten stop w' (hrun ▸ h)⟩
  · rintro ⟨hnone, ⟨rest, -, hrest, hnone'⟩, hunwritten⟩
    have hes : es' = rest := by
      rw [hedits] at hrest
      exact List.toArray_inj ((Array.append_right_inj _).mp hrest)
    refine ⟨⟨es ++ es', ?_, ?_, ?_⟩, fun stop w' h => hunwritten stop w' (hrun ▸ h)⟩
    · rw [hsite, htables, Tables.after_append]
      rfl
    · rw [hsite, hall]
    · exact Tables.replacesNone_append.mpr ⟨hnone, hes ▸ hnone'⟩

/-- Care is a matter of the storage, the account, and whether a construction stops. -/
theorem Careful.of_eq {b : Builder F n ε α} {c : Builder F n δ β} {w : Worksite F n}
    (h : Careful b w) (hsite : siteAfter c w = { siteAfter b w with log := (siteAfter c w).log })
    (herror : ∀ w', (∃ stop, c w = .error stop w') → ∃ stop, b w = .error stop w') :
    Careful c w := by
  refine ⟨?_, fun stop w' hc => ?_⟩
  · rw [hsite]
    exact h.account
  · obtain ⟨stop', hb⟩ := herror w' ⟨stop, hc⟩
    exact h.unwritten stop' w' hb

/-- Constructions that leave the same, but for the log, and stop together are careful together. -/
theorem careful_congr {b : Builder F n ε α} {c : Builder F n δ β} {w : Worksite F n}
    (hsite : siteAfter c w = { siteAfter b w with log := (siteAfter c w).log })
    (herror : ∀ w', (∃ stop, c w = .error stop w') ↔ ∃ stop, b w = .error stop w') :
    Careful c w ↔ Careful b w := by
  refine ⟨fun h => h.of_eq ?_ fun w' => (herror w').mpr,
    fun h => h.of_eq hsite fun w' => (herror w').mp⟩
  rw [hsite]

/-- The rest of a construction does not matter when it changes nothing but the log. -/
theorem careful_bind_silent {x : Builder F n ε α} {f : α → Builder F n ε β} {w : Worksite F n}
    (hf : ∀ a w', ∃ b log, f a w' = .ok b { w' with log }) : Careful (x >>= f) w ↔ Careful x w := by
  cases hx : x w with
  | ok a w' =>
    obtain ⟨b, log, hb⟩ := hf a w'
    have hrun : (x >>= f) w = .ok b { w' with log } := (bind_ok hx).trans hb
    refine careful_congr ?_ fun w'' => iff_of_false ?_ ?_
    · rw [siteAfter_ok hx, siteAfter_ok hrun]
    · rintro ⟨stop, herr⟩
      rw [hrun] at herr
      cases herr
    · rintro ⟨stop, herr⟩
      rw [hx] at herr
      cases herr
  | error stop w' =>
    have hrun : (x >>= f) w = .error stop w' := bind_error hx
    refine careful_congr ?_ fun w'' => ⟨?_, ?_⟩
    · rw [siteAfter_error hx, siteAfter_error hrun]
    · rintro ⟨stop', herr⟩
      rw [hrun] at herr
      cases herr
      exact ⟨stop, hx⟩
    · rintro ⟨stop', herr⟩
      rw [hx] at herr
      cases herr
      exact ⟨stop, hrun⟩

/-- Care does not depend on the terms in which causes are given. -/
theorem careful_mapCause {b : Builder F n ε α} {w : Worksite F n} (f : ε → δ) :
    Careful (mapCause f b) w ↔ Careful b w := by
  refine careful_congr ?_ fun w' => ⟨?_, ?_⟩
  · unfold siteAfter mapCause
    cases b w <;> rfl
  · rintro ⟨stop, herr⟩
    unfold mapCause at herr
    split at herr
    · cases herr
    · rename_i stop' w'' hb
      cases herr
      exact ⟨stop', hb⟩
  · rintro ⟨stop, hb⟩
    exact ⟨_, mapCause_error hb f⟩

/-- A construction that stops after an entry has been written is not careful. -/
theorem not_careful_of_error {b : Builder F n ε α} {w w' : Worksite F n} {stop : Stop ε}
    (h : b w = .error stop w') (haccounts : Accounts b w) {e : Edit} (he : e ∈ w.edits)
    (hwrite : e ≠ .allocate) : ¬Careful b w := by
  rintro ⟨-, hunwritten⟩
  obtain ⟨es, -, -, hedits⟩ := haccounts
  rw [siteAfter_error h] at hedits
  refine hwrite (hunwritten stop w' h e ?_)
  rw [hedits]
  exact Array.mem_append_left _ he

/-- The leaves of a plan of the top tier are written to the root, whatever it holds. -/
theorem apply_top {root : FrameId} {p : Plan} (hroot : root < n) (hp : p.Sound F)
    (htop : p.tier = .top) (w : Worksite F n) :
    apply root p w = .ok () (w.perform (p.leafEdits F root 0 p.steps)) := by
  have hlevel : p.tier.level = 0 := by rw [htop]; rfl
  have hrun := writeLeaves_ok hp hroot (show 0 + p.steps ≤ p.steps by omega) w
  unfold apply
  rw [htop]
  exact hlevel ▸ hrun

/-- Performing a plan in a root that holds plans of the top tier, and after something has been
written, is careful exactly when none of these clashes with it, and it does not come back to a child
that the format cannot address. -/
theorem careful_apply_iff {w : Worksite F n} (hw : w.tables.Regular) {root : FrameId}
    (hroot : root < w.tables.used) (hbase : w.tables.base.toNat % pageSize = 0)
    (hsize : pageSize * n ≤ F.addressLimit) {p : Plan} (hp : p.Sound F) {ps : List Plan}
    (hholds : w.tables.Holds root ps)
    (hroom : p.tier = .intermediate →
      w.tables.used + (F.visits p.leafVirt 0 p.steps).length ≤ n)
    {e : Edit} (he : e ∈ w.edits) (hwrite : e ≠ .allocate) :
    Careful (apply root p) w ↔ (∀ q ∈ ps, ¬q.Clashes F p) ∧
      ¬(p.Rounds F ∧ F.addressLimit ≤ w.tables.base.toNat + pageSize * w.tables.used) := by
  have haccounts := accounts_apply p hw hroot
  cases htier : p.tier with
  | top =>
    have hrun := apply_top (Nat.lt_of_lt_of_le hroot hw.used_le) hp htier w
    rw [careful_iff_of_ok hrun, hholds.replacesNone_iff hw hroot hp htier]
    exact (and_iff_left fun h => hp.not_rounds htier h.1).symm
  | intermediate =>
    have hroom := hroom htier
    by_cases hclear : ∀ q ∈ ps, ¬q.Clashes F p
    · -- The entries of the plan are empty.
      have hempty : ∀ j, j < p.steps → w.tables.entryAt root (p.slot F j) = 0 := by
        intro j hj
        refine Classical.byContradiction fun hne => ?_
        obtain ⟨q, hq, i, hi, hslot⟩ := hholds.mem_of_ne _ hne
        refine hclear q hq ⟨i, hi, j, hj, hslot.symm, fun htop => ?_⟩
        rw [htier] at htop
        cases htop
      rw [and_iff_right hclear]
      by_cases hround : p.Rounds F
      · rcases Nat.lt_or_ge (w.tables.base.toNat + pageSize * w.tables.used) F.addressLimit with
          hlt | hge
        · obtain ⟨es, haccepts, hrun⟩ := apply_around hw hroot hbase hp htier hround hempty hroom hlt
          rw [careful_iff_of_ok hrun]
          exact iff_of_true (Tables.acceptsAll_iff.mp haccepts).2 fun h => Nat.not_le_of_lt hlt h.2
        · obtain ⟨va, w', hrun⟩ :=
            apply_around_foreign hw hroot hbase hp htier hround hempty hroom hsize hge
          exact iff_of_false (not_careful_of_error hrun haccounts he hwrite) fun h => h ⟨hround, hge⟩
      · obtain ⟨es, haccepts, hrun⟩ := apply_plant hw hroot hbase hp htier hround hempty hroom
        rw [careful_iff_of_ok hrun]
        exact iff_of_true (Tables.acceptsAll_iff.mp haccepts).2 fun h => hround h.1
    · refine iff_of_false ?_ fun h => hclear h.1
      -- A plan that is in the way has a leaf in an entry that is to hold a table.
      have hentry := fun j (_ : j < p.steps) => hholds.entry (p.slot F j)
      have hleaf : ∃ j, j < p.steps ∧ w.tables.entryAt root (p.slot F j) ≠ 0 := by
        refine Classical.byContradiction fun hno => hclear ?_
        rintro q hq ⟨i, hi, j, hj, hslot, -⟩
        refine hno ⟨j, hj, ?_⟩
        rw [← hslot, hholds.leaf_eq q hq i hi]
        exact (hholds.sound q hq).1.stored_leafRaw_ne_zero hi
      obtain ⟨va, w', hrun⟩ := apply_overlap hw hroot hbase hp htier hentry hroom hleaf
      exact not_careful_of_error hrun haccounts he hwrite

end Builder

end BootLoader.Paging
