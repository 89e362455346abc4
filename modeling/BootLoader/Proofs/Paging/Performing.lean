import BootLoader.Proofs.Paging.Planning

/-!
# What performing a plan writes

`Tables.Performs t root p first last es` says that the changes `es` write the leaves from number
`first` up to `last` of a plan under `root`, and nothing else but pointers at new children. Leaves
are filled in where their table is there (`Forest.fill`), or in a new child (`Forest.plant`); both
keep the forest and leave the places of the leaves that follow (`Performs.hasPlace`). A plan that can be
performed is therefore performed to its end (`Builder.apply_ok`): there is no error exit that is
taken after a check has passed.
-/

namespace BootLoader.Paging

variable {F : Format} {n : Nat}

/-- The writes of the leaves number `first` to `first + count - 1` of a plan to the table in
`frame`. -/
def Plan.leafEdits (F : Format) (p : Plan) (frame : FrameId) (first count : Nat) : List Edit :=
  (List.range' first count).map fun j => .write frame (p.place F j) (p.leafRaw F j)

/-- The members of the writes of leaves. -/
theorem Plan.mem_leafEdits {p : Plan} {frame : FrameId} {first count : Nat} {e : Edit} :
    e ∈ p.leafEdits F frame first count ↔
      ∃ j, first ≤ j ∧ j < first + count ∧ e = .write frame (p.place F j) (p.leafRaw F j) := by
  unfold leafEdits
  simp only [List.mem_map, List.mem_range'_1, and_assoc, eq_comm]

/-- Each leaf is written. -/
theorem Plan.write_mem_leafEdits {p : Plan} {frame : FrameId} {first count j : Nat} (hge : first ≤ j)
    (hlt : j < first + count) :
    .write frame (p.place F j) (p.leafRaw F j) ∈ p.leafEdits F frame first count :=
  mem_leafEdits.mpr ⟨j, hge, hlt, rfl⟩

/-- Writing leaves hands out no frame. -/
theorem Plan.count_leafEdits (p : Plan) (frame : FrameId) (first count : Nat) :
    (p.leafEdits F frame first count).count .allocate = 0 := by
  refine List.count_eq_zero.mpr fun hmem => ?_
  obtain ⟨j, -, -, he⟩ := mem_leafEdits.mp hmem
  cases he

namespace Tables

/-- The changes that add a child for an empty root entry: a frame is handed out and filled with
leaves, and the root entry is made to point at it last. -/
def plantEdits (t : Tables F n) (root : FrameId) (slot : Nat) (p : Plan) (first count : Nat) :
    List Edit :=
  .allocate :: (p.leafEdits F t.used first count ++
    [.write root slot (F.pointerWord (t.frameAddress t.used))])

/-- Leaves that are written to a frame in use stay in the storage. -/
theorem reachesAll_leafEdits {t : Tables F n} {frame : FrameId} (hf : frame < t.used) (p : Plan)
    (first count : Nat) : t.ReachesAll (p.leafEdits F frame first count) := by
  induction count generalizing t first with
  | zero => trivial
  | succ count ih =>
    refine ⟨⟨hf, p.place_lt F first⟩, ih ?_ (first + 1)⟩
    exact Nat.lt_of_lt_of_eq hf (setEntry_base_used t frame _ _).2.symm

/-- Whether leaf number `j` of a plan can be written under `root` without replacing another entry:
the table that is to hold it is missing, or holds zero or the leaf, as it is stored, at its place. -/
def HasPlace (t : Tables F n) (root : FrameId) (p : Plan) (j : Nat) : Prop :=
  (p.tier = .intermediate ∧ t.entryAt root (p.slot F j) = 0) ∨
    ∃ frame, t.tableAt root p.tier (p.slot F j) = some frame ∧
      (t.entryAt frame (p.place F j) = 0 ∨
        t.entryAt frame (p.place F j) = F.width.stored (p.leafRaw F j))

/-- There is a place for a leaf that is admitted. -/
theorem Admits.hasPlace {t : Tables F n} (ht : t.Regular) {root : FrameId} {p : Plan} {j : Nat}
    (h : t.Admits root p j) : t.HasPlace root p j := by
  rcases h with hmissing | ⟨frame, htable, hz | hs⟩
  · exact .inl hmissing
  · exact .inr ⟨frame, htable, .inl hz⟩
  · exact .inr ⟨frame, htable, .inr (by rw [← hs, ht.stored])⟩

/-- A leaf whose table is there has a place in that table. -/
theorem HasPlace.of_tableAt {t : Tables F n} {root : FrameId} {p : Plan} {j : Nat} {f : FrameId}
    (h : t.HasPlace root p j) (hf : t.tableAt root p.tier (p.slot F j) = some f) :
    t.entryAt f (p.place F j) = 0 ∨
      t.entryAt f (p.place F j) = F.width.stored (p.leafRaw F j) := by
  rcases h with ⟨hmid, hz⟩ | ⟨frame, htable, hplace⟩
  · rw [hmid] at hf
    exact absurd hz (childAt_ne_zero hf)
  · obtain rfl : f = frame := Option.some.inj (hf.symm.trans htable)
    exact hplace

/-- The leaves of one table are written without replacing anything when each of their places is empty
or holds its leaf, and no two of them are the same. -/
theorem acceptsAll_leafEdits {t : Tables F n} (ht : t.Regular) {frame : FrameId}
    (hf : frame < t.used) {p : Plan} {first count : Nat}
    (hinj : ∀ i j, first ≤ i → i < j → j < first + count → p.place F i ≠ p.place F j)
    (hplaces : ∀ j, first ≤ j → j < first + count → t.entryAt frame (p.place F j) = 0 ∨
      t.entryAt frame (p.place F j) = F.width.stored (p.leafRaw F j)) :
    t.AcceptsAll (p.leafEdits F frame first count) := by
  induction count generalizing t first with
  | zero => trivial
  | succ count ih =>
    have hfn : frame < n := Nat.lt_of_lt_of_le hf ht.used_le
    have hplace := p.place_lt F first
    have haccepts : t.Accepts (.write frame (p.place F first) (p.leafRaw F first)) :=
      ⟨hf, hplace, hplaces first (Nat.le_refl _) (by omega)⟩
    refine ⟨haccepts, ih (haccepts.step ht).1 ?_ ?_ ?_⟩
    · exact Nat.lt_of_lt_of_le hf (haccepts.step ht).2.used_le
    · exact fun i j hi hij hj => hinj i j (by omega) hij (by omega)
    · -- The places of the other leaves are still as they were.
      intro j hge hlt
      have hne := hinj first j (Nat.le_refl _) hge (by omega)
      have hsame : (t.edit (.write frame (p.place F first) (p.leafRaw F first))).entryAt frame
          (p.place F j) = t.entryAt frame (p.place F j) :=
        (entryAt_setEntry t _ hfn hplace frame _).trans (if_neg fun h => hne h.2.symm)
      rw [hsame]
      exact hplaces j (by omega) (by omega)

/-- The changes `es` write the leaves number `first` to `last - 1` of a plan under `root`, each to
the table that is there for it in the end. What they write beside leaves are pointers at new
children, in empty entries of the root. -/
structure Performs (t : Tables F n) (root : FrameId) (p : Plan) (first last : Nat)
    (es : List Edit) : Prop where
  /-- nothing is replaced -/
  accepted : t.AcceptsAll es
  /-- each leaf is written to its table -/
  leaf_mem : ∀ j, first ≤ j → j < last → ∃ f,
    (t.after es).tableAt root p.tier (p.slot F j) = some f ∧
      .write f (p.place F j) (p.leafRaw F j) ∈ es
  /-- a write is that of a leaf, or of a pointer at a new child -/
  write_of_mem : ∀ f i raw, .write f i raw ∈ es →
    (∃ j, first ≤ j ∧ j < last ∧ (t.after es).tableAt root p.tier (p.slot F j) = some f ∧
      i = p.place F j ∧ raw = p.leafRaw F j) ∨
    (f = root ∧ p.tier = .intermediate ∧ t.entryAt root i = 0 ∧
      ∃ c, t.used ≤ c ∧ (t.after es).childAt root i = some c)

namespace Performs

variable {t : Tables F n} {low : FrameId} {roots : List FrameId} {root : FrameId} {p : Plan}
  {first mid last : Nat} {es es' : List Edit}

/-- Leaves that are written after other leaves. -/
theorem append (ht : t.Regular) (h : t.Performs root p first mid es)
    (h' : (t.after es).Performs root p mid last es') (hle : first ≤ mid) (hle' : mid ≤ last) :
    t.Performs root p first last (es ++ es') := by
  have hreg := h.accepted.regular ht
  have hext := h.accepted.extends ht
  have hext' := h'.accepted.extends hreg
  refine ⟨acceptsAll_append.mpr ⟨h.accepted, h'.accepted⟩, ?_, ?_⟩
  · intro j hge hlt
    rw [after_append]
    rcases Nat.lt_or_ge j mid with hj | hj
    · obtain ⟨f, htable, hmem⟩ := h.leaf_mem j hge hj
      exact ⟨f, hext'.tableAt htable, List.mem_append_left _ hmem⟩
    · obtain ⟨f, htable, hmem⟩ := h'.leaf_mem j hj hlt
      exact ⟨f, htable, List.mem_append_right _ hmem⟩
  · intro f i raw hmem
    rw [after_append]
    rcases List.mem_append.mp hmem with hm | hm
    · rcases h.write_of_mem f i raw hm with ⟨j, hge, hlt, htable, hleaf⟩ | ⟨hf, hmid, hz, c, hc⟩
      · exact .inl ⟨j, hge, by omega, hext'.tableAt htable, hleaf⟩
      · exact .inr ⟨hf, hmid, hz, c, hc.1, hext'.childAt hc.2⟩
    · rcases h'.write_of_mem f i raw hm with ⟨j, hge, hlt, htable, hleaf⟩ | ⟨hf, hmid, hz, c, hc⟩
      · exact .inl ⟨j, by omega, hlt, htable, hleaf⟩
      · refine .inr ⟨hf, hmid, ?_, c, Nat.le_trans hext.used_le hc.1, hc.2⟩
        -- An entry that is empty later has always been empty.
        exact Classical.byContradiction fun hne => hne (hext.entry_eq root i hne ▸ hz)

/-- A leaf that has been written is in its place. -/
theorem entryAt_leaf (ht : t.Regular) (hp : p.Sound F) (h : t.Performs root p first last es)
    {f : FrameId} {j : Nat} (hj : j < p.steps)
    (hmem : .write f (p.place F j) (p.leafRaw F j) ∈ es) :
    (t.after es).entryAt f (p.place F j) = F.width.stored (p.leafRaw F j) :=
  h.accepted.entryAt_of_mem ht hmem (hp.stored_leafRaw_ne_zero hj)

/-- In the table of a tier under the root, an entry that is not the place of a written leaf stays as
it was, unless it has become a pointer. -/
theorem entryAt_eq (ht : t.Regular) (hforest : (t.after es).Forest low roots)
    (hr : root ∈ roots) (h : t.Performs root p first last es) {r : FrameId} (hrr : r ∈ roots)
    {tier : Tier} {s i : Nat} {f : FrameId} (hf : (t.after es).tableAt r tier s = some f)
    (htop : tier = .top → i = s)
    (hother : ∀ j, first ≤ j → j < last → ¬(r = root ∧ tier = p.tier ∧ p.slot F j = s ∧
      p.place F j = i)) :
    (t.after es).entryAt f i = t.entryAt f i ∨
      tier = .top ∧ p.tier = .intermediate ∧
        ∃ c, t.used ≤ c ∧ (t.after es).childAt r i = some c := by
  by_cases hsame : (t.after es).entryAt f i = t.entryAt f i
  · exact .inl hsame
  -- An entry that differs has been written: as a leaf, which is elsewhere, or as a pointer.
  obtain ⟨raw, hmem⟩ := h.accepted.mem_of_entryAt_ne ht hsame
  rcases h.write_of_mem f i raw hmem with ⟨j, hge, hlt, htable, hplace, -⟩ | ⟨rfl, hmid, -, c, hc⟩
  · obtain ⟨hroot, htier, hslot⟩ := hforest.tableAt_inj hrr hr hf htable
    refine absurd ⟨hroot, htier, ?_, hplace.symm⟩ (hother j hge hlt)
    cases tier with
    | top => rw [← htop rfl, hplace, Plan.Sound.place_eq_slot htier.symm]
    | intermediate => exact (hslot rfl).symm
  · obtain ⟨hroot, htier, -⟩ := hforest.tableAt_inj hrr hr hf (tableAt_top _ _ i)
    exact .inr ⟨htier, hmid, c, hc.1, hroot ▸ hc.2⟩

/-- A child that was not in use before lies under the root of the plan, and holds a leaf that has been
written. -/
theorem leaf_of_new_child (ht : t.Regular) (hforest : (t.after es).Forest low roots)
    (hroot : root ∈ roots) (h : t.Performs root p first last es) {r : FrameId} (hr : r ∈ roots)
    {s : Nat} {c : FrameId} (hnew : t.used ≤ c) (hc : (t.after es).childAt r s = some c) :
    r = root ∧ ∃ k, first ≤ k ∧ k < last ∧ p.slot F k = s := by
  obtain ⟨hlow, hu, hnot⟩ := hforest.child_mem hr hc
  obtain ⟨i, hleaf⟩ := hforest.child_leaf c hlow hu hnot
  obtain ⟨raw, hmem⟩ := h.accepted.mem_of_filled ht (ht.free_zero c hnew i) hleaf.ne_zero
  have hc : (t.after es).tableAt r .intermediate s = some c := hc
  rcases h.write_of_mem c i raw hmem with ⟨k, hge, hlt, htable, -⟩ | ⟨rfl, -⟩
  · obtain ⟨hrr, -, hslot⟩ := hforest.tableAt_inj hr hroot hc htable
    exact ⟨hrr, k, hge, hlt, (hslot rfl).symm⟩
  · exact absurd hroot hnot

/-- A leaf, also one of another plan, still has its place when the leaves that are written under its
root entry are of its tier, and one at its place is stored as the same entry. -/
theorem hasPlace_of_agree (ht : t.Regular) (hforest : (t.after es).Forest low roots)
    (hroot : root ∈ roots) (hp : p.Sound F) (h : t.Performs root p first last es)
    (hle : last ≤ p.steps) {r : FrameId} (hr : r ∈ roots) {q : Plan} {j : Nat}
    (hagree : r = root → ∀ k, first ≤ k → k < last → p.slot F k = q.slot F j → p.tier = q.tier ∧
      (p.place F k = q.place F j → F.width.stored (p.leafRaw F k) = F.width.stored (q.leafRaw F j)))
    (hplace : t.HasPlace r q j) : (t.after es).HasPlace r q j := by
  have hext := h.accepted.extends ht
  -- In the table of the leaf, its place has been left as it was, or the leaf has been written there.
  have hkeep : ∀ f, (t.after es).tableAt r q.tier (q.slot F j) = some f →
      (t.entryAt f (q.place F j) = 0 ∨
        t.entryAt f (q.place F j) = F.width.stored (q.leafRaw F j)) →
      (t.after es).HasPlace r q j := by
    intro f hf hentry
    refine .inr ⟨f, hf, ?_⟩
    by_cases hk : ∃ k, first ≤ k ∧ k < last ∧ r = root ∧ p.slot F k = q.slot F j ∧
        p.place F k = q.place F j
    · obtain ⟨k, hge, hlt, rfl, hslot, hplace⟩ := hk
      obtain ⟨htier, hstored⟩ := hagree rfl k hge hlt hslot
      obtain ⟨f', htable, hmem⟩ := h.leaf_mem k hge hlt
      rw [htier, hslot, hf] at htable
      obtain rfl : f = f' := Option.some.inj htable
      rw [← hstored hplace, ← hplace]
      exact .inr (h.entryAt_leaf ht hp (Nat.lt_of_lt_of_le hlt hle) hmem)
    · have htop := fun htier => Plan.Sound.place_eq_slot (F := F) (p := q) htier j
      rcases h.entryAt_eq ht hforest hroot hr hf htop
        (fun k hge hlt hsame => hk ⟨k, hge, hlt, hsame.1, hsame.2.2⟩) with
        hsame | ⟨htier, hmid, c, hnew, hc⟩
      · rwa [hsame]
      · -- The root entry of a leaf of the top tier leads to no leaf of the intermediate tier.
        rw [htop htier] at hc
        obtain ⟨hrr, k, hge, hlt, hslot⟩ := h.leaf_of_new_child ht hforest hroot hr hnew hc
        have hsame := (hagree hrr k hge hlt hslot).1
        rw [hmid, htier] at hsame
        cases hsame
  rcases hplace with ⟨hmid, hz⟩ | ⟨f, hf, hentry⟩
  · by_cases hz' : (t.after es).entryAt r (q.slot F j) = 0
    · exact .inl ⟨hmid, hz'⟩
    · obtain ⟨raw, hmem⟩ := h.accepted.mem_of_filled ht hz hz'
      rcases h.write_of_mem _ _ raw hmem with
        ⟨k, hge, hlt, htable, hslot, -⟩ | ⟨rfl, -, -, c, hnew, hc⟩
      · obtain ⟨hrr, htop, -⟩ := hforest.tableAt_inj hroot hr htable (tableAt_top _ r 0)
        rw [Plan.Sound.place_eq_slot htop] at hslot
        have hsame := (hagree hrr.symm k hge hlt hslot.symm).1
        rw [htop, hmid] at hsame
        cases hsame
      · -- The child has been added, and was empty when it was handed out.
        exact hkeep c (by rw [hmid]; exact hc) (.inl (ht.free_zero c hnew _))
  · exact hkeep f (hext.tableAt hf) hentry

/-- The leaves that have not been written still have their places: no two leaves of a plan share one. -/
theorem hasPlace (ht : t.Regular) (hforest : (t.after es).Forest low roots) (hr : root ∈ roots)
    (hp : p.Sound F) (h : t.Performs root p first last es) (hle : last ≤ p.steps) {k : Nat}
    (hk : k < p.steps) (hout : k < first ∨ last ≤ k) (hplace : t.HasPlace root p k) :
    (t.after es).HasPlace root p k := by
  refine h.hasPlace_of_agree ht hforest hr hp hle hr
    (fun _ j hge hlt hslot => ⟨rfl, fun hsame => ?_⟩) hplace
  have := hp.leaf_inj (Nat.lt_of_lt_of_le hlt hle) hk hslot hsame
  omega

end Performs

/-! ## Filling and planting -/

section Planted

variable {t : Tables F n} {root : FrameId} {p : Plan} {first count : Nat}

/-- The writes of a planted child: the pointer at it, and its leaves. -/
theorem write_of_mem_plantEdits {s f i : Nat} {raw : UInt64}
    (hmem : Edit.write f i raw ∈ t.plantEdits root s p first count) :
    (f = root ∧ i = s) ∨
      ∃ j, first ≤ j ∧ j < first + count ∧ f = t.used ∧ i = p.place F j ∧ raw = p.leafRaw F j := by
  unfold plantEdits at hmem
  simp only [List.mem_cons, List.mem_append, List.not_mem_nil, or_false, reduceCtorEq,
    false_or, Edit.write.injEq] at hmem
  rcases hmem with hmem | ⟨hf, hi, -⟩
  · obtain ⟨j, hge, hlt, he⟩ := Plan.mem_leafEdits.mp hmem
    cases he
    exact .inr ⟨j, hge, hlt, rfl, rfl, rfl⟩
  · exact .inl ⟨hf, hi⟩

/-- A child is planted for an empty root entry without replacing anything: its leaves go to a frame
that holds nothing yet, and none of them goes to the root. -/
theorem acceptsAll_plantEdits (hreg : t.Regular) (hu : t.used < n) (hroot : root < t.used)
    (hp : p.Sound F) (hle : first + count ≤ p.steps) {s : Nat} (hs : s < F.entries)
    (hslot : ∀ j, first ≤ j → j < first + count → p.slot F j = s) (hempty : t.entryAt root s = 0) :
    t.AcceptsAll (t.plantEdits root s p first count) := by
  have hregTake : t.takeFrame.Regular := hreg.takeFrame hu
  have hleaves : t.takeFrame.AcceptsAll (p.leafEdits F t.used first count) := by
    refine acceptsAll_leafEdits hregTake (Nat.lt_succ_self _) ?_ ?_
    · intro i j hi hij hj hplace
      refine Nat.ne_of_lt hij (hp.leaf_inj (by omega) (by omega) ?_ hplace)
      rw [hslot i hi (by omega), hslot j (by omega) hj]
    · exact fun j _ _ => .inl ((entryAt_takeFrame t _ _).trans (if_pos rfl))
  -- The leaves go to the new frame, so the root entry is still empty after them.
  have hpointer : (t.takeFrame.after (p.leafEdits F t.used first count)).entryAt root s = 0 := by
    by_cases hsame : (t.takeFrame.after (p.leafEdits F t.used first count)).entryAt root s =
        t.takeFrame.entryAt root s
    · rw [hsame, entryAt_takeFrame, if_neg (Nat.ne_of_lt hroot), hempty]
    · obtain ⟨raw, hmem⟩ := hleaves.mem_of_entryAt_ne hregTake hsame
      obtain ⟨j, -, -, he⟩ := Plan.mem_leafEdits.mp hmem
      injection he with hframe
      exact absurd hframe (Nat.ne_of_lt hroot)
  refine ⟨hu, acceptsAll_append.mpr ⟨hleaves, ⟨?_, hs, .inl hpointer⟩, trivial⟩⟩
  exact Nat.lt_of_lt_of_le (Nat.lt_succ_of_lt hroot) (hleaves.extends hregTake).used_le

/-- A planted child is handed out, and nothing else is. -/
theorem used_after_plantEdits (t : Tables F n) (root : FrameId) (s : Nat) (p : Plan)
    (first count : Nat) :
    (t.after (t.plantEdits root s p first count)).used = t.used + 1 := by
  rw [used_after]
  unfold plantEdits
  rw [List.count_cons_self, List.count_append, p.count_leafEdits,
    List.count_cons_of_ne (by intro he; cases he), List.count_nil]

/-- A planted child is read back from the root, because the format holds the addresses of all
frames. -/
theorem childAt_after_plantEdits (hreg : t.Regular) (hplaced : F.Placed n t.base) (hu : t.used < n)
    {s : Nat} (haccepts : t.AcceptsAll (t.plantEdits root s p first count)) :
    (t.after (t.plantEdits root s p first count)).childAt root s = some t.used := by
  have hmem : Edit.write root s (F.pointerWord (t.frameAddress t.used)) ∈
      t.plantEdits root s p first count :=
    List.mem_cons_of_mem _ (List.mem_append_right _ List.mem_cons_self)
  have haligned := frameAddress_aligned hplaced.base_aligned t.used
  refine childAt_of_pointer (by rw [base_after, hplaced.base_aligned])
    (by rw [used_after_plantEdits]; exact Nat.lt_succ_self _)
    (by rw [base_after]; exact hplaced.frame_lt _ hu) ?_
  rw [frameAddress_after]
  exact haccepts.entryAt_of_mem hreg hmem (Format.stored_pointerWord_ne_zero haligned)

end Planted

namespace Forest

variable {t : Tables F n} {low : FrameId} {roots : List FrameId} {root : FrameId} {p : Plan}
  {first count : Nat}

/-- Leaves that share a table and have places in it are filled in, and keep the forest. -/
theorem fill (h : t.Forest low roots) (hr : root ∈ roots) (hp : p.Sound F)
    (hle : first + count ≤ p.steps) {frame : FrameId} (hf : frame < t.used)
    (htable : ∀ j, first ≤ j → j < first + count →
      t.tableAt root p.tier (p.slot F j) = some frame)
    (hplace : ∀ j, first ≤ j → j < first + count → t.HasPlace root p j) :
    t.Performs root p first (first + count) (p.leafEdits F frame first count) ∧
      (t.after (p.leafEdits F frame first count)).Forest low roots ∧
      (t.after (p.leafEdits F frame first count)).used = t.used := by
  have hreg := h.regular
  have haccepts : t.AcceptsAll (p.leafEdits F frame first count) := by
    refine acceptsAll_leafEdits hreg hf ?_ fun j hge hlt =>
      (hplace j hge hlt).of_tableAt (htable j hge hlt)
    -- Leaves of one table that had one place would be one leaf.
    intro i j hi hij hj hplace
    have hslot : p.slot F i = p.slot F j := by
      have hinj := h.tableAt_inj hr hr (htable i hi (by omega)) (htable j (by omega) hj)
      cases htier : p.tier with
      | top => rw [← Plan.Sound.place_eq_slot htier, ← Plan.Sound.place_eq_slot htier, hplace]
      | intermediate => exact hinj.2.2 htier
    exact Nat.ne_of_lt hij (hp.leaf_inj (by omega) (by omega) hslot hplace)
  have hext := haccepts.extends hreg
  have hused : (t.after (p.leafEdits F frame first count)).used = t.used := by
    rw [used_after, p.count_leafEdits, Nat.add_zero]
  refine ⟨⟨haccepts, ?_, ?_⟩, ?_, hused⟩
  · exact fun j hge hlt =>
      ⟨frame, hext.tableAt (htable j hge hlt), Plan.write_mem_leafEdits hge hlt⟩
  · intro f i raw hmem
    obtain ⟨j, hge, hlt, he⟩ := Plan.mem_leafEdits.mp hmem
    cases he
    exact .inl ⟨j, hge, hlt, hext.tableAt (htable j hge hlt), rfl, rfl⟩
  · refine h.addLeaves (haccepts.regular hreg) hext hused fun f i hne => ?_
    obtain ⟨raw, hmem⟩ := haccepts.mem_of_entryAt_ne hreg hne
    obtain ⟨j, hge, hlt, he⟩ := Plan.mem_leafEdits.mp hmem
    cases he
    have hj : j < p.steps := by omega
    have hleaf : F.IsLeaf ((t.after (p.leafEdits F frame first count)).entryAt frame
        (p.place F j)) p.tier.level := by
      rw [haccepts.entryAt_of_mem hreg hmem (hp.stored_leafRaw_ne_zero hj)]
      exact ⟨_, _, hp.decode_leafRaw hj⟩
    have htab := htable j hge hlt
    cases htier : p.tier with
    | top =>
      rw [htier] at hleaf htab
      obtain rfl : root = frame := Option.some.inj htab
      exact .inl ⟨hr, hleaf⟩
    | intermediate =>
      rw [htier] at hleaf htab
      exact .inr ⟨(h.child_mem hr htab).2.2, hleaf⟩

/-- A child that is planted for an empty root entry holds the leaves of a visit, and keeps the
forest. -/
theorem plant (h : t.Forest low roots) (hr : root ∈ roots) (hplaced : F.Placed n t.base)
    (hu : t.used < n) (hp : p.Sound F) (hmid : p.tier = .intermediate) (hcount : 0 < count)
    (hle : first + count ≤ p.steps) {s : Nat}
    (hslot : ∀ j, first ≤ j → j < first + count → p.slot F j = s) (hempty : t.entryAt root s = 0) :
    t.Performs root p first (first + count) (t.plantEdits root s p first count) ∧
      (t.after (t.plantEdits root s p first count)).Forest low roots ∧
      (t.after (t.plantEdits root s p first count)).used = t.used + 1 := by
  have hreg := h.regular
  have hroot := (h.root_mem root hr).2
  have hs : s < F.entries := by
    rw [← hslot first (Nat.le_refl _) (by omega)]
    exact p.slot_lt F first
  have haccepts := acceptsAll_plantEdits hreg hu hroot hp hle hs hslot hempty
  have hext := haccepts.extends hreg
  have hused := used_after_plantEdits t root s p first count
  have hmemLeaf : ∀ j, first ≤ j → j < first + count →
      Edit.write t.used (p.place F j) (p.leafRaw F j) ∈ t.plantEdits root s p first count :=
    fun j hge hlt => List.mem_cons_of_mem _
      (List.mem_append_left _ (Plan.write_mem_leafEdits hge hlt))
  have hchild := childAt_after_plantEdits hreg hplaced hu haccepts
  have htable : ∀ j, first ≤ j → j < first + count →
      (t.after (t.plantEdits root s p first count)).tableAt root p.tier (p.slot F j) =
        some t.used := by
    intro j hge hlt
    rw [hmid, hslot j hge hlt]
    exact hchild
  have hleaf : ∀ j, first ≤ j → j < first + count →
      F.IsLeaf ((t.after (t.plantEdits root s p first count)).entryAt t.used (p.place F j)) 1 := by
    intro j hge hlt
    have hj : j < p.steps := by omega
    have hdecode := hp.decode_leafRaw hj
    rw [hmid] at hdecode
    rw [haccepts.entryAt_of_mem hreg (hmemLeaf j hge hlt) (hp.stored_leafRaw_ne_zero hj)]
    exact ⟨_, _, hdecode⟩
  refine ⟨⟨haccepts, fun j hge hlt => ⟨t.used, htable j hge hlt, hmemLeaf j hge hlt⟩, ?_⟩, ?_,
    hused⟩
  · intro f i raw hmem
    rcases write_of_mem_plantEdits hmem with ⟨rfl, rfl⟩ | ⟨j, hge, hlt, rfl, rfl, rfl⟩
    · exact .inr ⟨rfl, hmid, hempty, t.used, Nat.le_refl _, hchild⟩
    · exact .inl ⟨j, hge, hlt, htable j hge hlt, rfl, rfl⟩
  · refine h.addChild (Nat.le_trans (h.root_mem root hr).1 (Nat.le_of_lt hroot))
      (haccepts.regular hreg) hext hused hr hempty hchild ?_
      ⟨_, hleaf first (Nat.le_refl _) (by omega)⟩
    intro f i hne
    obtain ⟨raw, hmem⟩ := haccepts.mem_of_entryAt_ne hreg hne
    rcases write_of_mem_plantEdits hmem with ⟨hf, hi⟩ | ⟨j, hge, hlt, rfl, rfl, -⟩
    · exact .inl ⟨hf, hi⟩
    · exact .inr ⟨rfl, hleaf j hge hlt⟩

end Forest

end Tables

/-! ## Performing a plan -/

namespace Builder

variable {low : FrameId} {roots : List FrameId} {root : FrameId} {p : Plan}

/-- The leaves of a sound plan are written to a frame of the storage without a fault. -/
theorem writeLeaves_ok (hp : p.Sound F) {frame : FrameId} (hf : frame < n) {first count : Nat}
    (hle : first + count ≤ p.steps) (w : Worksite F n) :
    writeLeaves p frame p.tier.level first count w =
      .ok () (w.perform (p.leafEdits F frame first count)) := by
  induction count generalizing first w with
  | zero =>
    show EStateM.Result.ok () w = .ok () (w.perform [])
    rw [w.perform_nil]
  | succ count ih =>
    have hfirst : first < p.steps := by omega
    rw [writeLeaves, bind_ok (ofFaulting_ok (hp.virtAt_eq_ok hfirst) w),
      bind_ok (ofFaulting_ok (hp.leafAt_eq_ok hfirst) w),
      bind_ok (write_ok _ hf (F.index_lt_entries _ _) w), ih (by omega), w.perform_append]
    rfl

/-- A visit of a root entry, by what the entry says. -/
theorem writeSlot_eq (hroot : root < n) (va : VirtAddr) (step count : Nat) (w : Worksite F n) :
    writeSlot root p va step count w =
      match F.decode (w.tables.entryAt root (F.index va 0)) 0 with
      | .leaf _ _ => .error (.refused (.overlap va)) w
      | .next child =>
        match w.tables.frameAt child with
        | none => .error (.refused (.foreignTable va)) w
        | some frame => writeLeaves p frame 1 step count w
      | .invalid =>
        (do
          let frame ← allocate .storageExhausted
          writeLeaves p frame 1 step count
          let pointer ← ofFaulting (F.pointer ((← tables).frameAddress frame))
          write root (F.index va 0) pointer : Builder F n MapError Unit) w := by
  have hread := w.tables.read_eq_ok hroot (F.index_lt_entries va 0)
  unfold writeSlot
  rw [bind_ok (tables_ok w), bind_ok (ofFaulting_ok hread w)]
  cases F.decode (w.tables.entryAt root (F.index va 0)) 0 with
  | leaf base attrs => rfl
  | invalid => rfl
  | next child =>
    dsimp only
    rw [bind_ok (tables_ok w)]
    cases w.tables.frameAt child <;> rfl

/-- A visit of an empty root entry plants a child. -/
theorem writeSlot_plant {w : Worksite F n} (hroot : root < n)
    (hbase : w.tables.base.toNat % pageSize = 0) (hu : w.tables.used < n) (hp : p.Sound F)
    (hmid : p.tier = .intermediate) {step count : Nat} (hle : step + count ≤ p.steps)
    (hempty : w.tables.entryAt root (p.slot F step) = 0) :
    writeSlot root p (p.leafVirt step) step count w =
      .ok () (w.perform (w.tables.plantEdits root (p.slot F step) p step count)) := by
  have hlevel : p.tier.level = 1 := by rw [hmid]; rfl
  have hleaves : writeLeaves p w.tables.used 1 step count (w.perform [.allocate]) = _ :=
    hlevel ▸ writeLeaves_ok hp hu hle (w.perform [.allocate])
  have haligned := Tables.frameAddress_aligned hbase w.tables.used
  rw [writeSlot_eq hroot, p.index_leafVirt, hempty,
    Format.decode_zero]
  dsimp only
  rw [bind_ok (allocate_ok _ hu), bind_ok hleaves, bind_ok (tables_ok _), Worksite.perform_append,
    Worksite.tables_perform, Tables.frameAddress_after,
    bind_ok (ofFaulting_ok (Format.pointer_eq_ok haligned) _),
    write_ok _ hroot (p.slot_lt F step), Worksite.perform_append]
  rfl

/-- A visit of a root entry that points at a child fills the child. -/
theorem writeSlot_fill {w : Worksite F n} (hroot : root < n) (hu : w.tables.used ≤ n)
    (hp : p.Sound F) (hmid : p.tier = .intermediate) {step count : Nat}
    (hle : step + count ≤ p.steps) {c : FrameId}
    (hc : w.tables.childAt root (p.slot F step) = some c) :
    writeSlot root p (p.leafVirt step) step count w =
      .ok () (w.perform (p.leafEdits F c step count)) := by
  have hlevel : p.tier.level = 1 := by rw [hmid]; rfl
  have hleaves : writeLeaves p c 1 step count w = _ :=
    hlevel ▸ writeLeaves_ok hp (Nat.lt_of_lt_of_le (Tables.childAt_lt hc) hu) hle w
  obtain ⟨child, hd, hf⟩ := Tables.childAt_eq_some.mp hc
  rw [writeSlot_eq hroot, p.index_leafVirt, hd]
  dsimp only
  rw [hf]
  exact hleaves

/-- One visit of a root entry writes its leaves, and hands out a frame if there is no child. -/
theorem writeSlot_ok {w : Worksite F n} (h : w.tables.Forest low roots) (hr : root ∈ roots)
    (hplaced : F.Placed n w.tables.base) (hp : p.Sound F) (hmid : p.tier = .intermediate)
    {step count : Nat} (hcount : 0 < count) (hle : step + count ≤ p.steps)
    (hslot : ∀ j, step ≤ j → j < step + count → p.slot F j = p.slot F step)
    (hplace : ∀ j, step ≤ j → j < step + count → w.tables.HasPlace root p j)
    (hroom : w.tables.entryAt root (p.slot F step) = 0 → w.tables.used < n) :
    ∃ es, writeSlot root p (p.leafVirt step) step count w = .ok () (w.perform es) ∧
      w.tables.Performs root p step (step + count) es ∧
      (w.tables.after es).Forest low roots ∧
      (w.tables.after es).used =
        w.tables.used + if w.tables.entryAt root (p.slot F step) == 0 then 1 else 0 := by
  have hroot := h.root_lt hr
  rcases h.root_entry root hr (p.slot F step) with hz | ⟨base, attrs, hl⟩ | ⟨c, hc, -, -⟩
  · -- There is no child: one is planted.
    have hu := hroom hz
    obtain ⟨hperforms, hforest, hused⟩ := h.plant hr hplaced hu hp hmid hcount hle hslot hz
    exact ⟨_, writeSlot_plant hroot hplaced.base_aligned hu hp hmid hle hz, hperforms, hforest,
      by rw [hused, hz]; rfl⟩
  · -- Under a leaf of the root there is no place for the first leaf of the visit.
    rcases hplace step (Nat.le_refl _) (by omega) with ⟨-, hz⟩ | ⟨frame, htable, -⟩
    · exact absurd hz (Format.IsLeaf.ne_zero ⟨base, attrs, hl⟩)
    · rw [hmid] at htable
      exact absurd ⟨base, attrs, hl⟩ (Tables.not_isLeaf_of_childAt htable)
  · -- The child is there: it is filled.
    have hne := Tables.childAt_ne_zero hc
    have htable : ∀ j, step ≤ j → j < step + count →
        w.tables.tableAt root p.tier (p.slot F j) = some c := by
      intro j hge hlt
      rw [hmid, hslot j hge hlt]
      exact hc
    obtain ⟨hperforms, hforest, hused⟩ := h.fill hr hp hle (Tables.childAt_lt hc) htable hplace
    exact ⟨_, writeSlot_fill hroot h.regular.used_le hp hmid hle hc, hperforms, hforest,
      by rw [hused, beq_false_of_ne hne]; rfl⟩

/-- The leaves from number `step` on are written when they have places and there are frames for the
visits that find no child. -/
theorem writeSlots_ok {w : Worksite F n} (h : w.tables.Forest low roots) (hr : root ∈ roots)
    (hplaced : F.Placed n w.tables.base) (hp : p.Sound F) (hmid : p.tier = .intermediate)
    {step remaining : Nat} (hend : step + remaining = p.steps)
    (hplace : ∀ j, step ≤ j → j < p.steps → w.tables.HasPlace root p j)
    (hroom : w.tables.missing root p step remaining ≤ w.tables.available) :
    ∃ es, writeSlots root p step remaining w = .ok () (w.perform es) ∧
      w.tables.Performs root p step p.steps es ∧ (w.tables.after es).Forest low roots ∧
      (w.tables.after es).used ≤ w.tables.used + w.tables.missing root p step remaining := by
  -- A visit takes at least one leaf, so the induction is on the leaves that are left.
  induction remaining using Nat.strongRecOn generalizing step w with
  | ind remaining ih =>
  rcases Nat.eq_zero_or_pos remaining with rfl | hpos
  · refine ⟨[], ?_, ⟨trivial, fun j hge hlt => by omega, fun f i raw hmem => by cases hmem⟩, h,
      Nat.le_add_right _ _⟩
    rw [writeSlots, dif_pos rfl, w.perform_nil]
    rfl
  have hstep : step < p.steps := by omega
  have hvisit := F.stepsInSlot_pos (p.leafVirt step) remaining hpos
  have hinSlot := F.stepsInSlot_le (p.leafVirt step) remaining
  have hsame := hp.slot_eq_of_visit hmid (Nat.le_of_eq hend)
  have hmissing := w.tables.missing_of_pos root p step hpos
  rw [writeSlots, dif_neg (Nat.ne_of_gt hpos), hp.virtAt_eq_ok hstep]
  simp only
  generalize F.stepsInSlot (p.leafVirt step) remaining = inSlot at *
  have hu := h.regular.used_le
  unfold Tables.available at hroom
  have hfree : w.tables.entryAt root (p.slot F step) = 0 → w.tables.used < n := by
    intro hz
    rw [hmissing, hz, beq_self_eq_true, if_pos rfl] at hroom
    omega
  obtain ⟨es, hrun, hperforms, hforest, hused⟩ := writeSlot_ok h hr hplaced hp hmid hvisit
    (by omega) hsame (fun j hge hlt => hplace j hge (by omega)) hfree
  -- What was missing for the other visits is missing still, or has been added.
  have hless : (w.tables.after es).missing root p (step + inSlot) (remaining - inSlot) ≤
      w.tables.missing root p (step + inSlot) (remaining - inSlot) :=
    Tables.missing_le (hperforms.accepted.extends h.regular) root p _ _
  obtain ⟨es', hrun', hperforms', hforest', hused'⟩ := ih (remaining - inSlot) (by omega)
    (show (w.perform es).tables.Forest low roots from hforest)
    (by rw [Worksite.tables_perform, Tables.base_after]; exact hplaced)
    (show step + inSlot + (remaining - inSlot) = p.steps by omega)
    (fun j hge hlt => hperforms.hasPlace h.regular hforest hr hp (by omega) hlt (.inr hge)
      (hplace j (by omega) hlt))
    (by
      unfold Tables.available
      rw [Worksite.tables_perform]
      omega)
  rw [Worksite.tables_perform, ← Tables.after_append] at *
  refine ⟨es ++ es', ?_, hperforms.append h.regular hperforms' (by omega) (by omega), hforest', ?_⟩
  · rw [bind_ok hrun, hrun', Worksite.perform_append]
  · omega

/-- A plan with a place for each leaf, and frames for the tables that it lacks, is performed to its
end: each leaf is written, nothing is replaced, the forest is kept, and no more frames are handed out
than the plan lacks. -/
theorem apply_ok {w : Worksite F n} (h : w.tables.Forest low roots) (hr : root ∈ roots)
    (hplaced : p.tier = .intermediate → F.Placed n w.tables.base) (hp : p.Sound F)
    (hplace : ∀ j, j < p.steps → w.tables.HasPlace root p j)
    (hroom : w.tables.lacking root p ≤ w.tables.available) :
    ∃ es, apply root p w = .ok () (w.perform es) ∧ w.tables.Performs root p 0 p.steps es ∧
      (w.tables.after es).Forest low roots ∧
      (w.tables.after es).used ≤ w.tables.used + w.tables.lacking root p := by
  unfold apply
  unfold Tables.lacking at hroom ⊢
  cases htier : p.tier with
  | top =>
    have hlevel : p.tier.level = 0 := by rw [htier]; rfl
    have hroot := (h.root_mem root hr).2
    obtain ⟨hperforms, hforest, hused⟩ := h.fill hr hp (show 0 + p.steps ≤ p.steps by omega) hroot
      (fun j _ _ => by rw [htier]; rfl) (fun j _ hlt => hplace j (by omega))
    rw [Nat.zero_add] at hperforms
    exact ⟨_, hlevel ▸ writeLeaves_ok hp (h.root_lt hr) (by omega) w, hperforms, hforest,
      Nat.le_of_eq hused⟩
  | intermediate =>
    rw [htier] at hroom
    exact writeSlots_ok h hr (hplaced htier) hp htier (Nat.zero_add _)
      (fun j _ hlt => hplace j hlt) hroom

end Builder

end BootLoader.Paging
