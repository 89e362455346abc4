import BootLoader.Proofs.Paging.Atomic

/-!
# Storage that is raised from its roots

A frame that is handed out is a root until something points at it. `Tables.Raised` says of storage
that it comes from empty storage by handing out roots, and by making calls and performing plans
under these, whatever the plans were made for and whether they are performed to the end. A plan that
was not made for its root can replace a pointer by a leaf, and can stop before it has written the
pointer at the child that it has filled; the child is then a table that nothing points at. Raised
storage is therefore a forest whose roots are those that were handed out, and tables that nothing
points at (`Tables.Raised.stands`).
-/

namespace BootLoader.Paging

variable {F : Format} {n : Nat}

namespace Tables

/-! ## Single writes in a forest -/

/-- A write changes no other pointer. -/
theorem childAt_setEntry_of_ne (t : Tables F n) {frame : FrameId} {index : Nat} (raw : UInt64)
    (hf : frame < n) (hi : index < F.entries) {f : FrameId} {i : Nat}
    (hne : ¬(f = frame ∧ i = index)) :
    (t.setEntry frame index raw).childAt f i = t.childAt f i := by
  unfold childAt
  rw [entryAt_setEntry t raw hf hi, if_neg hne]
  simp only [frameAt_setEntry]

/-- A table that holds leaves only points at nothing. -/
theorem childAt_eq_none {t : Tables F n} {f : FrameId} {i : Nat}
    (h : t.entryAt f i = 0 ∨ F.IsLeaf (t.entryAt f i) 1) : t.childAt f i = none := by
  refine Option.eq_none_iff_forall_ne_some.mpr fun c hc => ?_
  rcases h with hz | hl
  · exact childAt_ne_zero hc hz
  · exact not_isLeaf_of_childAt hc hl.at_root

namespace Forest

variable {t : Tables F n} {low : FrameId} {roots : List FrameId}

/-- A leaf that is written to a root keeps a forest: a child at which the entry pointed becomes a
root of its own. -/
theorem writeLeaf_root (h : t.Forest low roots) {r : FrameId} (hr : r ∈ roots) {i : Nat}
    (hi : i < F.entries) {raw : UInt64} (hleaf : F.IsLeaf (F.width.stored raw) 0) :
    (t.setEntry r i raw).Forest low (roots ++ (t.childAt r i).toList) := by
  have hrn := h.root_lt hr
  have hused := (setEntry_base_used t r i raw).2
  have hentry := entryAt_setEntry t raw hrn hi
  have hmem : ∀ {c}, c ∈ roots ++ (t.childAt r i).toList ↔ c ∈ roots ∨ t.childAt r i = some c := by
    intro c
    rw [List.mem_append, Option.mem_toList]
  -- The entry that is written points at nothing, and the others point where they pointed.
  have hback : ∀ f j c, (t.setEntry r i raw).childAt f j = some c →
      ¬(f = r ∧ j = i) ∧ t.childAt f j = some c := by
    intro f j c hc
    by_cases hsame : f = r ∧ j = i
    · refine absurd ?_ (not_isLeaf_of_childAt hc)
      rw [hentry, if_pos hsame]
      exact hleaf
    · exact ⟨hsame, (childAt_setEntry_of_ne t raw hrn hi hsame) ▸ hc⟩
  have hkeep : ∀ {f j c}, ¬(f = r ∧ j = i) → t.childAt f j = some c →
      (t.setEntry r i raw).childAt f j = some c := by
    intro f j c hne hc
    rw [childAt_setEntry_of_ne t raw hrn hi hne, hc]
  have hother : ∀ c, c ∉ roots → ∀ j, (t.setEntry r i raw).entryAt c j = t.entryAt c j := by
    intro c hc j
    rw [hentry, if_neg]
    rintro ⟨rfl, -⟩
    exact hc hr
  exact {
    regular := h.regular.setEntry (h.root_mem r hr).2 hi raw
    root_mem := by
      intro c hc
      rw [hused]
      rcases hmem.mp hc with hc | hc
      · exact h.root_mem c hc
      · exact ⟨(h.child_mem hr hc).1, childAt_lt hc⟩
    root_entry := by
      intro f hf j
      rcases hmem.mp hf with hf | hf
      · by_cases hsame : f = r ∧ j = i
        · rw [hentry, if_pos hsame]
          exact .inr (.inl hleaf)
        · rw [hentry, if_neg hsame]
          refine (h.root_entry f hf j).imp_right (Or.imp_right ?_)
          rintro ⟨c, hc, hlow, hroot⟩
          refine ⟨c, hkeep hsame hc, hlow, fun hm => ?_⟩
          -- The child of another entry is not the one that has lost its pointer.
          rcases hmem.mp hm with hm | hm
          · exact hroot hm
          · exact hsame (h.child_unique f hf r hr j i c hc hm)
      · obtain ⟨hlow, hu, hroot⟩ := h.child_mem hr hf
        rw [hother f hroot]
        exact (h.child_entry f hlow hu hroot j).imp_right fun hl => .inl hl.at_root
    child_owned := by
      intro c hlow hu hc
      obtain ⟨f, hf, j, hj⟩ := h.child_owned c hlow (hused ▸ hu) fun hm => hc (hmem.mpr (.inl hm))
      refine ⟨f, hmem.mpr (.inl hf), j, hkeep ?_ hj⟩
      rintro ⟨rfl, rfl⟩
      exact hc (hmem.mpr (.inr hj))
    child_unique := by
      intro f hf f' hf' j j' c hc hc'
      -- A table that holds leaves only has no child.
      have hroot : ∀ {f j}, f ∈ roots ++ (t.childAt r i).toList → t.childAt f j = some c →
          f ∈ roots := by
        intro f j hf hc
        refine (hmem.mp hf).resolve_right fun hm => ?_
        obtain ⟨hlow, hu, hnot⟩ := h.child_mem hr hm
        rw [childAt_eq_none (h.child_entry f hlow hu hnot j)] at hc
        cases hc
      have hold := (hback f j c hc).2
      have hold' := (hback f' j' c hc').2
      exact h.child_unique f (hroot hf hold) f' (hroot hf' hold') j j' c hold hold'
    child_entry := by
      intro c hlow hu hc j
      have hnot : c ∉ roots := fun hm => hc (hmem.mpr (.inl hm))
      rw [hother c hnot]
      exact h.child_entry c hlow (hused ▸ hu) hnot j
    child_leaf := by
      intro c hlow hu hc
      have hnot : c ∉ roots := fun hm => hc (hmem.mpr (.inl hm))
      obtain ⟨j, hj⟩ := h.child_leaf c hlow (hused ▸ hu) hnot
      exact ⟨j, by rwa [hother c hnot]⟩ }

/-- A leaf that is written to a child keeps a forest. -/
theorem writeLeaf_child (h : t.Forest low roots) {c : FrameId} (hlow : low ≤ c) (hu : c < t.used)
    (hc : c ∉ roots) {i : Nat} (hi : i < F.entries) {raw : UInt64}
    (hleaf : F.IsLeaf (F.width.stored raw) 1) : (t.setEntry c i raw).Forest low roots := by
  have hcn := Nat.lt_of_lt_of_le hu h.regular.used_le
  have hused := (setEntry_base_used t c i raw).2
  have hentry := entryAt_setEntry t raw hcn hi
  have hroot : ∀ {r}, r ∈ roots → ∀ j, ¬(r = c ∧ j = i) := by
    rintro r hr j ⟨rfl, -⟩
    exact hc hr
  have hsame : ∀ {r}, r ∈ roots → ∀ j, (t.setEntry c i raw).childAt r j = t.childAt r j :=
    fun hr j => childAt_setEntry_of_ne t raw hcn hi (hroot hr j)
  exact {
    regular := h.regular.setEntry hu hi raw
    root_mem := fun r hr => ⟨(h.root_mem r hr).1, hused.symm ▸ (h.root_mem r hr).2⟩
    root_entry := by
      intro r hr j
      rw [hentry, if_neg (hroot hr j), hsame hr]
      exact h.root_entry r hr j
    child_owned := by
      intro d hlow hd hnot
      obtain ⟨r, hr, j, hj⟩ := h.child_owned d hlow (hused ▸ hd) hnot
      exact ⟨r, hr, j, by rw [hsame hr, hj]⟩
    child_unique := by
      intro r hr r' hr' j j' d hd hd'
      rw [hsame hr] at hd
      rw [hsame hr'] at hd'
      exact h.child_unique r hr r' hr' j j' d hd hd'
    child_entry := by
      intro d hlow hd hnot j
      rw [hentry]
      split
      · exact .inr hleaf
      · exact h.child_entry d hlow (hused ▸ hd) hnot j
    child_leaf := by
      intro d hlow hd hnot
      obtain ⟨j, hj⟩ := h.child_leaf d hlow (hused ▸ hd) hnot
      refine ⟨j, ?_⟩
      rw [hentry]
      split
      · exact hleaf
      · exact hj }

/-- A root that holds leaves only becomes a child when an empty entry of another root is made to
point at it. -/
theorem adopt (h : t.Forest low roots) {r c : FrameId} (hr : r ∈ roots) (hc : c ∈ roots)
    (hne : r ≠ c) {s : Nat} (hs : s < F.entries) (hempty : t.entryAt r s = 0)
    (hentries : ∀ i, t.entryAt c i = 0 ∨ F.IsLeaf (t.entryAt c i) 1)
    (hleaf : ∃ i, F.IsLeaf (t.entryAt c i) 1) {raw : UInt64}
    (hchild : (t.setEntry r s raw).childAt r s = some c) :
    (t.setEntry r s raw).Forest low (roots.filter (· ≠ c)) := by
  have hrn := h.root_lt hr
  have hused := (setEntry_base_used t r s raw).2
  have hentry := entryAt_setEntry t raw hrn hs
  have hmem : ∀ {f}, f ∈ roots.filter (· ≠ c) ↔ f ∈ roots ∧ f ≠ c := by
    intro f
    rw [List.mem_filter, decide_eq_true_iff]
  have hother : ∀ f, f ≠ r → ∀ j, (t.setEntry r s raw).entryAt f j = t.entryAt f j := by
    intro f hf j
    rw [hentry, if_neg]
    rintro ⟨rfl, -⟩
    exact hf rfl
  -- A pointer is the new one, or has been there before and points at another child.
  have hback : ∀ f ∈ roots, ∀ j d, (t.setEntry r s raw).childAt f j = some d →
      (f = r ∧ j = s ∧ d = c) ∨ (t.childAt f j = some d ∧ d ≠ c) := by
    intro f hf j d hd
    by_cases hsame : f = r ∧ j = s
    · obtain ⟨rfl, rfl⟩ := hsame
      exact .inl ⟨rfl, rfl, Option.some.inj (hd.symm.trans hchild)⟩
    · rw [childAt_setEntry_of_ne t raw hrn hs hsame] at hd
      exact .inr ⟨hd, fun he => (h.child_mem hf hd).2.2 (he ▸ hc)⟩
  have hkeep : ∀ {f j d}, t.childAt f j = some d →
      (t.setEntry r s raw).childAt f j = some d := by
    intro f j d hd
    rw [childAt_setEntry_of_ne t raw hrn hs, hd]
    rintro ⟨rfl, rfl⟩
    exact childAt_ne_zero hd hempty
  exact {
    regular := h.regular.setEntry (h.root_mem r hr).2 hs raw
    root_mem := fun f hf => hused.symm ▸ h.root_mem f (hmem.mp hf).1
    root_entry := by
      intro f hf j
      obtain ⟨hf, hfc⟩ := hmem.mp hf
      by_cases hsame : f = r ∧ j = s
      · obtain ⟨rfl, rfl⟩ := hsame
        exact .inr (.inr ⟨c, hchild, (h.root_mem c hc).1, fun hm => (hmem.mp hm).2 rfl⟩)
      · rw [hentry, if_neg hsame]
        refine (h.root_entry f hf j).imp_right (Or.imp_right ?_)
        rintro ⟨d, hd, hlow, hnot⟩
        exact ⟨d, hkeep hd, hlow, fun hm => hnot (hmem.mp hm).1⟩
    child_owned := by
      intro d hlow hd hnot
      by_cases hdc : d = c
      · exact ⟨r, hmem.mpr ⟨hr, hne⟩, s, hdc ▸ hchild⟩
      · obtain ⟨f, hf, j, hj⟩ := h.child_owned d hlow (hused ▸ hd) fun hm => hnot (hmem.mpr ⟨hm, hdc⟩)
        refine ⟨f, hmem.mpr ⟨hf, ?_⟩, j, hkeep hj⟩
        -- The new child points at nothing.
        rintro rfl
        rw [childAt_eq_none (hentries j)] at hj
        cases hj
    child_unique := by
      intro f hf f' hf' j j' d hd hd'
      have hfr := (hmem.mp hf).1
      have hfr' := (hmem.mp hf').1
      rcases hback f hfr j d hd with ⟨rfl, rfl, rfl⟩ | ⟨hold, hdc⟩
      · rcases hback f' hfr' j' d hd' with ⟨rfl, rfl, -⟩ | ⟨-, hdc⟩
        · exact ⟨rfl, rfl⟩
        · exact absurd rfl hdc
      · rcases hback f' hfr' j' d hd' with ⟨-, -, rfl⟩ | ⟨hold', -⟩
        · exact absurd rfl hdc
        · exact h.child_unique f hfr f' hfr' j j' d hold hold'
    child_entry := by
      intro d hlow hd hnot j
      by_cases hdc : d = c
      · rw [hdc, hother c hne.symm]
        exact hentries j
      · have hnot : d ∉ roots := fun hm => hnot (hmem.mpr ⟨hm, hdc⟩)
        rw [hother d fun he => hnot (he ▸ hr)]
        exact h.child_entry d hlow (hused ▸ hd) hnot j
    child_leaf := by
      intro d hlow hd hnot
      by_cases hdc : d = c
      · obtain ⟨i, hi⟩ := hleaf
        exact ⟨i, by rwa [hdc, hother c hne.symm]⟩
      · have hnot : d ∉ roots := fun hm => hnot (hmem.mpr ⟨hm, hdc⟩)
        obtain ⟨j, hj⟩ := h.child_leaf d hlow (hused ▸ hd) hnot
        exact ⟨j, by rwa [hother d fun he => hnot (he ▸ hr)]⟩ }

end Forest

end Tables

/-! ## Performing any plan in a forest -/

namespace Builder

/-- Of the leaves that are to be written, the first is written and the others follow, or none is. -/
theorem writeLeaves_succ (p : Plan) (tier : Tier) {frame : FrameId} (hf : frame < n)
    (first count : Nat) (w : Worksite F n) :
    (∃ stop, writeLeaves p frame tier.level first (count + 1) w = .error stop w) ∨
    ∃ i raw, i < F.entries ∧ F.IsLeaf (F.width.stored raw) tier.level ∧
      writeLeaves p frame tier.level first (count + 1) w =
        writeLeaves p frame tier.level (first + 1) count (w.perform [.write frame i raw]) := by
  rw [writeLeaves]
  cases hva : p.virtAt first with
  | error fault => exact .inl ⟨_, rfl⟩
  | ok va =>
    cases hraw : p.leafAt F first tier.level with
    | error fault => exact .inl ⟨_, rfl⟩
    | ok raw =>
      obtain ⟨base, hleaf⟩ := leaf_of_leafAt hraw
      obtain ⟨hbase, rfl⟩ := Format.of_leaf_ok (F.tier_level_lt tier) hleaf
      have hi := F.index_lt_entries va tier.level
      refine .inr ⟨_, _, hi, ⟨_, _, Format.decode_leafWord (F.tier_level_lt tier) hbase p.memory⟩, ?_⟩
      rw [bind_ok (ofFaulting_ok rfl w), bind_ok (ofFaulting_ok rfl w), bind_ok (write_ok _ hf hi w)]

/-- What the writing of leaves of a tier to a frame keeps, one leaf at a time, it keeps, whether all
leaves are written or not. -/
theorem siteAfter_writeLeaves {P : Tables F n → Prop} (p : Plan) (tier : Tier) {frame : FrameId}
    (hf : frame < n)
    (hstep : ∀ t i raw, P t → i < F.entries → F.IsLeaf (F.width.stored raw) tier.level →
      P (t.setEntry frame i raw)) (first count : Nat) {w : Worksite F n} (hw : P w.tables) :
    P (siteAfter (writeLeaves p frame tier.level first count) w).tables := by
  induction count generalizing first w with
  | zero => exact hw
  | succ count ih =>
    rcases writeLeaves_succ p tier hf first count w with ⟨stop, hrun⟩ | ⟨i, raw, hi, hleaf, hrun⟩
    · rwa [siteAfter_error hrun]
    · have hrest := ih (first + 1) (w := w.perform [.write frame i raw]) (hstep _ i raw hw hi hleaf)
      unfold siteAfter at hrest ⊢
      rw [hrun]
      exact hrest

/-- When leaves are written, and at least one of them, the frame holds a leaf. -/
theorem exists_leaf_of_writeLeaves {p : Plan} (tier : Tier) {frame : FrameId} (hf : frame < n)
    {first count : Nat} {w w' : Worksite F n} (hpos : 0 < count)
    (h : writeLeaves p frame tier.level first count w = .ok () w') :
    ∃ i, F.IsLeaf (w'.tables.entryAt frame i) tier.level := by
  obtain ⟨count, rfl⟩ := Nat.exists_eq_succ_of_ne_zero (Nat.ne_of_gt hpos)
  rcases writeLeaves_succ p tier hf first count w with ⟨stop, hrun⟩ | ⟨i, raw, hi, hleaf, hrun⟩
  · cases hrun.symm.trans h
  rw [show writeLeaves p frame tier.level first (count + 1) w = _ from hrun] at h
  -- The first leaf is there, and the others leave it or put a leaf in its place.
  have hrest := siteAfter_writeLeaves (P := fun t => ∃ i, F.IsLeaf (t.entryAt frame i) tier.level) p
    tier hf ?_ (first + 1) count (w := w.perform [.write frame i raw]) ⟨i, ?_⟩
  · rwa [siteAfter_ok h] at hrest
  · rintro t i raw ⟨j, hj⟩ hi hleaf
    refine ⟨j, ?_⟩
    rw [Tables.entryAt_setEntry t raw hf hi]
    split
    · exact hleaf
    · exact hj
  · show F.IsLeaf ((w.tables.setEntry frame i raw).entryAt frame i) tier.level
    rw [Tables.entryAt_setEntry _ raw hf hi, if_pos ⟨rfl, rfl⟩]
    exact hleaf

end Builder

namespace Tables

/-- Whether the frames in use form a forest that has the frames `roots` among its roots. -/
def Stands (t : Tables F n) (roots : List FrameId) : Prop :=
  ∃ all, (∀ r ∈ roots, r ∈ all) ∧ t.Forest 0 all

/-- The storage `t`, with roots `all`, while a child is made for the entry at `slot` of `root`: one
more frame is in use, which holds leaves, and the entry does not point at it yet. -/
structure Sown (t t' : Tables F n) (all : List FrameId) (root : FrameId) (slot : Nat) : Prop where
  /-- the new frame is a root for now -/
  forest : t'.Forest 0 (all ++ [t.used])
  /-- the new frame holds nothing but leaves -/
  entry : ∀ i, t'.entryAt t.used i = 0 ∨ F.IsLeaf (t'.entryAt t.used i) 1
  /-- the frames are where they were -/
  base_eq : t'.base = t.base
  /-- no other frame has been handed out -/
  used_eq : t'.used = t.used + 1
  /-- the entry is empty -/
  empty : t'.entryAt root slot = 0

namespace Sown

variable {t t' : Tables F n} {all : List FrameId} {root : FrameId} {slot : Nat}

/-- The new frame is handed out. -/
theorem start (h : t.Forest 0 all) (hu : t.used < n)
    (hz : t.entryAt root slot = 0) : t.Sown t.takeFrame all root slot where
  forest := h.addRoot (Nat.zero_le _) hu
  entry := fun i => .inl ((entryAt_takeFrame t _ i).trans (if_pos rfl))
  base_eq := rfl
  used_eq := rfl
  empty := (h.regular.entryAt_takeFrame root slot).trans hz

/-- A leaf is written to the new frame. -/
theorem writeLeaf (h : t.Sown t' all root slot) (hr : root < t.used) {i : Nat} {raw : UInt64}
    (hi : i < F.entries) (hleaf : F.IsLeaf (F.width.stored raw) 1) :
    t.Sown (t'.setEntry t.used i raw) all root slot := by
  have hmem : t.used ∈ all ++ [t.used] := List.mem_append_right _ List.mem_cons_self
  have hentry := entryAt_setEntry t' raw (h.forest.root_lt hmem) hi
  obtain ⟨hbase, hused⟩ := setEntry_base_used t' t.used i raw
  refine ⟨?_, fun j => ?_, hbase.trans h.base_eq, hused.trans h.used_eq, ?_⟩
  · have hkept := h.forest.writeLeaf_root hmem hi hleaf.at_root
    rwa [childAt_eq_none (h.entry i), Option.toList_none, List.append_nil] at hkept
  · rw [hentry]
    split
    · exact .inr hleaf
    · exact h.entry j
  · rw [hentry, if_neg, h.empty]
    rintro ⟨he, -⟩
    exact Nat.ne_of_lt hr he

/-- The entry is made to point at the new frame, which holds a leaf. -/
theorem publish (h : t.Sown t' all root slot) (hf : t.Forest 0 all) (hr : root ∈ all)
    (hplaced : F.Placed n t.base) (hu : t.used < n) (hi : slot < F.entries)
    (hexists : ∃ i, F.IsLeaf (t'.entryAt t.used i) 1) :
    (t'.setEntry root slot (F.pointerWord (t'.frameAddress t.used))).Stands all := by
  obtain ⟨hbase, hused⟩ := setEntry_base_used t' root slot (F.pointerWord (t'.frameAddress t.used))
  have hchild : (t'.setEntry root slot (F.pointerWord (t'.frameAddress t.used))).childAt root slot =
      some t.used := by
    refine childAt_of_pointer ?_ ?_ ?_ ?_
    · rw [hbase, h.base_eq, hplaced.base_aligned]
    · rw [hused, h.used_eq]
      exact Nat.lt_succ_self _
    · rw [hbase, h.base_eq]
      exact hplaced.frame_lt _ hu
    · rw [entryAt_setEntry _ _ (hf.root_lt hr) hi, if_pos ⟨rfl, rfl⟩, frameAddress_setEntry]
  have hadopt := h.forest.adopt (List.mem_append_left _ hr)
    (List.mem_append_right _ List.mem_cons_self) (Nat.ne_of_lt (hf.root_mem root hr).2) hi h.empty
    h.entry hexists hchild
  refine ⟨_, fun r hr => ?_, hadopt⟩
  rw [List.mem_filter, decide_eq_true_iff]
  exact ⟨List.mem_append_left _ hr, Nat.ne_of_lt (hf.root_mem r hr).2⟩

end Sown

end Tables

namespace Builder

variable {roots all : List FrameId} {root : FrameId}

/-- Leaves that are written to a root, whatever they replace, leave a forest. -/
theorem stands_writeLeaves (p : Plan) {w : Worksite F n} (h : w.tables.Stands roots)
    (hr : root ∈ roots) (first count : Nat) :
    (siteAfter (writeLeaves p root 0 first count) w).tables.Stands roots := by
  obtain ⟨all, hall, hforest⟩ := h
  refine siteAfter_writeLeaves (P := fun t => t.Stands roots) p .top
    (hforest.root_lt (hall root hr)) ?_ first count ⟨all, hall, hforest⟩
  rintro t i raw ⟨all, hall, hforest⟩ hi hleaf
  exact ⟨_, fun r hr => List.mem_append_left _ (hall r hr),
    hforest.writeLeaf_root (hall root hr) hi hleaf⟩

/-- What is written for one root entry leaves a forest: a child that is filled, a child that is
added, or a table that has been filled and that nothing points at yet. -/
theorem stands_writeSlot (p : Plan) (va : VirtAddr) (step : Nat) {count : Nat} (hpos : 0 < count)
    {w : Worksite F n} (h : w.tables.Forest 0 all) (hr : root ∈ all)
    (hplaced : F.Placed n w.tables.base) :
    (siteAfter (writeSlot root p va step count) w).tables.Stands all := by
  have hreg := h.regular
  have hrootn := h.root_lt hr
  have heq := writeSlot_eq (p := p) hrootn va step count w
  rcases h.root_entry root hr (F.index va 0) with hz | ⟨base, attrs, hl⟩ | ⟨c, hc, -, hnot⟩
  · rw [hz, Format.decode_zero] at heq
    dsimp only at heq
    rcases Nat.eq_or_lt_of_le hreg.used_le with hfull | hu
    · rw [siteAfter_error (heq.trans (bind_error (allocate_error _ hfull)))]
      exact ⟨all, fun _ hr => hr, h⟩
    have hsown := siteAfter_writeLeaves (P := (w.tables.Sown · all root (F.index va 0))) p
      .intermediate hu (fun _ i raw hsown hi => hsown.writeLeaf (h.root_mem root hr).2 hi) step count
      (w := w.perform [.allocate]) (.start h hu hz)
    rw [bind_ok (allocate_ok _ hu)] at heq
    cases hleaves : writeLeaves p w.tables.used 1 step count (w.perform [.allocate]) with
    | error stop w₁ =>
      -- A leaf of the plan cannot be encoded, and nothing points at the new frame.
      rw [show Tier.intermediate.level = 1 from rfl, siteAfter_error hleaves] at hsown
      rw [siteAfter_error (heq.trans (bind_error hleaves))]
      exact ⟨_, fun _ hr => List.mem_append_left _ hr, hsown.forest⟩
    | ok _ w₁ =>
      rw [show Tier.intermediate.level = 1 from rfl, siteAfter_ok hleaves] at hsown
      have hi := F.index_lt_entries va 0
      have hexists := exists_leaf_of_writeLeaves .intermediate hu hpos hleaves
      have haligned := Tables.frameAddress_aligned (hsown.base_eq ▸ hplaced.base_aligned)
        (t := w₁.tables) w.tables.used
      rw [bind_ok hleaves, bind_ok (tables_ok w₁),
        bind_ok (ofFaulting_ok (Format.pointer_eq_ok haligned) _), write_ok _ hrootn hi] at heq
      rw [siteAfter_ok heq]
      exact hsown.publish h hr hplaced hu hi hexists
  · simp only [hl] at heq
    rw [siteAfter_error heq]
    exact ⟨all, fun _ hr => hr, h⟩
  · obtain ⟨child, hd, hf⟩ := Tables.childAt_eq_some.mp hc
    simp only [hd, hf] at heq
    have hcu := Tables.childAt_lt hc
    have hkept := siteAfter_writeLeaves
      (P := fun t => t.Forest 0 all ∧ t.used = w.tables.used) p .intermediate
      (Nat.lt_of_lt_of_le hcu hreg.used_le) ?_ step count ⟨h, rfl⟩
    · unfold siteAfter at hkept ⊢
      rw [heq]
      exact ⟨all, fun _ hr => hr, hkept.1⟩
    · rintro t i raw ⟨hforest, hused⟩ hi hleaf
      exact ⟨hforest.writeLeaf_child (Nat.zero_le c) (hused ▸ hcu) hnot hi hleaf,
        (Tables.setEntry_base_used t c i raw).2.trans hused⟩

/-- What is written for an intermediate plan leaves a forest. -/
theorem stands_writeSlots (p : Plan) (step remaining : Nat) {w : Worksite F n}
    (h : w.tables.Stands roots) (hr : root ∈ roots) (hplaced : F.Placed n w.tables.base) :
    (siteAfter (writeSlots root p step remaining) w).tables.Stands roots := by
  induction remaining using Nat.strongRecOn generalizing step w with
  | ind remaining ih =>
  rw [writeSlots]
  split
  · exact h
  · split
    · exact h
    · rename_i hpos fault va hva
      -- A visit takes at least one leaf, so the induction is on the leaves that are left.
      have hvisit := F.stepsInSlot_pos va remaining (by omega)
      refine siteAfter_bind (R := fun _ w' => w'.tables.Stands roots) (fun _ h => h) ?_ ?_
      · obtain ⟨all, hall, hforest⟩ := h
        obtain ⟨all', hall', hforest'⟩ :=
          stands_writeSlot p va step hvisit hforest (hall root hr) hplaced
        exact ⟨all', fun r hr => hall' r (hall r hr), hforest'⟩
      · intro _ w₁ hrun h₁
        obtain ⟨all, hall, hforest⟩ := h
        have hsteps := builds_writeSlot p va step (F.stepsInSlot va remaining) hforest.regular
          (hforest.root_mem root (hall root hr)).2
        unfold Builds at hsteps
        rw [siteAfter_ok hrun] at hsteps
        exact ih _ (by omega) _ h₁ (hsteps.base_eq.symm ▸ hplaced)

/-- Whatever plan is performed under a root, it leaves a forest. -/
theorem stands_apply (p : Plan) {w : Worksite F n} (h : w.tables.Stands roots) (hr : root ∈ roots)
    (hplaced : F.Placed n w.tables.base) : (siteAfter (apply root p) w).tables.Stands roots := by
  unfold apply
  split
  · exact stands_writeLeaves p h hr 0 p.steps
  · exact stands_writeSlots p 0 p.steps h hr hplaced

end Builder

/-! ## Raised storage -/

namespace Tables

/-- Storage that comes from empty storage by handing out the roots `roots`, and by making calls and
performing plans under them, whatever they are and whether they succeed. -/
inductive Raised : Tables F n → List FrameId → Prop where
  /-- nothing has been done -/
  | empty (base : PhysAddr) : Raised (.empty F n base) []
  /-- a root is handed out -/
  | addRoot {t : Tables F n} {roots : List FrameId} (h : Raised t roots) (hu : t.used < n) :
    Raised t.takeFrame (roots ++ [t.used])
  /-- a call is made for a root -/
  | call {w : Worksite F n} {roots : List FrameId} (h : Raised w.tables roots) {root : FrameId}
    (hr : root ∈ roots) (c : Call) : Raised (Builder.siteAfter (c.run root) w).tables roots
  /-- a plan is performed under a root -/
  | perform {w : Worksite F n} {roots : List FrameId} (h : Raised w.tables roots) {root : FrameId}
    (hr : root ∈ roots) (p : Plan) : Raised (Builder.siteAfter (Builder.apply root p) w).tables roots

namespace Raised

variable {t : Tables F n} {roots : List FrameId}

/-- Raised storage can be reached, and its roots are in use. -/
theorem reachable (h : t.Raised roots) : t.Reachable ∧ ∀ r ∈ roots, r < t.used := by
  induction h with
  | empty base => exact ⟨.empty base, fun r hr => absurd hr List.not_mem_nil⟩
  | addRoot h hu ih =>
    refine ⟨.allocate ih.1 hu, fun r hr => ?_⟩
    rcases List.mem_append.mp hr with hr | hr
    · exact Nat.lt_succ_of_lt (ih.2 r hr)
    · rw [List.mem_singleton.mp hr]
      exact Nat.lt_succ_self _
  | call h hr c ih =>
    have hroot := ih.2 _ hr
    have hused := ((Builder.builds_call c ih.1.regular hroot).regular ih.1.regular).2
    exact ⟨.call ih.1 hroot c, fun r hr => Nat.lt_of_lt_of_le (ih.2 r hr) hused⟩
  | perform h hr p ih =>
    have hroot := ih.2 _ hr
    have hused := ((Builder.builds_apply p ih.1.regular hroot).regular ih.1.regular).2
    exact ⟨.perform ih.1 hroot p, fun r hr => Nat.lt_of_lt_of_le (ih.2 r hr) hused⟩

/-- Raised storage is a forest that has the roots that were handed out among its roots, when the
format holds the addresses of the frames. -/
theorem stands (h : t.Raised roots) (hplaced : F.Placed n t.base) : t.Stands roots := by
  induction h with
  | empty base => exact ⟨[], fun _ hr => hr, .ofRegular (.empty base)⟩
  | addRoot h hu ih =>
    obtain ⟨all, hall, hforest⟩ := ih hplaced
    refine ⟨_, fun r hr => ?_, hforest.addRoot (Nat.zero_le _) hu⟩
    rcases List.mem_append.mp hr with hr | hr
    · exact List.mem_append_left _ (hall r hr)
    · exact List.mem_append_right _ hr
  | @call w roots h root hr c ih =>
    have hreach := h.reachable
    have hbase := (Builder.builds_call c hreach.1.regular (hreach.2 _ hr)).base_eq ▸ hplaced
    obtain ⟨all, hall, hforest⟩ := ih hbase
    refine ⟨all, hall, ?_⟩
    -- A call is refused, or performs its plan to the end.
    rcases Call.run_cases hforest (hall root hr) hbase c with
      ⟨e, hrun⟩ | ⟨p, es, w', hrun, -, -, -, -, hforest'⟩
    · rwa [Builder.siteAfter_error hrun]
    · rwa [Builder.siteAfter_ok hrun]
  | perform h hr p ih =>
    have hreach := h.reachable
    have hbase := (Builder.builds_apply p hreach.1.regular (hreach.2 _ hr)).base_eq ▸ hplaced
    exact Builder.stands_apply p (ih hbase) hr hbase

end Raised

end Tables

end BootLoader.Paging
