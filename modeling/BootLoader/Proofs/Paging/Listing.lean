import BootLoader.Proofs.Paging.Trace

/-!
# What a table listing shows

The listing of a root of storage that is raised from its roots ends (`Tables.Shows.ends`). It reads
the root and each of its children once, in the order of the entries that point at them
(`Tables.Shows.visits`), and gives one line for each valid entry, the lines of a child right after the
line that points at it (`Tables.Shows.order`). The lines say all that a walk does: an address is
translated exactly when a line for a leaf covers it, and to where that leaf leads
(`Tables.Shows.maps`).
-/

namespace BootLoader.Paging

variable {F : Format} {n : Nat}

/-! ## What the lines say -/

/-- Addresses that a leaf maps, by their places among those that its root covers. -/
structure LeafRange where
  /-- the place of the first one -/
  first : Nat
  /-- the number of addresses -/
  size : Nat
  /-- the physical address of the first one -/
  base : PhysAddr

/-- Whether an address is one of the range. -/
def LeafRange.Covers (F : Format) (r : LeafRange) (va : VirtAddr) : Prop :=
  r.first ≤ va.toNat % F.coverage ∧ va.toNat % F.coverage < r.first + r.size

/-- Where the range leads an address. -/
def LeafRange.image (F : Format) (r : LeafRange) (va : VirtAddr) : PhysAddr :=
  r.base.offset (UInt64.ofNat (va.toNat % F.coverage - r.first))

namespace Format

/-- The range of a line for a leaf, in the root or in the child at which its entry `slot` points. -/
def leafRange (F : Format) (slot : Nat) (e : ListedEntry) : Option LeafRange :=
  match F.decode e.raw e.level with
  | .leaf base _ =>
    some ⟨(if e.level = 0 then 0 else slot * F.levelSize 0) + e.index * F.levelSize e.level,
      F.levelSize e.level, base⟩
  | _ => none

/-- The ranges of the leaves of a listing: a line of a child belongs to the last line of the root
before it, which is for entry `slot` at first. -/
def leafRanges (F : Format) : (slot : Nat) → List ListedEntry → List LeafRange
  | _, [] => []
  | slot, e :: es =>
    let slot := if e.level = 0 then e.index else slot
    (F.leafRange slot e).toList ++ leafRanges F slot es

/-- Lines of one child all belong to the same line of the root. -/
theorem leafRanges_append (F : Format) (slot : Nat) {es : List ListedEntry}
    (hes : ∀ e ∈ es, e.level ≠ 0) (rest : List ListedEntry) :
    F.leafRanges slot (es ++ rest) =
      es.filterMap (F.leafRange slot) ++ F.leafRanges slot rest := by
  induction es with
  | nil => rfl
  | cons e es ih =>
    obtain ⟨he, hes⟩ := List.forall_mem_cons.mp hes
    rw [List.cons_append, leafRanges, if_neg he, ih hes, ← List.append_assoc,
      List.filterMap_eq_flatMap_toList, List.filterMap_eq_flatMap_toList, List.flatMap_cons]

/-- The ranges of a listing whose lines of the root are each followed by those of a child. -/
theorem leafRanges_flatMap (F : Format) (slot : Nat) {below : ListedEntry → List ListedEntry}
    {es : List ListedEntry} (hes : ∀ e ∈ es, e.level = 0)
    (hbelow : ∀ e ∈ es, ∀ e' ∈ below e, e'.level ≠ 0) :
    F.leafRanges slot (es.flatMap fun e => e :: below e) =
      es.flatMap fun e => (e :: below e).filterMap (F.leafRange e.index) := by
  induction es generalizing slot with
  | nil => rfl
  | cons e es ih =>
    obtain ⟨he, hes⟩ := List.forall_mem_cons.mp hes
    obtain ⟨hfirst, hbelow⟩ := List.forall_mem_cons.mp hbelow
    -- The line of the root takes the slot over, whatever it was before.
    rw [List.flatMap_cons, List.cons_append, leafRanges, if_pos he,
      F.leafRanges_append e.index hfirst, ih e.index hes hbelow, List.flatMap_cons,
      ← List.append_assoc, List.filterMap_eq_flatMap_toList, List.filterMap_eq_flatMap_toList,
      List.flatMap_cons]

/-- The range of a leaf of a tier, at `place` of the table under entry `slot` of a root. -/
def tierRange (F : Format) (tier : Tier) (slot place : Nat) (base : PhysAddr) : LeafRange :=
  ⟨(if tier.level = 0 then 0 else slot * F.levelSize 0) + place * F.levelSize tier.level,
    F.levelSize tier.level, base⟩

/-- The number of the block that a leaf of a tier maps. -/
def blockNumber (F : Format) : Tier → (slot place : Nat) → Nat
  | .top, _, place => place
  | .intermediate, slot, place => slot * F.entries + place

/-- The range of a leaf starts where its block does. -/
theorem first_tierRange (F : Format) (tier : Tier) (slot place : Nat) (base : PhysAddr) :
    (F.tierRange tier slot place base).first =
      F.blockNumber tier slot place * F.levelSize tier.level := by
  cases tier with
  | top => exact Nat.zero_add _
  | intermediate =>
    calc slot * F.levelSize 0 + place * F.levelSize 1
      _ = slot * (F.entries * F.levelSize 1) + place * F.levelSize 1 := by
        rw [levelSize_zero, Nat.mul_comm F.entries]
      _ = (slot * F.entries + place) * F.levelSize 1 := by rw [Nat.add_mul, Nat.mul_assoc]

/-- A leaf covers the addresses of its block. -/
theorem covers_tierRange_iff (F : Format) (tier : Tier) (slot place : Nat) (base : PhysAddr)
    (va : VirtAddr) :
    (F.tierRange tier slot place base).Covers F va ↔
      F.block va tier.level = F.blockNumber tier slot place := by
  unfold LeafRange.Covers
  rw [first_tierRange]
  unfold block
  rw [Nat.div_eq_iff (F.levelSize_pos _)]
  show _ ∧ _ < _ + F.levelSize tier.level ↔ _
  have := F.levelSize_pos tier.level
  omega

/-- The entries that an address selects are those of the leaf that covers it. -/
theorem block_eq_blockNumber_iff {tier : Tier} {slot place : Nat} {va : VirtAddr}
    (hplace : place < F.entries) (htop : tier = .top → place = slot) :
    F.block va tier.level = F.blockNumber tier slot place ↔
      F.index va 0 = slot ∧ F.index va tier.level = place := by
  cases tier with
  | top =>
    obtain rfl := htop rfl
    show F.block va 0 = place ↔ F.index va 0 = place ∧ F.index va 0 = place
    rw [block_zero, and_self]
  | intermediate =>
    show F.block va 1 = slot * F.entries + place ↔ _
    rw [block_one]
    exact digits_eq_iff (F.index_lt_entries va 1) hplace

/-- A leaf leads an address that it covers as far into its block as the address is. -/
theorem image_tierRange {tier : Tier} {slot place : Nat} {base : PhysAddr} {va : VirtAddr}
    (h : (F.tierRange tier slot place base).Covers F va) :
    (F.tierRange tier slot place base).image F va =
      base.offset (UInt64.ofNat (F.blockOffset va tier.level)) := by
  have hblock := (F.covers_tierRange_iff tier slot place base va).mp h
  unfold LeafRange.image
  rw [first_tierRange, ← hblock, ← block_add_blockOffset va tier.level, Nat.add_sub_cancel_left]
  rfl

/-- The range of a line for a leaf of a tier. -/
theorem leafRange_eq_some_iff (tier : Tier) {slot : Nat} {e : ListedEntry} {r : LeafRange}
    (hlevel : e.level = tier.level) :
    F.leafRange slot e = some r ↔ ∃ base attrs, F.decode e.raw tier.level = .leaf base attrs ∧
      r = F.tierRange tier slot e.index base := by
  unfold leafRange tierRange
  rw [hlevel]
  -- Only a leaf has a range.
  cases F.decode e.raw tier.level with
  | invalid => simp
  | leaf base attrs => simp [eq_comm]
  | next child => simp

end Format

namespace Tables

variable {t : Tables F n} {low root : FrameId} {roots : List FrameId}

/-- A line right after one of the root is for the child at which that one points. -/
theorem exists_child_of_mem {e e' : ListedEntry} (he : e ∈ t.tableLines root 0)
    (he' : e' ∈ (t.target e).elim [] (t.tableLines · 1)) :
    ∃ c, t.childAt root e.index = some c ∧ e' ∈ t.tableLines c 1 := by
  rw [← target_eq_childAt he]
  cases hc : t.target e with
  | none =>
    rw [hc] at he'
    cases he'
  | some c => exact ⟨c, rfl, by rwa [hc] at he'⟩

/-- The ranges of the lines of a root, line by line. -/
theorem leafRanges_rootLines (t : Tables F n) (root : FrameId) (slot : Nat) :
    F.leafRanges slot (t.rootLines root) = (t.tableLines root 0).flatMap fun e =>
      (e :: (t.target e).elim [] (t.tableLines · 1)).filterMap (F.leafRange e.index) := by
  refine F.leafRanges_flatMap slot (fun e he => (mem_tableLines.mp he).2.1) fun e he e' he' => ?_
  obtain ⟨c, -, hmem⟩ := exists_child_of_mem he he'
  rw [(mem_tableLines.mp hmem).2.1]
  decide

/-- The ranges of the lines of a root are those of the leaves in the root and in its children. -/
theorem mem_leafRanges_rootLines {r : LeafRange} :
    r ∈ F.leafRanges 0 (t.rootLines root) ↔ ∃ tier slot place f base attrs,
      slot < F.entries ∧ place < F.entries ∧ (tier = .top → place = slot) ∧
        t.tableAt root tier slot = some f ∧
          F.decode (t.entryAt f place) tier.level = .leaf base attrs ∧
            r = F.tierRange tier slot place base := by
  rw [leafRanges_rootLines]
  simp only [List.mem_flatMap, List.mem_filterMap, List.mem_cons]
  constructor
  · -- A line is one of the root, or one right after it and then of a child.
    rintro ⟨e, he, e', rfl | he', hrange⟩
    · obtain ⟨hi, hlevel, hraw, -⟩ := mem_tableLines.mp he
      obtain ⟨base, attrs, hleaf, hr⟩ := (Format.leafRange_eq_some_iff .top hlevel).mp hrange
      exact ⟨.top, _, _, root, base, attrs, hi, hi, fun _ => rfl, rfl, hraw ▸ hleaf, hr⟩
    · obtain ⟨c, hc, hmem⟩ := exists_child_of_mem he he'
      obtain ⟨hi, hlevel, hraw, -⟩ := mem_tableLines.mp hmem
      obtain ⟨base, attrs, hleaf, hr⟩ :=
        (Format.leafRange_eq_some_iff .intermediate hlevel).mp hrange
      exact ⟨.intermediate, _, _, c, base, attrs, (mem_tableLines.mp he).1, hi, nofun, hc,
        hraw ▸ hleaf, hr⟩
  · rintro ⟨tier, slot, place, f, base, attrs, hslot, hplace, htop, htable, hleaf, rfl⟩
    have hvalid : (F.decode (t.entryAt f place) tier.level).isValid := by rw [hleaf]; rfl
    have hline : ⟨tier.level, place, t.entryAt f place⟩ ∈ t.tableLines f tier.level :=
      mem_tableLines.mpr ⟨hplace, rfl, rfl, hvalid⟩
    have hrange : F.leafRange slot ⟨tier.level, place, t.entryAt f place⟩ =
        some (F.tierRange tier slot place base) :=
      (Format.leafRange_eq_some_iff tier rfl).mpr ⟨base, attrs, hleaf, rfl⟩
    cases tier with
    | top =>
      obtain rfl : root = f := Option.some.inj htable
      obtain rfl := htop rfl
      exact ⟨_, hline, _, .inl rfl, hrange⟩
    | intermediate =>
      obtain ⟨child, hd, -⟩ := childAt_eq_some.mp htable
      -- The line of a child comes right after the line that points at the child.
      have hpointer : ⟨0, slot, t.entryAt root slot⟩ ∈ t.tableLines root 0 :=
        mem_tableLines.mpr ⟨hslot, rfl, rfl, by rw [hd]; rfl⟩
      refine ⟨_, hpointer, _, .inr ?_, hrange⟩
      rw [target_eq_childAt hpointer, show t.childAt root slot = some f from htable]
      exact hline

/-- An address is in the range of a line exactly when the walk for it ends at that leaf. -/
theorem covered_iff_walkEnds {va : VirtAddr} {pa : PhysAddr} :
    (∃ r ∈ F.leafRanges 0 (t.rootLines root), r.Covers F va ∧ r.image F va = pa) ↔
      t.WalkEnds root va (some pa) := by
  constructor
  · rintro ⟨r, hr, hcovers, rfl⟩
    obtain ⟨tier, slot, place, f, base, attrs, -, hplace, htop, htable, hleaf, rfl⟩ :=
      mem_leafRanges_rootLines.mp hr
    rw [Format.image_tierRange hcovers]
    obtain ⟨rfl, rfl⟩ := (Format.block_eq_blockNumber_iff hplace htop).mp
      ((F.covers_tierRange_iff tier slot place base va).mp hcovers)
    exact .leaf tier f base attrs htable hleaf
  · intro hwalk
    cases hwalk with
    | leaf tier f base attrs htable hleaf =>
      have htop : tier = .top → F.index va tier.level = F.index va 0 := by
        rintro rfl
        rfl
      have hplace := F.index_lt_entries va tier.level
      have hcovers := (F.covers_tierRange_iff tier (F.index va 0) (F.index va tier.level) base va).mpr
        ((Format.block_eq_blockNumber_iff hplace htop).mpr ⟨rfl, rfl⟩)
      exact ⟨_, mem_leafRanges_rootLines.mpr ⟨tier, _, _, f, base, attrs, F.index_lt_entries va 0,
        hplace, htop, htable, hleaf, rfl⟩, hcovers, Format.image_tierRange hcovers⟩

/-! ## What a listing shows -/

/-- What the lines `lines` of the listing of the table in `root` show. -/
structure Shows (t : Tables F n) (root : FrameId) (lines : List ListedEntry) : Prop where
  /-- the listing ends with these lines, and no limit on its depth has a part in it -/
  ends : ∀ depth, t.listFrom (depth + 2) root 0 = .ok lines
  /-- the listing reads the root, then its children in the order of the entries that point at them,
  and none of these frames twice -/
  visits : ∃ steps, (∀ depth, t.traceFrom (depth + 2) root 0 = .ok steps) ∧
    steps.filterMap ListingStep.line? = lines ∧
      steps.filterMap ListingStep.frame? = t.rootFrames root ∧ (t.rootFrames root).Nodup
  /-- there is one line for each valid entry of the root, in the order of the entries, and right after
  it one line at level 1 for each valid entry of the child at which it points -/
  order : lines = (t.tableLines root 0).flatMap fun e =>
    e :: (t.target e).elim [] (t.tableLines · 1)
  /-- an address is translated when a line for a leaf covers it, and to where this leaf leads -/
  maps : ∀ va, ∃ found, t.translate root va = .ok found ∧
    ∀ pa, found = some pa ↔ ∃ r ∈ F.leafRanges 0 lines, r.Covers F va ∧ r.image F va = pa

/-- The lines of a root of a forest show it. -/
theorem Forest.shows (h : t.Forest low roots) (hr : root ∈ roots) :
    t.Shows root (t.rootLines root) where
  ends := by
    intro depth
    rw [listFrom_eq_trace, h.traceFrom_root hr, ← lines_rootSteps]
    rfl
  visits := ⟨_, h.traceFrom_root hr, lines_rootSteps t root, frames_rootSteps t root,
    h.nodup_rootFrames hr⟩
  order := rfl
  maps := by
    intro va
    obtain ⟨found, hwalk⟩ := h.walkEnds hr va
    refine ⟨found, h.translate_eq hr hwalk, fun pa => ?_⟩
    rw [covered_iff_walkEnds]
    constructor
    · rintro rfl
      exact hwalk
    · -- A walk from a root of a forest ends at one address.
      intro hwalk'
      have hsame := (h.translate_eq hr hwalk).symm.trans (h.translate_eq hr hwalk')
      exact Except.ok.inj hsame

/-- The listing of a root of storage that is raised from its roots has lines, and they show the root:
the listing ends, reads no frame twice, has one line for each valid entry of the root and of its
children, each child right after the line that points at it, and covers with its leaves exactly the
addresses that are translated. -/
theorem Raised.shows_listing (h : t.Raised roots) (hplaced : F.Placed n t.base)
    (hr : root ∈ roots) : ∃ lines, t.listing root 0 = .ok lines ∧ t.Shows root lines := by
  obtain ⟨all, hall, hforest⟩ := h.stands hplaced
  have hshows := hforest.shows (hall root hr)
  refine ⟨_, ?_, hshows⟩
  -- The limit on the depth of a listing is more than the two levels that it needs.
  obtain ⟨depth, hdepth⟩ : ∃ depth, t.used + F.levels + 1 = depth + 2 :=
    ⟨t.used + F.levels - 1, by have := F.two_le_levels; omega⟩
  unfold listing
  rw [hdepth, hshows.ends depth]

/-- A range of two blocks: there are a line for the root entry that points at the child, and lines for
the two leaves of the child. -/
theorem Raised.shows_listing_sv39 :
    let w : Worksite .sv39 2 :=
      Builder.siteAfter ((Call.map ⟨0x80200000⟩ ⟨0x80200000⟩ 0x400000).run 0)
        { tables := (Tables.empty .sv39 2 ⟨0x80400000⟩).takeFrame }
    w.tables.Raised [0] ∧ Format.Placed .sv39 2 w.tables.base ∧ ∃ lines,
      w.tables.listing 0 0 = .ok lines ∧ w.tables.Shows 0 lines ∧ ⟨0, 2, 0x20100401⟩ ∈ lines ∧
        ⟨1, 1, 0x200800ef⟩ ∈ lines ∧ ⟨1, 2, 0x201000ef⟩ ∈ lines := by
  intro w
  have hraised : w.tables.Raised [0] := .call (.addRoot (.empty _) (by decide)) List.mem_cons_self _
  have hplaced : Format.Placed .sv39 2 w.tables.base := ⟨by decide +kernel, by decide +kernel⟩
  obtain ⟨lines, hlisting, hshows⟩ := Raised.shows_listing hraised hplaced List.mem_cons_self
  have hpointer : ⟨0, 2, 0x20100401⟩ ∈ w.tables.tableLines 0 0 :=
    mem_tableLines.mpr ⟨by decide, rfl, by decide +kernel, by decide⟩
  have htarget : w.tables.target ⟨0, 2, 0x20100401⟩ = some 1 := by decide +kernel
  have hchild : ∀ e ∈ w.tables.tableLines 1 1, e ∈ lines := by
    intro e he
    rw [hshows.order]
    refine List.mem_flatMap.mpr ⟨_, hpointer, List.mem_cons_of_mem _ ?_⟩
    rw [htarget, Option.elim_some]
    exact he
  refine ⟨hraised, hplaced, lines, hlisting, hshows, ?_, hchild _ ?_, hchild _ ?_⟩
  · rw [hshows.order]
    exact List.mem_flatMap.mpr ⟨_, hpointer, List.mem_cons_self⟩
  · exact mem_tableLines.mpr ⟨by decide, rfl, by decide +kernel, by decide⟩
  · exact mem_tableLines.mpr ⟨by decide, rfl, by decide +kernel, by decide⟩

end Tables

end BootLoader.Paging
