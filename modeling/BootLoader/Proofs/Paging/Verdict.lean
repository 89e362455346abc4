import BootLoader.Proofs.Paging.Canonical
import BootLoader.Proofs.Paging.Lookup
import BootLoader.Proofs.Paging.Raising
import BootLoader.Proofs.Paging.Slots

/-!
# The verdict of planning

A leaf of a request is *disputed* when one of its bytes is mapped already, by another leaf than the
one that the plan would write (`Tables.Disputes`). Planning does not compare mappings but words:
those of the root with leaves of the top tier, and those of each child with leaves of the
intermediate tier. In a forest it finds the disputed leaves all the same
(`Tables.Forest.admits_iff`). A leaf of the root maps all that a child would, at another level, and
a child holds a leaf, so a pointer at it disputes a leaf of the top tier.

Planning then counts visits without a child, which for a straight range are its vacancies. So the
verdict on a request can be told from the mappings and the empty entries of the root alone
(`Tables.Raised.plan_verdict`).
-/

namespace BootLoader.Paging

variable {F : Format} {n : Nat}

/-! ## Requests -/

/-- A range of canonical addresses in one half of the address space lies between two multiples of
the coverage. -/
theorem Plan.straight_of_canonical {p : Plan} (hpos : 0 < p.span)
    (hend : p.virt.toNat + p.span ≤ wordCount) (hcanonical : ∀ a, p.Covers a → F.IsCanonical a)
    (hhalf : p.virt.toNat + p.span ≤ wordCount / 2 ∨ wordCount / 2 ≤ p.virt.toNat) :
    p.Straight F := by
  have hcoverage := F.lowLimit_le_coverage
  have hlow : 2 * F.lowLimit ≤ wordCount := by cases F <;> decide
  have hfirst := hcanonical p.virt.toNat ⟨Nat.le_refl _, by omega⟩
  have hlast := hcanonical (p.virt.toNat + (p.span - 1)) ⟨by omega, by omega⟩
  unfold Format.IsCanonical at hfirst hlast
  unfold Straight
  rcases hhalf with hhalf | hhalf
  · rw [Nat.mod_eq_of_lt (by omega)]
    omega
  · -- The address space ends at a multiple of the coverage.
    obtain ⟨k, hk⟩ : ∃ k, wordCount = F.coverage + F.coverage * k := by
      cases F with
      | sv32 => exact ⟨2 ^ 32 - 1, rfl⟩
      | sv39 => exact ⟨2 ^ 25 - 1, rfl⟩
      | sv48 => exact ⟨2 ^ 16 - 1, rfl⟩
      | aarch64 => exact ⟨2 ^ 25 - 1, rfl⟩
    have hvirt : p.virt.toNat = F.coverage - (wordCount - p.virt.toNat) + F.coverage * k := by omega
    have hmod : p.virt.toNat % F.coverage = F.coverage - (wordCount - p.virt.toNat) := by
      rw [hvirt, Nat.add_mul_mod_self_left, ← hvirt, Nat.mod_eq_of_lt (by omega)]
    omega

/-- The plan for `size` bytes from `virt` to `phys` with the leaves of a tier, for tables that lack
none. -/
def Format.request (F : Format) (tier : Tier) (virt : VirtAddr) (phys : PhysAddr) (size : UInt64)
    (memory : Memory) : Plan :=
  let granule := F.levelSize tier.level
  ⟨tier, virt, phys, (size.toNat + (granule - 1)) / granule, granule, 0, memory⟩

/-- A straight request whose ranges stay in the address space has an outline. -/
theorem Format.outline_request {tier : Tier} {virt : VirtAddr} {phys : PhysAddr} {size : UInt64}
    {memory : Memory} (hsize : 0 < size.toNat) (htier : F.selectTier virt phys = some tier) :
    let p := F.request tier virt phys size memory
    virt.toNat + p.span ≤ wordCount → phys.toNat + p.span ≤ wordCount → p.Straight F →
      F.outline virt phys size memory = .ok p := by
  intro p hvirt hphys hstraight
  have hcoverage := F.coverage_lt_wordCount
  have hlevel := F.levelSize_pos tier.level
  have hpos : 0 < p.span := Nat.mul_pos (Nat.div_pos (by omega) hlevel) hlevel
  have hne : (size == 0) = false := by
    refine beq_false_of_ne fun h0 => ?_
    rw [h0] at hsize
    exact Nat.lt_irrefl 0 hsize
  have hle : virt.toNat % F.coverage + p.span ≤ F.coverage := hstraight
  -- The last byte is as far from a multiple of the coverage as the first one and the span are.
  have hlast : ¬F.index (.ofNat (virt.toNat + (p.span - 1))) 0 < F.index virt 0 := by
    rw [← F.block_zero, ← F.block_zero, Format.block, Format.block,
      Address.toNat_ofNat_of_lt (by omega), ← Nat.mod_add_mod, Nat.mod_eq_of_lt (a := _ + _) (by omega)]
    exact Nat.not_lt_of_le (Nat.div_le_div_right (Nat.le_add_right _ _))
  have hends : ¬(decide (wordCount ≤ virt.toNat + (p.span - 1)) ||
      decide (wordCount ≤ phys.toNat + (p.span - 1))) = true := by
    simp only [Bool.or_eq_true, decide_eq_true_eq]
    omega
  have hwraps : ¬(decide (F.coverage < p.span) ||
      decide (F.index (.ofNat (virt.toNat + (p.span - 1))) 0 < F.index virt 0)) = true := by
    simp only [Bool.or_eq_true, decide_eq_true_eq, not_or]
    exact ⟨by omega, hlast⟩
  have hword : ¬wordCount ≤ p.span := by omega
  unfold outline
  simp only [hne, htier, bind, Except.bind, pure, Except.pure]
  exact (if_neg Bool.false_ne_true).trans
    ((if_neg hword).trans ((if_neg hends).trans (if_neg hwraps)))

/-! ## Disputed leaves -/

namespace Tables

/-- Whether some byte of leaf number `j` of a plan is mapped under the table in `root` already, by a
leaf other than the one that the plan would write. -/
def Disputes (t : Tables F n) (root : FrameId) (p : Plan) (j : Nat) : Prop :=
  ∃ va : VirtAddr, (p.leafVirt j).toNat ≤ va.toNat ∧ va.toNat < (p.leafVirt j).toNat + p.granule ∧
    ∃ l, t.leafUnder root va = some l ∧ l ≠ p.leaf F j

variable {t : Tables F n} {low : FrameId} {roots : List FrameId} {root : FrameId} {p : Plan} {j : Nat}

/-- A leaf is not disputed when the addresses that select its entries are not mapped. -/
theorem not_disputes_of_none (hp : p.Sound F) (hj : j < p.steps)
    (hnone : ∀ va, F.index va 0 = p.slot F j → F.index va p.tier.level = p.place F j →
      t.leafUnder root va = none) : ¬t.Disputes root p j := by
  rintro ⟨va, hge, hlt, l, hl, -⟩
  obtain ⟨hslot, hplace⟩ := hp.select_leaf hj hge hlt
  rw [hnone va hslot hplace] at hl
  cases hl

/-- A leaf that finds a leaf at its place is disputed when that is another one. -/
theorem disputes_iff_of_leaf (hp : p.Sound F) (hfit : p.phys.toNat + p.span ≤ F.addressLimit)
    (hj : j < p.steps) {f : FrameId} (htable : t.tableAt root p.tier (p.slot F j) = some f)
    {base : PhysAddr} {attrs : UInt64}
    (hleaf : F.decode (t.entryAt f (p.place F j)) p.tier.level = .leaf base attrs) :
    t.Disputes root p j ↔ t.entryAt f (p.place F j) ≠ p.leafRaw F j := by
  have hsame := hp.leaf_iff hfit hj hleaf
  have hfound : ∀ va, F.index va 0 = p.slot F j → F.index va p.tier.level = p.place F j →
      t.leafUnder root va =
        some ⟨p.tier.level, base, F.attributes (t.entryAt f (p.place F j)) base⟩ := by
    intro va hslot hplace
    rw [← hplace] at hleaf ⊢
    exact leafUnder_eq_some (hslot ▸ htable) hleaf
  constructor
  · rintro ⟨va, hge, hlt, l, hl, hne⟩ hraw
    obtain ⟨hslot, hplace⟩ := hp.select_leaf hj hge hlt
    obtain rfl := Option.some.inj ((hfound va hslot hplace).symm.trans hl)
    exact hne (hsame.mpr hraw)
  · intro hne
    have hpos := hp.granule_pos
    exact ⟨p.leafVirt j, Nat.le_refl _, by omega, _, hfound _ rfl rfl, fun he => hne (hsame.mp he)⟩

/-- Entries outside the table are zero. -/
theorem lt_entries_of_entryAt_ne {f : FrameId} {i : Nat} (h : t.entryAt f i ≠ 0) :
    i < F.entries := by
  by_contra hout
  refine h ?_
  unfold entryAt
  cases t.frames[f]? with
  | none => rfl
  | some table =>
    rw [Option.bind_some, Vector.getElem?_eq_none (Nat.le_of_not_lt hout)]
    rfl

/-- A leaf of the top tier is disputed when its entry points at a child: the child holds a leaf. -/
theorem Forest.disputes_of_child (h : t.Forest low roots) (hr : root ∈ roots) (hp : p.Sound F)
    (hj : j < p.steps) (htop : p.tier = .top) {c : FrameId}
    (hc : t.childAt root (p.slot F j) = some c) : t.Disputes root p j := by
  obtain ⟨hlow, hu, hroot⟩ := h.child_mem hr hc
  obtain ⟨i, hleaf⟩ := h.child_leaf c hlow hu hroot
  have hi := lt_entries_of_entryAt_ne hleaf.ne_zero
  obtain ⟨base, attrs, hdecode⟩ := hleaf
  have hgranule := hp.granule_top htop
  have hsize : F.levelSize 0 = F.levelSize 1 * F.entries := F.levelSize_zero
  have hin : i * F.levelSize 1 + F.levelSize 1 ≤ F.levelSize 1 * F.entries := by
    rw [Nat.mul_comm, ← Nat.mul_succ]
    exact Nat.mul_le_mul_left _ hi
  have hpos := F.levelSize_pos 1
  have hle := Plan.Sound.leaf_le_span hj
  have hend := hp.virt_end
  have hstart := hp.toNat_leafVirt hj
  -- The address in the block of the leaf that selects the entry of the child.
  have hva : ((p.leafVirt j).offset (UInt64.ofNat (i * F.levelSize 1)) : VirtAddr).toNat =
      (p.leafVirt j).toNat + i * F.levelSize 1 := Address.toNat_offset_ofNat (by omega)
  generalize (p.leafVirt j).offset (UInt64.ofNat (i * F.levelSize 1)) = va at hva
  have hslot : F.index va 0 = p.slot F j := (hp.select_leaf hj (by omega) (by omega)).1
  have hplace : F.index va 1 = i := by
    obtain ⟨k, hk⟩ := Nat.dvd_of_mod_eq_zero (hp.leafVirt_aligned hj)
    rw [hgranule, hsize, Nat.mul_assoc] at hk
    rw [Format.index_eq, hva, hk, Nat.mul_comm i, ← Nat.mul_add, Nat.mul_div_cancel_left _ hpos,
      Nat.mul_add_mod, Nat.mod_eq_of_lt hi]
  have htable : t.tableAt root .intermediate (F.index va 0) = some c := hslot ▸ hc
  have hfound := leafUnder_eq_some htable (hplace ▸ hdecode)
  refine ⟨va, by omega, by omega, _, hfound, fun he => ?_⟩
  have hlevel := congrArg Leaf.level he
  unfold Plan.leaf at hlevel
  rw [htop] at hlevel
  cases hlevel

/-- In a forest, a leaf is admitted when it is not disputed. -/
theorem Forest.admits_iff (h : t.Forest low roots) (hr : root ∈ roots) (hp : p.Sound F)
    (hfit : p.phys.toNat + p.span ≤ F.addressLimit) (hj : j < p.steps) :
    t.Admits root p j ↔ ¬t.Disputes root p j := by
  -- A leaf whose table is there is decided by what is at its place.
  have hdecide : ∀ f, t.tableAt root p.tier (p.slot F j) = some f →
      (t.entryAt f (p.place F j) = 0 ∨ F.IsLeaf (t.entryAt f (p.place F j)) p.tier.level) →
      (t.Admits root p j ↔ ¬t.Disputes root p j) := by
    intro f htable hentry
    rw [admits_iff_of_tableAt htable]
    rcases hentry with hz | ⟨base, attrs, hleaf⟩
    · refine iff_of_true (.inl hz) (not_disputes_of_none hp hj fun va hslot hplace => ?_)
      exact leafUnder_eq_none (hslot ▸ htable) (hplace ▸ hz)
    · rw [disputes_iff_of_leaf hp hfit hj htable hleaf, not_not]
      exact or_iff_right (Format.IsLeaf.ne_zero ⟨base, attrs, hleaf⟩)
  cases htier : p.tier with
  | top =>
    rcases h.root_entry root hr (p.slot F j) with hz | hl | ⟨c, hc, -, -⟩
    · refine hdecide root (by rw [htier]; rfl) (.inl ?_)
      rwa [Plan.Sound.place_eq_slot htier]
    · refine hdecide root (by rw [htier]; rfl) (.inr ?_)
      rwa [Plan.Sound.place_eq_slot htier, htier]
    · refine iff_of_false ?_ (not_not.mpr (h.disputes_of_child hr hp hj htier hc))
      rw [admits_iff_of_tableAt (f := root) (by rw [htier]; rfl)]
      rw [Plan.Sound.place_eq_slot htier]
      rintro (hz | hraw)
      · exact childAt_ne_zero hc hz
      · have hleaf := hp.decode_leafRaw hj
        rw [hp.stored_leafRaw hfit hj, ← hraw, htier] at hleaf
        exact not_isLeaf_of_childAt hc ⟨_, _, hleaf⟩
  | intermediate =>
    rcases h.root_entry root hr (p.slot F j) with hz | ⟨base, attrs, hl⟩ | ⟨c, hc, hlow, hroot⟩
    · refine iff_of_true (.inl ⟨htier, hz⟩) (not_disputes_of_none hp hj fun va hslot _ => ?_)
      exact leafUnder_eq_none (t.tableAt_top root _) (hslot ▸ hz)
    · refine iff_of_false ?_ (not_not.mpr ?_)
      · rintro (⟨-, hz⟩ | ⟨f, htable, -⟩)
        · exact Format.IsLeaf.ne_zero ⟨base, attrs, hl⟩ hz
        · rw [htier] at htable
          exact not_isLeaf_of_childAt htable ⟨base, attrs, hl⟩
      · have hpos := hp.granule_pos
        refine ⟨p.leafVirt j, Nat.le_refl _, by omega, _,
          leafUnder_eq_some (t.tableAt_top root _) hl, fun he => ?_⟩
        have hlevel := congrArg Leaf.level he
        unfold Plan.leaf at hlevel
        rw [htier] at hlevel
        cases hlevel
    · refine hdecide c (by rw [htier]; exact hc) ?_
      rw [htier]
      exact h.child_entry c hlow (childAt_lt hc) hroot _

/-! ## The verdict -/

section Verdict

variable {virt : VirtAddr} {phys : PhysAddr} {size : UInt64} {memory : Memory}

/-- A request is refused at the first leaf that is disputed. -/
theorem Forest.plan_of_disputes (h : t.Forest low roots) (hr : root ∈ roots)
    (ho : F.outline virt phys size memory = .ok p) (hfit : p.phys.toNat + p.span ≤ F.addressLimit)
    (hj : j < p.steps) (hdisputed : t.Disputes root p j) (hfirst : ∀ i, i < j → ¬t.Disputes root p i) :
    t.plan root virt phys size memory = Outcome.refuse (.overlap (p.leafVirt j)) := by
  have hp := (Format.outline_ok ho).1
  have hadmits := fun i hi => h.admits_iff hr hp hfit (j := i) hi
  rw [t.plan_of_outline root ho]
  rcases h.missingTables_cases hr hp with ⟨-, hall⟩ | ⟨i, hi, hno, hbefore, herr⟩
  · exact absurd hdisputed ((hadmits j hj).mp (hall j hj))
  · rw [hadmits i hi, not_not] at hno
    -- Two leaves that are the first disputed ones are the same.
    have hij : ¬i < j := fun hlt => hfirst i hlt hno
    have hji : ¬j < i := fun hlt => (hadmits j hj).mp (hbefore j hlt) hdisputed
    obtain rfl : i = j := by omega
    rw [herr]
    rfl

/-- A request that is not disputed, and does not go around the root, is planned as far as there are
frames for its vacancies. -/
theorem Forest.plan_of_undisputed (h : t.Forest low roots) (hr : root ∈ roots)
    (ho : F.outline virt phys size memory = .ok p) (hfit : p.phys.toNat + p.span ≤ F.addressLimit)
    (hround : ¬p.Rounds F) (hfree : ∀ j, j < p.steps → ¬t.Disputes root p j) :
    t.plan root virt phys size memory =
      if t.available < (t.vacancies root p).card then Outcome.refuse .storageExhausted
      else .ok { p with newTables := (t.vacancies root p).card } := by
  have hp := (Format.outline_ok ho).1
  rw [t.plan_of_outline root ho, ← lacking_eq_card hp hround]
  rcases h.missingTables_cases hr hp with ⟨hok, -⟩ | ⟨i, hi, hno, -, -⟩
  · rw [hok]
  · exact absurd ((h.admits_iff hr hp hfit hi).mpr (hfree i hi)) hno

/-- What becomes of a request that does not go around the root: some leaf is the first that is
disputed, or there are not enough frames for its vacancies, or it is planned. -/
theorem Forest.plan_cases (h : t.Forest low roots) (hr : root ∈ roots)
    (ho : F.outline virt phys size memory = .ok p) (hfit : p.phys.toNat + p.span ≤ F.addressLimit)
    (hround : ¬p.Rounds F) :
    (∃ j, j < p.steps ∧ t.Disputes root p j ∧ (∀ i, i < j → ¬t.Disputes root p i) ∧
      t.plan root virt phys size memory = Outcome.refuse (.overlap (p.leafVirt j))) ∨
    ((∀ j, j < p.steps → ¬t.Disputes root p j) ∧ t.available < (t.vacancies root p).card ∧
      t.plan root virt phys size memory = Outcome.refuse .storageExhausted) ∨
    ((∀ j, j < p.steps → ¬t.Disputes root p j) ∧ (t.vacancies root p).card ≤ t.available ∧
      t.plan root virt phys size memory =
        .ok { p with newTables := (t.vacancies root p).card }) := by
  have hp := (Format.outline_ok ho).1
  have hadmits := fun i hi => h.admits_iff hr hp hfit (j := i) hi
  rcases h.missingTables_cases hr hp with ⟨-, hall⟩ | ⟨j, hj, hno, hbefore, -⟩
  · have hfree := fun j hj => (hadmits j hj).mp (hall j hj)
    have hplan := h.plan_of_undisputed hr ho hfit hround hfree
    by_cases hroom : t.available < (t.vacancies root p).card
    · rw [if_pos hroom] at hplan
      exact .inr (.inl ⟨hfree, hroom, hplan⟩)
    · rw [if_neg hroom] at hplan
      exact .inr (.inr ⟨hfree, Nat.le_of_not_lt hroom, hplan⟩)
  · rw [hadmits j hj, not_not] at hno
    have hfirst := fun i hi => (hadmits i (Nat.lt_trans hi hj)).mp (hbefore i hi)
    exact .inl ⟨j, hj, hno, hfirst, h.plan_of_disputes hr ho hfit hj hno hfirst⟩

/-- A request whose range is mapped by its own leaves already is planned, and lacks nothing. -/
theorem Forest.plan_of_mapped (h : t.Forest low roots) (hr : root ∈ roots)
    (ho : F.outline virt phys size memory = .ok p) (hfit : p.phys.toNat + p.span ≤ F.addressLimit)
    (hround : ¬p.Rounds F)
    (hmapped : ∀ j, j < p.steps → ∀ va : VirtAddr, (p.leafVirt j).toNat ≤ va.toNat →
      va.toNat < (p.leafVirt j).toNat + p.granule → t.leafUnder root va = some (p.leaf F j)) :
    t.plan root virt phys size memory = .ok { p with newTables := 0 } := by
  have hp := (Format.outline_ok ho).1
  have hvacancies : t.vacancies root p = ∅ := by
    unfold vacancies
    cases p.tier with
    | top => rfl
    | intermediate =>
      refine Finset.eq_empty_of_forall_notMem fun s hs => ?_
      obtain ⟨⟨j, -, hj, rfl⟩, hz⟩ := mem_vacant.mp hs
      rw [Nat.zero_add] at hj
      have hpos := hp.granule_pos
      have hfound := hmapped j hj (p.leafVirt j) (Nat.le_refl _) (by omega)
      rw [leafUnder_eq_none (t.tableAt_top root _) hz] at hfound
      cases hfound
  rw [h.plan_of_undisputed hr ho hfit hround, hvacancies, Finset.card_empty,
    if_neg (Nat.not_lt_zero _)]
  rintro j hj ⟨va, hge, hlt, l, hl, hne⟩
  rw [hmapped j hj va hge hlt] at hl
  exact hne (Option.some.inj hl).symm

/-- After a plan has been performed, its leaves map its range. -/
theorem Performs.leafUnder_eq {es : List Edit} (h : t.Performs root p 0 p.steps es) (ht : t.Regular)
    (hp : p.Sound F) (hfit : p.phys.toNat + p.span ≤ F.addressLimit) (hj : j < p.steps) {va : VirtAddr}
    (hge : (p.leafVirt j).toNat ≤ va.toNat) (hlt : va.toNat < (p.leafVirt j).toNat + p.granule) :
    (t.after es).leafUnder root va = some (p.leaf F j) := by
  obtain ⟨f, htable, hmem⟩ := h.leaf_mem j (Nat.zero_le j) hj
  obtain ⟨hslot, hplace⟩ := hp.select_leaf hj hge hlt
  have hentry := h.entryAt_leaf ht hp hj hmem
  have hdecode := hp.decode_leafRaw hj
  rw [← hentry] at hdecode
  rw [leafUnder_eq_some (hslot ▸ htable) (hplace ▸ hdecode), hplace,
    (hp.leaf_iff hfit hj hdecode).mpr (hentry.trans (hp.stored_leafRaw hfit hj))]

/-- A plan that was made for a root is made again after it has been performed, and lacks nothing
then. -/
theorem Forest.plan_again {w : Worksite F n} (h : w.tables.Forest low roots) (hr : root ∈ roots)
    (hplaced : F.Placed n w.tables.base) (ho : F.outline virt phys size memory = .ok p)
    (hfit : p.phys.toNat + p.span ≤ F.addressLimit) (hround : ¬p.Rounds F) {q : Plan}
    (hplan : w.tables.plan root virt phys size memory = .ok q) :
    ∃ w', Builder.apply root q w = .ok () w' ∧
      w'.tables.plan root virt phys size memory = .ok { p with newTables := 0 } := by
  obtain ⟨hafford, -⟩ := h.plan_ok hr hplan
  obtain ⟨o, ho', -, -, hq⟩ := plan_eq_ok hplan
  obtain rfl : p = o := Except.ok.inj (ho.symm.trans ho')
  obtain ⟨es, hrun, hperforms, hforest, -⟩ := Builder.apply_ok h hr (fun _ => hplaced) hafford.sound
    (fun j hj => (hafford.admits j hj).hasPlace h.regular) hafford.room
  refine ⟨_, hrun, ?_⟩
  rw [Worksite.tables_perform]
  refine hforest.plan_of_mapped hr ho hfit hround fun j hj va hge hlt => ?_
  -- The leaves of a plan do not depend on the tables that it lacks.
  rw [hq] at hperforms
  exact hperforms.leafUnder_eq h.regular ((Format.outline_ok ho).1.withNewTables _) hfit hj hge hlt

/-- The verdict on a request, for canonical addresses in one half of the address space and physical
addresses that the entries hold. It is refused for an overlap exactly when some byte of its range is
mapped already by a leaf of another level, block or attributes than the leaf that the plan would
write there, and the address given is that of the first leaf with such a byte. Otherwise it is
refused for want of frames exactly when fewer frames are free than root entries of an intermediate
range are empty, and otherwise it is planned. It is never refused for a table outside the storage. A
request whose range is mapped by its own leaves is planned and lacks no table, and so is one that
has been planned and performed. -/
theorem Raised.plan_verdict {w : Worksite F n} (h : w.tables.Raised roots)
    (hplaced : F.Placed n w.tables.base) (hr : root ∈ roots) {tier : Tier} (hsize : 0 < size.toNat)
    (htier : F.selectTier virt phys = some tier) :
    let p := F.request tier virt phys size memory
    virt.toNat + p.span ≤ wordCount → (∀ a, p.Covers a → F.IsCanonical a) →
      (virt.toNat + p.span ≤ wordCount / 2 ∨ wordCount / 2 ≤ virt.toNat) →
      phys.toNat + p.span ≤ F.addressLimit →
    (∀ v, w.tables.plan root virt phys size memory = Outcome.refuse (.overlap v) ↔
      ∃ j, j < p.steps ∧ v = p.leafVirt j ∧ w.tables.Disputes root p j ∧
        ∀ i, i < j → ¬w.tables.Disputes root p i) ∧
    (w.tables.plan root virt phys size memory = Outcome.refuse .storageExhausted ↔
      (∀ j, j < p.steps → ¬w.tables.Disputes root p j) ∧
        w.tables.available < (w.tables.vacancies root p).card) ∧
    (∀ q, w.tables.plan root virt phys size memory = .ok q ↔
      (∀ j, j < p.steps → ¬w.tables.Disputes root p j) ∧
        (w.tables.vacancies root p).card ≤ w.tables.available ∧
        q = { p with newTables := (w.tables.vacancies root p).card }) ∧
    (∀ v, w.tables.plan root virt phys size memory ≠ Outcome.refuse (.foreignTable v)) ∧
    ((∀ j, j < p.steps → ∀ va : VirtAddr, (p.leafVirt j).toNat ≤ va.toNat →
        va.toNat < (p.leafVirt j).toNat + p.granule →
        w.tables.leafUnder root va = some (p.leaf F j)) →
      w.tables.plan root virt phys size memory = .ok p) ∧
    ∀ q, w.tables.plan root virt phys size memory = .ok q →
      ∃ w', Builder.apply root q w = .ok () w' ∧
        w'.tables.plan root virt phys size memory = .ok p := by
  intro p hend hcanonical hhalf hfit
  obtain ⟨all, hall, hforest⟩ := h.stands hplaced
  have hr := hall root hr
  have hlevel := F.levelSize_pos tier.level
  have hpos : 0 < p.span := Nat.mul_pos (Nat.div_pos (by omega) hlevel) hlevel
  have hstraight : p.Straight F := Plan.straight_of_canonical hpos hend hcanonical hhalf
  have hphys : phys.toNat + p.span ≤ wordCount := Nat.le_trans hfit F.addressLimit_le
  have ho := F.outline_request hsize htier hend hphys hstraight
  have hround := Plan.Sound.not_rounds_of_straight hstraight
  have hdisputed := fun j hj => hforest.plan_of_disputes hr ho hfit (j := j) hj
  have hfree := hforest.plan_of_undisputed hr ho hfit hround
  have hverdict := hforest.plan_cases hr ho hfit hround
  refine ⟨fun v => ⟨?_, ?_⟩, ⟨?_, ?_⟩, fun q => ⟨?_, ?_⟩, ?_, hforest.plan_of_mapped hr ho hfit hround,
    fun q => hforest.plan_again hr hplaced ho hfit hround⟩
  · intro hplan
    rcases hverdict with ⟨j, hj, hd, hfirst, heq⟩ | ⟨-, -, heq⟩ | ⟨-, -, heq⟩
    · rw [heq] at hplan
      cases hplan
      exact ⟨j, hj, rfl, hd, hfirst⟩
    · rw [heq] at hplan
      cases hplan
    · rw [heq] at hplan
      cases hplan
  · rintro ⟨j, hj, rfl, hd, hfirst⟩
    exact hdisputed j hj hd hfirst
  · intro hplan
    rcases hverdict with ⟨j, hj, hd, hfirst, heq⟩ | ⟨hno, hlt, -⟩ | ⟨-, -, heq⟩
    · rw [heq] at hplan
      cases hplan
    · exact ⟨hno, hlt⟩
    · rw [heq] at hplan
      cases hplan
  · rintro ⟨hno, hlt⟩
    rw [hfree hno, if_pos hlt]
  · intro hplan
    rcases hverdict with ⟨j, hj, hd, hfirst, heq⟩ | ⟨-, -, heq⟩ | ⟨hno, hle, heq⟩
    · rw [heq] at hplan
      cases hplan
    · rw [heq] at hplan
      cases hplan
    · rw [heq] at hplan
      exact ⟨hno, hle, (Except.ok.inj hplan).symm⟩
  · rintro ⟨hno, hle, rfl⟩
    rw [hfree hno, if_neg (Nat.not_lt_of_le hle)]
  · intro v hplan
    rcases hverdict with ⟨j, -, -, -, heq⟩ | ⟨-, -, heq⟩ | ⟨-, -, heq⟩
    all_goals
      rw [heq] at hplan
      cases hplan

/-- A block inside a larger one that is mapped to the same addresses: its first byte is mapped by a
leaf of another level. -/
theorem Raised.plan_verdict_sv39 :
    let w : Worksite .sv39 2 :=
      Builder.siteAfter ((Call.map ⟨0x40000000⟩ ⟨0x80000000⟩ 0x40000000).run 0)
        { tables := (Tables.empty .sv39 2 ⟨0x80400000⟩).takeFrame }
    w.tables.Raised [0] ∧ Format.Placed .sv39 2 w.tables.base ∧
      w.tables.leafUnder 0 ⟨0x40200000⟩ = some ⟨0, ⟨0x80000000⟩, 0xef⟩ ∧
      w.tables.plan 0 ⟨0x40200000⟩ ⟨0x80200000⟩ 0x400000 .normal =
        Outcome.refuse (.overlap ⟨0x40200000⟩) := by
  intro w
  have hraised : w.tables.Raised [0] := .call (.addRoot (.empty _) (by decide)) List.mem_cons_self _
  have hplaced : Format.Placed .sv39 2 w.tables.base := ⟨by decide +kernel, by decide +kernel⟩
  have hleaf : w.tables.leafUnder 0 ⟨0x40200000⟩ = some ⟨0, ⟨0x80000000⟩, 0xef⟩ := by decide +kernel
  refine ⟨hraised, hplaced, hleaf, ?_⟩
  have hcanonical : ∀ a, (Format.request .sv39 .intermediate ⟨0x40200000⟩ ⟨0x80200000⟩ 0x400000
      .normal).Covers a → Format.IsCanonical .sv39 a := by
    rintro a ⟨-, hlt⟩
    exact .inl (Nat.lt_trans hlt (by decide))
  have hsize : 0 < (0x400000 : UInt64).toNat := by decide
  have htier : Format.selectTier .sv39 ⟨0x40200000⟩ ⟨0x80200000⟩ = some .intermediate := by decide
  obtain ⟨hoverlap, -⟩ := Raised.plan_verdict hraised hplaced List.mem_cons_self hsize htier
    (by decide) hcanonical (.inl (by decide)) (by decide)
  refine (hoverlap _).mpr ⟨0, by decide, rfl, ?_, fun i hi => absurd hi (Nat.not_lt_zero i)⟩
  exact ⟨⟨0x40200000⟩, by decide, by decide, _, hleaf, by decide⟩

end Verdict

end Tables

end BootLoader.Paging
