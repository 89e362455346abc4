import Mathlib.Data.Nat.ModEq
import BootLoader.Paging.Plan
import BootLoader.Proofs.Paging.Codec

/-!
# The leaves of a plan

What a plan writes, leaf by leaf: `Plan.leafVirt`, `Plan.leafPhys` and `Plan.leafRaw` are the two
addresses and the entry of a leaf, `Plan.slot` is the root entry under which it lies, and
`Plan.place` its place in the table that holds it. A plan is *sound* when its bases are aligned to
the leaves of its tier, and neither range leaves the address space or is longer than the coverage of
a root (`Plan.Sound`). The leaves of a sound plan then lie at different places
(`Sound.leaf_inj`), also when the range goes around the root table.

`Plan.image` is the mapping that a plan stands for, as a partial function on addresses: it repeats
with the coverage, and leads from the virtual to the physical range (`Sound.image_offset`).
-/

namespace BootLoader.Paging

/-- Sums with one summand that agree modulo `m` have equal other summands, when these are below
`m`. -/
theorem add_left_cancel_mod {a x y m : Nat} (h : (a + x) % m = (a + y) % m) (hx : x < m)
    (hy : y < m) : x = y := by
  have hmod : x ≡ y [MOD m] := Nat.ModEq.add_left_cancel' a h
  exact Nat.ModEq.eq_of_lt_of_lt hmod hx hy

/-- The block that holds an address does not change within a granule that divides it. -/
theorem add_div_of_dvd {a r g s : Nat} (hg : a % g = 0) (hr : r < g) (hd : g ∣ s) :
    (a + r) / s = a / s := by
  obtain ⟨k, rfl⟩ := hd
  obtain ⟨m, rfl⟩ := Nat.dvd_of_mod_eq_zero hg
  have hpos : 0 < g := Nat.lt_of_le_of_lt (Nat.zero_le r) hr
  rw [← Nat.div_div_eq_div_mul, ← Nat.div_div_eq_div_mul, Nat.mul_add_div hpos,
    Nat.div_eq_of_lt hr, Nat.add_zero, Nat.mul_div_cancel_left m hpos]

namespace Plan

variable {F : Format} {p : Plan}

/-- The virtual address of leaf number `j`. -/
def leafVirt (p : Plan) (j : Nat) : VirtAddr := p.virt.offset (UInt64.ofNat (j * p.granule))

/-- The physical address of leaf number `j`. -/
def leafPhys (p : Plan) (j : Nat) : PhysAddr := p.phys.offset (UInt64.ofNat (j * p.granule))

/-- The entry that is leaf number `j`. -/
def leafRaw (F : Format) (p : Plan) (j : Nat) : UInt64 :=
  F.leafWord p.memory (p.leafPhys j) p.tier.level

/-- The root entry under which leaf number `j` lies. -/
def slot (F : Format) (p : Plan) (j : Nat) : Nat := F.index (p.leafVirt j) 0

/-- The place of leaf number `j` in the table that holds it. -/
def place (F : Format) (p : Plan) (j : Nat) : Nat := F.index (p.leafVirt j) p.tier.level

/-- The address of a leaf selects its root entry. -/
theorem index_leafVirt (F : Format) (p : Plan) (j : Nat) : F.index (p.leafVirt j) 0 = p.slot F j :=
  rfl

/-- The root entry of a leaf is in the table. -/
theorem slot_lt (F : Format) (p : Plan) (j : Nat) : p.slot F j < F.entries :=
  F.index_lt_entries _ _

/-- The place of a leaf is in the table. -/
theorem place_lt (F : Format) (p : Plan) (j : Nat) : p.place F j < F.entries :=
  F.index_lt_entries _ _

/-- A plan whose leaves are those of its tier, and whose ranges stay in the address space and do not
meet their own beginning in the root table. -/
structure Sound (F : Format) (p : Plan) : Prop where
  /-- the leaves are not pages -/
  level_lt : p.tier.level + 1 < F.levels
  /-- a leaf covers a block of its level -/
  granule_eq : p.granule = F.levelSize p.tier.level
  /-- the virtual range starts at a leaf -/
  virt_aligned : p.virt.toNat % p.granule = 0
  /-- the physical range starts at a block -/
  phys_aligned : p.phys.toNat % p.granule = 0
  /-- there is a leaf -/
  steps_pos : 0 < p.steps
  /-- the virtual range stays in the address space -/
  virt_end : p.virt.toNat + p.span ≤ wordCount
  /-- the physical range stays in the address space -/
  phys_end : p.phys.toNat + p.span ≤ wordCount
  /-- the range is no longer than a root covers -/
  span_le : p.span ≤ F.coverage

namespace Sound

/-- A leaf of the top tier is a granule of the root. -/
theorem granule_top (h : p.Sound F) (htop : p.tier = .top) : p.granule = F.levelSize 0 := by
  rw [h.granule_eq, htop]
  rfl

/-- A leaf of the intermediate tier is a granule of a child. -/
theorem granule_mid (h : p.Sound F) (hmid : p.tier = .intermediate) :
    p.granule = F.levelSize 1 := by
  rw [h.granule_eq, hmid]
  rfl

/-- Leaves cover bytes. -/
theorem granule_pos (h : p.Sound F) : 0 < p.granule := h.granule_eq ▸ F.levelSize_pos _

/-- The range of a plan is not empty. -/
theorem span_pos (h : p.Sound F) : 0 < p.span := Nat.mul_pos h.steps_pos h.granule_pos

/-- The bytes of a leaf are in the range of the plan. -/
theorem leaf_le_span {j : Nat} (hj : j < p.steps) : j * p.granule + p.granule ≤ p.span := by
  rw [← Nat.succ_mul]
  exact Nat.mul_le_mul_right p.granule hj

/-- The virtual address of a leaf, as a number. -/
theorem toNat_leafVirt (h : p.Sound F) {j : Nat} (hj : j < p.steps) :
    (p.leafVirt j).toNat = p.virt.toNat + j * p.granule := by
  have hle := leaf_le_span hj
  have hpos := h.granule_pos
  have hend := h.virt_end
  exact Address.toNat_offset_ofNat (by omega)

/-- The physical address of a leaf, as a number. -/
theorem toNat_leafPhys (h : p.Sound F) {j : Nat} (hj : j < p.steps) :
    (p.leafPhys j).toNat = p.phys.toNat + j * p.granule := by
  have hle := leaf_le_span hj
  have hpos := h.granule_pos
  have hend := h.phys_end
  exact Address.toNat_offset_ofNat (by omega)

/-- A leaf starts at a multiple of what it covers. -/
theorem leafVirt_aligned (h : p.Sound F) {j : Nat} (hj : j < p.steps) :
    (p.leafVirt j).toNat % p.granule = 0 := by
  rw [h.toNat_leafVirt hj, Nat.add_mul_mod_self_right, h.virt_aligned]

/-- A leaf maps a block that starts at a multiple of its size. -/
theorem leafPhys_aligned (h : p.Sound F) {j : Nat} (hj : j < p.steps) :
    (p.leafPhys j).toNat % F.levelSize p.tier.level = 0 := by
  rw [← h.granule_eq, h.toNat_leafPhys hj, Nat.add_mul_mod_self_right, h.phys_aligned]

/-- The distance of a leaf from the bases is a word. -/
theorem distance_eq_ok (h : p.Sound F) {j : Nat} (hj : j < p.steps) :
    p.distance j = .ok (UInt64.ofNat (j * p.granule)) := by
  have hle := leaf_le_span hj
  have hpos := h.granule_pos
  have hend := h.virt_end
  unfold distance
  rw [if_pos (by omega)]

/-- The virtual address of a leaf is computed without a fault. -/
theorem virtAt_eq_ok (h : p.Sound F) {j : Nat} (hj : j < p.steps) :
    p.virtAt j = .ok (p.leafVirt j) := by
  unfold virtAt
  rw [h.distance_eq_ok hj]
  rfl

/-- The entry of a leaf is computed without a fault. -/
theorem leafAt_eq_ok (h : p.Sound F) {j : Nat} (hj : j < p.steps) :
    p.leafAt F j p.tier.level = .ok (p.leafRaw F j) := by
  have hlevel : p.tier.level < F.levels := Nat.lt_of_succ_lt h.level_lt
  unfold leafAt
  rw [h.distance_eq_ok hj]
  exact Format.leaf_eq_ok hlevel (h.leafPhys_aligned hj) p.memory

/-- A leaf that is stored is a leaf at its level. -/
theorem decode_leafRaw (h : p.Sound F) {j : Nat} (hj : j < p.steps) :
    F.decode (F.width.stored (p.leafRaw F j)) p.tier.level =
      .leaf (.ofNat ((p.leafPhys j).toNat % F.addressLimit)) (F.leafAttrs p.memory p.tier.level) :=
  Format.decode_leafWord (Nat.lt_of_succ_lt h.level_lt) (h.leafPhys_aligned hj) p.memory

/-- A leaf that is stored is not the empty entry. -/
theorem stored_leafRaw_ne_zero (h : p.Sound F) {j : Nat} (hj : j < p.steps) :
    F.width.stored (p.leafRaw F j) ≠ 0 :=
  Format.stored_leafWord_ne_zero (Nat.lt_of_succ_lt h.level_lt) (h.leafPhys_aligned hj) p.memory

/-- A leaf of the top tier is in the root. -/
theorem place_eq_slot (htop : p.tier = .top) (j : Nat) : p.place F j = p.slot F j := by
  unfold place slot
  rw [htop]
  rfl

/-- The block of an address, at the tier of a plan, is named by a root entry and a place. -/
theorem block_eq_iff {va wa : VirtAddr} (tier : Tier) :
    F.block va tier.level = F.block wa tier.level ↔
      F.index va 0 = F.index wa 0 ∧ F.index va tier.level = F.index wa tier.level := by
  cases tier with
  | top =>
    show F.block va 0 = F.block wa 0 ↔ _
    rw [Format.block_zero, Format.block_zero]
    exact ⟨fun h => ⟨h, h⟩, fun h => h.1⟩
  | intermediate => exact Format.block_one_eq_iff

/-- A leaf starts its block. -/
theorem leafVirt_mod_coverage (h : p.Sound F) {j : Nat} (hj : j < p.steps) :
    (p.leafVirt j).toNat % F.coverage = F.block (p.leafVirt j) p.tier.level * p.granule := by
  have hoff : F.blockOffset (p.leafVirt j) p.tier.level = 0 := by
    unfold Format.blockOffset
    rw [← h.granule_eq, h.leafVirt_aligned hj]
  rw [← Format.block_add_blockOffset _ p.tier.level, hoff, h.granule_eq, Nat.add_zero]

/-- Different leaves lie at different places. -/
theorem leaf_inj (h : p.Sound F) {i j : Nat} (hi : i < p.steps) (hj : j < p.steps)
    (hslot : p.slot F i = p.slot F j) (hplace : p.place F i = p.place F j) : i = j := by
  have hblock := (block_eq_iff p.tier).mpr ⟨hslot, hplace⟩
  have hmod : (p.leafVirt i).toNat % F.coverage = (p.leafVirt j).toNat % F.coverage := by
    rw [h.leafVirt_mod_coverage hi, h.leafVirt_mod_coverage hj, hblock]
  -- Leaves of a range that is no longer than the coverage are not congruent.
  rw [h.toNat_leafVirt hi, h.toNat_leafVirt hj] at hmod
  have hlei := leaf_le_span hi
  have hlej := leaf_le_span hj
  have hpos := h.granule_pos
  have hspan := h.span_le
  exact Nat.eq_of_mul_eq_mul_right hpos (add_left_cancel_mod hmod (by omega) (by omega))

/-- An address of the block of a leaf selects the entries of the leaf. -/
theorem select_leaf (h : p.Sound F) {j : Nat} (hj : j < p.steps) {va : VirtAddr}
    (hge : (p.leafVirt j).toNat ≤ va.toNat) (hlt : va.toNat < (p.leafVirt j).toNat + p.granule) :
    F.index va 0 = p.slot F j ∧ F.index va p.tier.level = p.place F j := by
  have hblock : ∀ level, p.granule ∣ F.levelSize level →
      F.index va level = F.index (p.leafVirt j) level := by
    intro level hdvd
    obtain ⟨r, hr⟩ := Nat.exists_eq_add_of_le hge
    rw [Format.index_eq, Format.index_eq, hr,
      add_div_of_dvd (h.leafVirt_aligned hj) (by omega) hdvd]
  have hgranule := h.granule_eq
  refine ⟨hblock 0 ?_, hblock _ (hgranule ▸ Nat.dvd_refl _)⟩
  rw [hgranule]
  cases p.tier with
  | top => exact Nat.dvd_refl _
  | intermediate => exact ⟨F.entries, F.levelSize_zero⟩

end Sound

/-! ## The mapping of a plan -/

/-- The distance from the first virtual address of a plan to `va`, going around the root table. -/
def reach (F : Format) (p : Plan) (va : VirtAddr) : Nat :=
  (va.toNat + (F.coverage - p.virt.toNat % F.coverage)) % F.coverage

/-- The physical address to which a plan maps `va`, if it does. -/
def image (F : Format) (p : Plan) (va : VirtAddr) : Option PhysAddr :=
  if p.reach F va < p.span then some (p.phys.offset (UInt64.ofNat (p.reach F va))) else none

/-- Going the distance leads to the address, modulo the coverage. -/
theorem add_reach (F : Format) (p : Plan) (va : VirtAddr) :
    (p.virt.toNat + p.reach F va) % F.coverage = va.toNat % F.coverage := by
  have hlt := Nat.mod_lt p.virt.toNat F.coverage_pos
  unfold reach
  have hsum : p.virt.toNat % F.coverage + (va.toNat + (F.coverage - p.virt.toNat % F.coverage)) =
      va.toNat + F.coverage := by omega
  rw [Nat.add_mod_mod, ← Nat.mod_add_mod, hsum, Nat.add_mod_right]

/-- The distance to an address is any distance that leads there and is below the coverage. -/
theorem reach_eq {d : Nat} (hd : d < F.coverage) {va : VirtAddr}
    (h : va.toNat % F.coverage = (p.virt.toNat + d) % F.coverage) : p.reach F va = d := by
  refine add_left_cancel_mod (a := p.virt.toNat) (m := F.coverage) ?_ ?_ hd
  · rw [add_reach, h]
  · exact Nat.mod_lt _ F.coverage_pos

namespace Sound

/-- The distance to an address of the range. -/
theorem reach_offset (h : p.Sound F) {d : Nat} (hd : d < p.span) :
    p.reach F (p.virt.offset (UInt64.ofNat d)) = d := by
  have hend := h.virt_end
  exact reach_eq (Nat.lt_of_lt_of_le hd h.span_le) (by rw [Address.toNat_offset_ofNat (by omega)])

/-- The mapping of a plan leads from its virtual to its physical range. -/
theorem image_offset (h : p.Sound F) {d : Nat} (hd : d < p.span) :
    p.image F (p.virt.offset (UInt64.ofNat d)) = some (p.phys.offset (UInt64.ofNat d)) := by
  unfold image
  rw [h.reach_offset hd, if_pos hd]

/-- A plan also maps the addresses that are congruent to those of its range. -/
theorem image_of_mod (h : p.Sound F) {d : Nat} (hd : d < p.span) {va : VirtAddr}
    (hmod : va.toNat % F.coverage = (p.virt.toNat + d) % F.coverage) :
    p.reach F va < p.span ∧ p.image F va = some (p.phys.offset (UInt64.ofNat d)) := by
  have hreach : p.reach F va = d := reach_eq (Nat.lt_of_lt_of_le hd h.span_le) hmod
  unfold image
  rw [hreach, if_pos hd]
  exact ⟨hd, rfl⟩

/-- An address that a plan maps lies in one of its leaves: it selects the entries of the leaf, at
the distance that is left. -/
theorem exists_leaf (h : p.Sound F) {va : VirtAddr} (hva : p.reach F va < p.span) :
    ∃ j, j < p.steps ∧ F.index va 0 = p.slot F j ∧ F.index va p.tier.level = p.place F j ∧
      p.reach F va = j * p.granule + F.blockOffset va p.tier.level := by
  have hpos := h.granule_pos
  have hend := h.virt_end
  generalize hd : p.reach F va = d at hva ⊢
  have hj : d / p.granule < p.steps := Nat.div_lt_of_lt_mul (by rw [Nat.mul_comm]; exact hva)
  have hr : d % p.granule < p.granule := Nat.mod_lt _ hpos
  have hsum : d / p.granule * p.granule + d % p.granule = d := Nat.div_add_mod' _ _
  have hstart := h.toNat_leafVirt hj
  -- `wa` is the address of the range itself to which `va` is congruent.
  generalize hwa : (p.virt.offset (UInt64.ofNat d) : VirtAddr) = wa
  have hwaN : wa.toNat = (p.leafVirt (d / p.granule)).toNat + d % p.granule := by
    rw [← hwa, Address.toNat_offset_ofNat (by omega), hstart]
    omega
  have hmod : va.toNat % F.coverage = wa.toNat % F.coverage := by
    rw [← add_reach F p va, hd, ← hwa, Address.toNat_offset_ofNat (by omega)]
  have hselect : F.index wa 0 = _ ∧ F.index wa p.tier.level = _ :=
    h.select_leaf hj (by omega) (by omega)
  refine ⟨d / p.granule, hj, (Format.index_congr hmod 0).trans hselect.1,
    (Format.index_congr hmod _).trans hselect.2, ?_⟩
  rw [Format.blockOffset_congr hmod]
  unfold Format.blockOffset
  rw [← h.granule_eq, hwaN, ← Nat.mod_add_mod, h.leafVirt_aligned hj, Nat.zero_add, Nat.mod_mod,
    hsum]

/-- An address that selects the entries of a leaf is mapped by the plan. -/
theorem reach_of_leaf (h : p.Sound F) {va : VirtAddr} {j : Nat} (hj : j < p.steps)
    (hslot : F.index va 0 = p.slot F j) (hplace : F.index va p.tier.level = p.place F j) :
    p.reach F va = j * p.granule + F.blockOffset va p.tier.level := by
  have hoff := Format.blockOffset_lt (F := F) va p.tier.level
  have hle := leaf_le_span hj
  have hspan := h.span_le
  have hblock := (block_eq_iff (F := F) p.tier).mpr ⟨hslot, hplace⟩
  apply reach_eq
  · rw [← h.granule_eq] at hoff
    omega
  · rw [← Nat.add_assoc, ← h.toNat_leafVirt hj, ← Nat.mod_add_mod, h.leafVirt_mod_coverage hj,
      ← hblock, h.granule_eq, Format.block_add_blockOffset, Nat.mod_mod]

/-- The addresses that a plan maps are those that select the entries of one of its leaves. -/
theorem reach_lt_span_iff (h : p.Sound F) {va : VirtAddr} :
    p.reach F va < p.span ↔
      ∃ j, j < p.steps ∧ F.index va 0 = p.slot F j ∧ F.index va p.tier.level = p.place F j := by
  constructor
  · intro hva
    obtain ⟨j, hj, hslot, hplace, -⟩ := h.exists_leaf hva
    exact ⟨j, hj, hslot, hplace⟩
  · rintro ⟨j, hj, hslot, hplace⟩
    have hoff := Format.blockOffset_lt (F := F) va p.tier.level
    have hle := leaf_le_span hj
    rw [h.reach_of_leaf hj hslot hplace]
    rw [← h.granule_eq] at hoff
    omega

end Sound

end Plan

end BootLoader.Paging
