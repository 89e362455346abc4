import BootLoader.Proofs.Image.Region
import Mathlib.Data.Set.Function

/-!
# Relocation of an image

`Region.toVirt` takes the physical addresses of an image to its virtual ones by adding a word, which
may wrap. A region is accepted exactly when this is a faithful relocation (`Region.Relocates`): it
takes the physical range onto the virtual one in order, every byte by the same distance, and some
byte to the entry point. A placed region is accepted exactly when its ranges, as ranges of numbers,
are not empty, end in the address space and have the entry point in them
(`Region.check_faithful`).
-/

namespace BootLoader.Region

variable {r : Region}

/-- The physical addresses of the bytes of a region. -/
def physRange (r : Region) : Set PhysAddr :=
  {pa | r.physStart.toNat ≤ pa.toNat ∧ pa.toNat < r.physEnd.toNat}

/-- The virtual addresses of the bytes of a region. -/
def virtRange (r : Region) : Set VirtAddr :=
  {va | r.virtStart.toNat ≤ va.toNat ∧ va.toNat < r.virtEnd.toNat}

/-- Whether the region is moved from its physical to its virtual range. -/
structure Relocates (r : Region) : Prop where
  /-- there are bytes to move -/
  size_pos : 0 < r.size.toNat
  /-- the physical range has the size of the region -/
  phys_size : r.physStart.toNat + r.size.toNat = r.physEnd.toNat
  /-- so has the virtual range -/
  virt_size : r.virtStart.toNat + r.size.toNat = r.virtEnd.toNat
  /-- every byte goes to a different virtual address, and no virtual address is left over -/
  bijective : Set.BijOn r.toVirt r.physRange r.virtRange
  /-- the bytes stay in order -/
  ordered : ∀ pa ∈ r.physRange, ∀ pb ∈ r.physRange,
    (r.toVirt pa).toNat < (r.toVirt pb).toNat ↔ pa.toNat < pb.toNat
  /-- the address of no byte wraps around: each is as far from the virtual start as it was from the
  physical one -/
  straight : ∀ pa ∈ r.physRange,
    (r.toVirt pa).toNat = r.virtStart.toNat + (pa.toNat - r.physStart.toNat)
  /-- exactly one byte is at the entry point -/
  entry : ∃! pa, pa ∈ r.physRange ∧ r.toVirt pa = r.virtEntry

/-- A region is accepted when it is consistent. -/
theorem check_eq_ok_iff : r.check = .ok () ↔ r.isConsistent = true := by
  unfold check
  split_ifs with h <;> simp [h]

/-- The bytes of a consistent region move by the distance between the two starts. -/
theorem toNat_toVirt (h : r.isConsistent = true) {pa : PhysAddr} (hpa : pa ∈ r.physRange) :
    (r.toVirt pa).toNat = r.virtStart.toNat + (pa.toNat - r.physStart.toNat) := by
  obtain ⟨hphys, hvirt, -, -, -⟩ := isConsistent_iff.mp h
  obtain ⟨hstart, hend⟩ := hpa
  have hlast := r.virtEnd.toNat_lt
  have hmoved : r.toVirt pa =
      r.virtStart.offset (UInt64.ofNat (pa.toNat - r.physStart.toNat)) := by
    rw [← toVirt_offset h, Address.offset_sub hstart]
  rw [hmoved, Address.toNat_offset_ofNat (by omega)]

/-- Every virtual address of a consistent region is that of one of its bytes. -/
theorem exists_toVirt (h : r.isConsistent = true) {va : VirtAddr} (hva : va ∈ r.virtRange) :
    ∃ pa ∈ r.physRange, r.toVirt pa = va := by
  obtain ⟨hphys, hvirt, -, -, -⟩ := isConsistent_iff.mp h
  obtain ⟨hstart, hend⟩ := hva
  have hlast := r.physEnd.toNat_lt
  have hpa : (r.physStart.offset (UInt64.ofNat (va.toNat - r.virtStart.toNat))).toNat =
      r.physStart.toNat + (va.toNat - r.virtStart.toNat) :=
    Address.toNat_offset_ofNat (by omega)
  refine ⟨r.physStart.offset (UInt64.ofNat (va.toNat - r.virtStart.toNat)), ?_, ?_⟩
  · exact ⟨by omega, by omega⟩
  · rw [toVirt_offset h, Address.offset_sub hstart]

/-- A consistent region is moved from its physical to its virtual range. -/
theorem relocates_of_isConsistent (h : r.isConsistent = true) : r.Relocates := by
  obtain ⟨hphys, hvirt, -, hentry, hlimit⟩ := isConsistent_iff.mp h
  have hstraight : ∀ pa ∈ r.physRange,
      (r.toVirt pa).toNat = r.virtStart.toNat + (pa.toNat - r.physStart.toNat) :=
    fun pa hpa => toNat_toVirt h hpa
  -- two bytes at one virtual address are equally far from the start
  have hinj : Set.InjOn r.toVirt r.physRange := by
    intro pa hpa pb hpb heq
    have hnat := congrArg Address.toNat heq
    rw [hstraight pa hpa, hstraight pb hpb] at hnat
    have := hpa.1
    have := hpb.1
    exact Address.eq_of_toNat (by omega)
  exact
    { size_pos := by omega
      phys_size := hphys
      virt_size := hvirt
      bijective := by
        refine ⟨fun pa hpa => ?_, hinj, fun va hva => exists_toVirt h hva⟩
        have hnat := hstraight pa hpa
        obtain ⟨hstart, hend⟩ := hpa
        exact ⟨by omega, by omega⟩
      ordered := fun pa hpa pb hpb => by
        rw [hstraight pa hpa, hstraight pb hpb]
        have := hpa.1
        have := hpb.1
        omega
      straight := hstraight
      entry := by
        obtain ⟨pa, hpa, hva⟩ := exists_toVirt h ⟨hentry, hlimit⟩
        exact ⟨pa, ⟨hpa, hva⟩, fun pb hpb => hinj hpb.1 hpa (hpb.2.trans hva.symm)⟩ }

/-- Only a consistent region is moved from its physical to its virtual range: where its first byte
goes gives the offset, and the byte at the entry point puts that into the virtual range. -/
theorem Relocates.isConsistent (h : r.Relocates) : r.isConsistent = true := by
  have hpos := h.size_pos
  have hphys := h.phys_size
  have hfirst : r.physStart ∈ r.physRange := ⟨Nat.le_refl _, by omega⟩
  have hstart : r.toVirt r.physStart = r.virtStart := by
    apply Address.eq_of_toNat
    rw [h.straight _ hfirst, Nat.sub_self, Nat.add_zero]
  have hoffset : r.offset = r.virtStart.raw - r.physStart.raw := by
    have hraw : r.physStart.raw + r.offset = r.virtStart.raw := congrArg Address.raw hstart
    grind
  obtain ⟨pa, ⟨hpa, hentry⟩, -⟩ := h.entry
  have hrange : r.virtEntry ∈ r.virtRange := hentry ▸ h.bijective.mapsTo hpa
  exact isConsistent_iff.mpr ⟨hphys, h.virt_size, hoffset, hrange.1, hrange.2⟩

/-- A placed region is consistent when neither its size nor its virtual end wraps around, and its
entry point is in the virtual range. -/
theorem isConsistent_place_iff (physStart physEnd virtStart virtEntry : UInt64) :
    (place physStart physEnd virtStart virtEntry).isConsistent = true ↔
      physStart.toNat < physEnd.toNat ∧
        virtStart.toNat + (physEnd.toNat - physStart.toNat) < 2 ^ 64 ∧
        virtStart.toNat ≤ virtEntry.toNat ∧
        virtEntry.toNat < virtStart.toNat + (physEnd.toNat - physStart.toNat) := by
  have hsize := UInt64.toNat_sub physEnd physStart
  have hend := UInt64.toNat_add virtStart (physEnd - physStart)
  have hstartLt := physStart.toNat_lt
  have hendLt := physEnd.toNat_lt
  rw [isConsistent_iff]
  unfold place size Address.toNat
  dsimp only
  -- the sizes and ends as words are sums and differences of numbers up to a multiple of `2 ^ 64`
  constructor
  · rintro ⟨hphys, hvirt, -, hentry, hlimit⟩
    have hendOk := (virtStart + (physEnd - physStart)).toNat_lt
    exact ⟨by omega, by omega, hentry, by omega⟩
  · rintro ⟨hphys, hvirt, hentry, hlimit⟩
    exact ⟨by omega, by omega, rfl, hentry, by omega⟩

/-- A region is accepted exactly when it is moved faithfully from its physical to its virtual range,
and refused with its two starts otherwise. A placed region is accepted exactly when its ranges are
not empty and stay in the address space, and its entry point is in the virtual one. -/
theorem check_faithful :
    (∀ r : Region, (r.check = .ok () ↔ r.Relocates) ∧
      (¬r.Relocates → r.check = .error (.invalidRegion r.virtStart r.physStart))) ∧
    ∀ physStart physEnd virtStart virtEntry : UInt64,
      (place physStart physEnd virtStart virtEntry).check = .ok () ↔
        physStart.toNat < physEnd.toNat ∧
          virtStart.toNat + (physEnd.toNat - physStart.toNat) < 2 ^ 64 ∧
          virtStart.toNat ≤ virtEntry.toNat ∧
          virtEntry.toNat < virtStart.toNat + (physEnd.toNat - physStart.toNat) := by
  have hrelocates : ∀ r : Region, r.isConsistent = true ↔ r.Relocates :=
    fun r => ⟨relocates_of_isConsistent, Relocates.isConsistent⟩
  refine ⟨fun r => ⟨check_eq_ok_iff.trans (hrelocates r), fun hother => ?_⟩,
    fun physStart physEnd virtStart virtEntry =>
      check_eq_ok_iff.trans (isConsistent_place_iff physStart physEnd virtStart virtEntry)⟩
  unfold check
  rw [if_neg (mt (hrelocates r).mp hother)]

end BootLoader.Region
