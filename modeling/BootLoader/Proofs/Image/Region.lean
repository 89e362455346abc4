import BootLoader.Image.Region
import BootLoader.Proofs.Address

/-!
# Consistent regions

A region is consistent when its two ranges, as ranges of numbers, have the same length, the offset
leads from one to the other, and the entry point is in the virtual one (`Region.isConsistent_iff`). Its
bytes are then at the same distance from the start in both ranges (`Region.toVirt_offset`).
-/

namespace BootLoader.Region

variable {r : Region}

/-- The checks of a region in terms of numbers: neither range goes past the end of the address space,
and the region is not empty because its entry point is in it. -/
theorem isConsistent_iff : r.isConsistent = true ↔
    r.physStart.toNat + r.size.toNat = r.physEnd.toNat ∧
      r.virtStart.toNat + r.size.toNat = r.virtEnd.toNat ∧
      r.offset = r.virtStart.raw - r.physStart.raw ∧
      r.virtStart.toNat ≤ r.virtEntry.toNat ∧ r.virtEntry.toNat < r.virtEnd.toNat := by
  unfold isConsistent isEmpty
  simp only [Bool.and_eq_true, decide_eq_true_eq, beq_iff_eq, Bool.not_eq_true', beq_eq_false_iff_ne,
    and_assoc]
  constructor
  · rintro ⟨hphys, hvirt, hsize, hoffset, hentry, hlimit, -⟩
    have hphysSize : r.size.toNat = r.physEnd.toNat - r.physStart.toNat :=
      UInt64.toNat_sub_of_le _ _ hphys
    have hvirtSize : r.size.toNat = r.virtEnd.toNat - r.virtStart.toNat := by
      rw [hsize]
      exact UInt64.toNat_sub_of_le _ _ hvirt
    have hphys : r.physStart.toNat ≤ r.physEnd.toNat := UInt64.le_iff_toNat_le.mp hphys
    have hvirt : r.virtStart.toNat ≤ r.virtEnd.toNat := UInt64.le_iff_toNat_le.mp hvirt
    exact ⟨by omega, by omega, hoffset, UInt64.le_iff_toNat_le.mp hentry,
      UInt64.lt_iff_toNat_lt.mp hlimit⟩
  · rintro ⟨hphys, hvirt, hoffset, hentry, hlimit⟩
    have hphysLe : r.physStart.toNat ≤ r.physEnd.toNat := hphys ▸ Nat.le_add_right _ _
    have hvirtLe : r.virtStart.toNat ≤ r.virtEnd.toNat := hvirt ▸ Nat.le_add_right _ _
    have hvirtSize : (r.virtEnd.raw - r.virtStart.raw).toNat = r.virtEnd.toNat - r.virtStart.toNat :=
      UInt64.toNat_sub_of_le _ _ (UInt64.le_iff_toNat_le.mpr hvirtLe)
    refine ⟨UInt64.le_iff_toNat_le.mpr hphysLe, UInt64.le_iff_toNat_le.mpr hvirtLe, ?_, hoffset,
      UInt64.le_iff_toNat_le.mpr hentry, UInt64.lt_iff_toNat_lt.mpr hlimit, ?_⟩
    · apply UInt64.toNat_inj.mp
      rw [hvirtSize]
      omega
    · intro hzero
      rw [hzero, UInt64.toNat_zero] at hvirt
      omega

/-- A byte is at the same distance from the start in both ranges. -/
theorem toVirt_offset (h : r.isConsistent = true) (d : UInt64) :
    r.toVirt (r.physStart.offset d) = r.virtStart.offset d := by
  obtain ⟨-, -, hoffset, -, -⟩ := isConsistent_iff.mp h
  have hraw : r.physStart.raw + d + (r.virtStart.raw - r.physStart.raw) = r.virtStart.raw + d := by
    grind
  unfold toVirt Address.offset
  rw [hoffset, hraw]

end BootLoader.Region
