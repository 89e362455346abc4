import BootLoader.Paging.Format
import BootLoader.Proofs.Address

/-!
# The geometry of a root table

A root table covers `Format.coverage` bytes, and tables are indexed by address bits alone: the
entry that an address selects at any level, and its distance from the start of a block, depend only
on the address modulo the coverage (`Format.index_congr`, `Format.blockOffset_congr`). In the other
direction, an entry of the root together with an entry of its child name one block of the smaller
tier in the coverage (`Format.block_one`), so blocks that differ modulo the coverage never share an
entry.
-/

namespace BootLoader.Paging.Format

open BootLoader

variable (F : Format)

/-- Every format has a level below the root. -/
theorem two_le_levels : 2 ≤ F.levels := by cases F <;> decide

/-- A table has entries. -/
theorem entries_pos : 0 < F.entries := by cases F <;> decide

/-- A table has more than one entry. -/
theorem one_lt_entries : 1 < F.entries := by cases F <;> decide

/-- The size of a block as a power of two. -/
theorem levelSize_eq (level : Nat) : F.levelSize level = 2 ^ F.levelShift level :=
  Nat.one_shiftLeft _

/-- Blocks are not empty. -/
theorem levelSize_pos (level : Nat) : 0 < F.levelSize level := by
  rw [levelSize_eq]
  exact Nat.two_pow_pos _

/-- A root entry covers as much as a whole table one level down. -/
theorem levelSize_zero : F.levelSize 0 = F.levelSize 1 * F.entries := by cases F <;> rfl

/-- The coverage of a root table is not empty. -/
theorem coverage_pos : 0 < F.coverage := Nat.mul_pos (F.levelSize_pos 0) F.entries_pos

/-- The coverage of a root table is part of the address space. -/
theorem coverage_lt_wordCount : F.coverage < wordCount := by cases F <;> decide

/-- Blocks are smaller than the address space. -/
theorem levelShift_lt (level : Nat) : F.levelShift level < 64 := by
  unfold levelShift
  have h : F.levels - 1 - level ≤ F.levels - 1 := Nat.sub_le _ _
  cases F <;> simp only [levels, indexBits, pageShift] at h ⊢ <;> omega

/-- The size of a block is one bit of a word, or none. -/
theorem levelShift_le (level : Nat) : F.levelShift level ≤ 64 := Nat.le_of_lt (F.levelShift_lt level)

/-- The coverage of a table at any level divides the coverage of the root. -/
theorem levelSize_mul_entries_dvd (level : Nat) :
    F.levelSize level * F.entries ∣ F.coverage := by
  unfold coverage
  rw [levelSize_eq, levelSize_eq, entries_eq_shiftLeft, Nat.one_shiftLeft, ← Nat.pow_add,
    ← Nat.pow_add]
  apply Nat.pow_dvd_pow
  have h : F.indexBits * (F.levels - 1 - level) ≤ F.indexBits * (F.levels - 1 - 0) :=
    Nat.mul_le_mul_left _ (by omega)
  unfold levelShift
  omega

/-- A block at any level divides the coverage of the root. -/
theorem levelSize_dvd_coverage (level : Nat) : F.levelSize level ∣ F.coverage :=
  Nat.dvd_trans (Nat.dvd_mul_right _ _) (F.levelSize_mul_entries_dvd level)

/-- The selected entry as the number of the block modulo the size of a table. -/
theorem index_eq (va : VirtAddr) (level : Nat) :
    F.index va level = va.toNat / F.levelSize level % F.entries := by
  unfold index
  rw [entries_eq_shiftLeft]

variable {F}

/-- The selected entry depends on the address modulo the coverage. -/
theorem index_congr {va wa : VirtAddr} (h : va.toNat % F.coverage = wa.toNat % F.coverage)
    (level : Nat) : F.index va level = F.index wa level := by
  have hd := F.levelSize_mul_entries_dvd level
  rw [index_eq, index_eq, ← Nat.mod_mul_right_div_self, ← Nat.mod_mul_right_div_self,
    ← Nat.mod_mod_of_dvd va.toNat hd, ← Nat.mod_mod_of_dvd wa.toNat hd, h]

/-- The distance from the start of the block depends on the address modulo the coverage. -/
theorem blockOffset_congr {va wa : VirtAddr} (h : va.toNat % F.coverage = wa.toNat % F.coverage)
    (level : Nat) : F.blockOffset va level = F.blockOffset wa level := by
  have hd := F.levelSize_dvd_coverage level
  unfold blockOffset
  rw [← Nat.mod_mod_of_dvd va.toNat hd, ← Nat.mod_mod_of_dvd wa.toNat hd, h]

/-! ## Blocks -/

/-- The number of the block at `level`, counted from the start of the coverage, that holds `va`. -/
def block (F : Format) (va : VirtAddr) (level : Nat) : Nat :=
  va.toNat % F.coverage / F.levelSize level

/-- A block of the top tier is an entry of the root. -/
theorem block_zero (va : VirtAddr) : F.block va 0 = F.index va 0 := by
  unfold block coverage
  rw [index_eq, Nat.mod_mul_right_div_self]

/-- A block of the intermediate tier is an entry of a child of the root. -/
theorem block_one (va : VirtAddr) :
    F.block va 1 = F.index va 0 * F.entries + F.index va 1 := by
  unfold block coverage
  rw [index_eq, index_eq, levelSize_zero, Nat.mul_assoc, Nat.mod_mul_right_div_self,
    ← Nat.div_div_eq_div_mul, Nat.mod_mul, Nat.add_comm, Nat.mul_comm]

/-- An address is the start of its block and the distance from there, modulo the coverage. -/
theorem block_add_blockOffset (va : VirtAddr) (level : Nat) :
    F.block va level * F.levelSize level + F.blockOffset va level = va.toNat % F.coverage := by
  unfold block blockOffset
  rw [← Nat.mod_mod_of_dvd va.toNat (F.levelSize_dvd_coverage level)]
  exact Nat.div_add_mod' _ _

/-- The distance from the start of a block stays below its size. -/
theorem blockOffset_lt (va : VirtAddr) (level : Nat) : F.blockOffset va level < F.levelSize level :=
  Nat.mod_lt _ (F.levelSize_pos level)

/-- An entry of the root and an entry of its child are the digits of a number to the base of the
entries. -/
theorem digits_eq_iff {slot slot' i i' : Nat} (hi : i < F.entries) (hi' : i' < F.entries) :
    slot * F.entries + i = slot' * F.entries + i' ↔ slot = slot' ∧ i = i' := by
  constructor
  · intro h
    have hlow : i = i' := by
      have := congrArg (· % F.entries) h
      simpa only [Nat.mul_add_mod_self_right, Nat.mod_eq_of_lt hi, Nat.mod_eq_of_lt hi'] using this
    rw [hlow] at h
    exact ⟨Nat.eq_of_mul_eq_mul_right F.entries_pos (Nat.add_right_cancel h), hlow⟩
  · rintro ⟨hslot, hlow⟩
    rw [hslot, hlow]

/-- The entries that an address selects at the two levels of the tiers, from its block of the
intermediate tier. -/
theorem block_one_eq_iff {va wa : VirtAddr} :
    F.block va 1 = F.block wa 1 ↔ F.index va 0 = F.index wa 0 ∧ F.index va 1 = F.index wa 1 := by
  rw [block_one, block_one]
  exact digits_eq_iff (F.index_lt_entries va 1) (F.index_lt_entries wa 1)

end BootLoader.Paging.Format
