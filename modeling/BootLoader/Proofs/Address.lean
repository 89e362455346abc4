import BootLoader.Address
import Mathlib.Algebra.Group.Nat.Defs

/-!
# Address arithmetic

The word operations on addresses by their effect on natural numbers: an address is below
`wordCount`, the address of a number below it stands for that number, and an address that moves
without leaving the address space moves as its number does.
-/

namespace BootLoader

/-- The number of words, as a literal. -/
theorem wordCount_eq : wordCount = 18446744073709551616 := rfl

/-- The granules below the whole address space are the powers of two. -/
theorem granuleOf_eq {bits : Nat} (h : bits ≤ 64) : granuleOf bits = 2 ^ bits := by
  unfold granuleOf
  rw [Nat.min_eq_left h, Nat.one_shiftLeft]

namespace Address

variable {s : Space}

/-- An address is below the number of words. -/
theorem toNat_lt (a : Address s) : a.toNat < wordCount := a.raw.toNat_lt

/-- Addresses with the same number are the same address. -/
theorem eq_of_toNat {a b : Address s} (h : a.toNat = b.toNat) : a = b := by
  cases a
  cases b
  exact congrArg Address.mk (UInt64.toNat_inj.mp h)

/-- The address of a number keeps what is below the number of words. -/
theorem toNat_ofNat (n : Nat) : (ofNat n : Address s).toNat = n % wordCount :=
  UInt64.toNat_ofNat'

/-- The address of a number in the address space stands for that number. -/
theorem toNat_ofNat_of_lt {n : Nat} (h : n < wordCount) : (ofNat n : Address s).toNat = n := by
  rw [toNat_ofNat, Nat.mod_eq_of_lt h]

/-- An address is the address of its number. -/
theorem ofNat_toNat (a : Address s) : ofNat a.toNat = a :=
  eq_of_toNat (toNat_ofNat_of_lt a.toNat_lt)

/-- A move wraps around at the end of the address space. -/
theorem toNat_offset (a : Address s) (d : UInt64) :
    (a.offset d).toNat = (a.toNat + d.toNat) % wordCount :=
  UInt64.toNat_add a.raw d

/-- A move that stays in the address space adds the distance. -/
theorem toNat_offset_ofNat {a : Address s} {d : Nat} (h : a.toNat + d < wordCount) :
    (a.offset (UInt64.ofNat d)).toNat = a.toNat + d := by
  have hd : (UInt64.ofNat d).toNat = d :=
    UInt64.toNat_ofNat_of_lt' (Nat.lt_of_le_of_lt (Nat.le_add_left d a.toNat) h)
  rw [toNat_offset, hd, Nat.mod_eq_of_lt h]

/-- A move by the distance between two addresses leads from one to the other. -/
theorem offset_sub {a b : Address s} (h : a.toNat ≤ b.toNat) :
    a.offset (UInt64.ofNat (b.toNat - a.toNat)) = b := by
  have hb := b.toNat_lt
  apply eq_of_toNat
  rw [toNat_offset_ofNat (by omega), Nat.add_sub_cancel' h]

/-- Two moves are one move by the sum, when the sum stays in the address space. -/
theorem offset_offset {a : Address s} {c d : Nat} (h : a.toNat + (c + d) < wordCount) :
    (a.offset (UInt64.ofNat c)).offset (UInt64.ofNat d) = a.offset (UInt64.ofNat (c + d)) := by
  have hc : (a.offset (UInt64.ofNat c)).toNat = a.toNat + c := toNat_offset_ofNat (by omega)
  apply eq_of_toNat
  rw [toNat_offset_ofNat h, toNat_offset_ofNat (by omega), hc, Nat.add_assoc]

/-- Alignment as divisibility by a power of two. -/
theorem isAligned_iff {a : Address s} {bits : Nat} (h : bits ≤ 64) :
    a.isAligned bits = true ↔ a.toNat % 2 ^ bits = 0 := by
  unfold isAligned
  rw [granuleOf_eq h, beq_iff_eq]

/-- Rounding down clears the bits below the granule. -/
theorem toNat_alignDown {a : Address s} {bits : Nat} (h : bits ≤ 64) :
    (a.alignDown bits).toNat = a.toNat / 2 ^ bits * 2 ^ bits := by
  unfold alignDown
  rw [granuleOf_eq h, toNat_ofNat_of_lt]
  exact Nat.lt_of_le_of_lt (Nat.div_mul_le_self _ _) a.toNat_lt

/-- Rounding up reaches the next multiple of the granule, when that is in the address space. -/
theorem toNat_alignUp {a : Address s} {bits : Nat} (h : bits ≤ 64)
    (ha : a.toNat + (2 ^ bits - 1) < wordCount) :
    (a.alignUp bits).toNat = (a.toNat + (2 ^ bits - 1)) / 2 ^ bits * 2 ^ bits := by
  unfold alignUp
  simp only [granuleOf_eq h, if_pos ha]
  rw [toNat_ofNat_of_lt]
  exact Nat.lt_of_le_of_lt (Nat.div_mul_le_self _ _) ha

/-- Rounding down does not go up. -/
theorem alignDown_le (a : Address s) {bits : Nat} (h : bits ≤ 64) :
    (a.alignDown bits).toNat ≤ a.toNat := by
  rw [toNat_alignDown h]
  exact Nat.div_mul_le_self _ _

/-- Rounding up does not go down. -/
theorem le_alignUp {a : Address s} {bits : Nat} (h : bits ≤ 64)
    (ha : a.toNat + (2 ^ bits - 1) < wordCount) : a.toNat ≤ (a.alignUp bits).toNat := by
  rw [toNat_alignUp h ha]
  have hpos := Nat.two_pow_pos bits
  have hsplit := Nat.div_add_mod' (a.toNat + (2 ^ bits - 1)) (2 ^ bits)
  have hmod := Nat.mod_lt (a.toNat + (2 ^ bits - 1)) hpos
  omega

/-- Rounding up always gives a multiple of the granule. -/
theorem alignUp_aligned {a : Address s} {bits : Nat} (h : bits ≤ 64) :
    (a.alignUp bits).toNat % 2 ^ bits = 0 := by
  unfold alignUp
  simp only [granuleOf_eq h]
  split
  · rename_i hlt
    rw [toNat_ofNat_of_lt (Nat.lt_of_le_of_lt (Nat.div_mul_le_self _ _) hlt), Nat.mul_mod_left]
  · rw [toNat_ofNat_of_lt (Nat.lt_of_le_of_lt (Nat.div_mul_le_self _ _) (by decide)),
      Nat.mul_mod_left]

/-- Rounding up stops at the last multiple of the granule when there is none above. -/
theorem toNat_alignUp_of_top {a : Address s} {bits : Nat} (h : bits ≤ 64)
    (ha : wordCount ≤ a.toNat + (2 ^ bits - 1)) :
    (a.alignUp bits).toNat + 2 ^ bits = wordCount := by
  have hdvd : 2 ^ bits ∣ wordCount := Nat.pow_dvd_pow 2 h
  obtain ⟨k, hk⟩ := hdvd
  have hpos := Nat.two_pow_pos bits
  have hk' : 0 < k := Nat.pos_of_ne_zero fun hzero => by
    rw [hzero, Nat.mul_zero] at hk
    exact absurd hk (by decide)
  have hlast : (wordCount - 1) / 2 ^ bits = k - 1 := by
    rw [Nat.div_eq_iff hpos, hk, Nat.sub_mul, Nat.mul_comm k]
    have := Nat.le_mul_of_pos_right (2 ^ bits) hk'
    omega
  unfold alignUp
  simp only [granuleOf_eq h, if_neg (Nat.not_lt.mpr ha)]
  rw [toNat_ofNat_of_lt (Nat.lt_of_le_of_lt (Nat.div_mul_le_self _ _) (by decide)), hlast,
    ← Nat.succ_mul, Nat.succ_eq_add_one, Nat.sub_add_cancel hk', hk, Nat.mul_comm]

/-- Rounding up does not go down exactly when there is a multiple of the granule above. -/
theorem le_alignUp_iff {a : Address s} {bits : Nat} (h : bits ≤ 64) :
    a.toNat ≤ (a.alignUp bits).toNat ↔ a.toNat + 2 ^ bits ≤ wordCount := by
  have hpos := Nat.two_pow_pos bits
  constructor
  · intro hle
    apply Nat.le_of_not_lt
    intro hlt
    have := toNat_alignUp_of_top h (a := a) (by omega)
    omega
  · exact fun hle => le_alignUp h (by omega)

/-- A multiple of the granule at or below an address is not above the address rounded down. -/
theorem le_alignDown_of_dvd {a : Address s} {bits m : Nat} (h : bits ≤ 64) (hm : 2 ^ bits ∣ m)
    (hle : m ≤ a.toNat) : m ≤ (a.alignDown bits).toNat := by
  obtain ⟨k, rfl⟩ := hm
  rw [toNat_alignDown h, Nat.mul_comm]
  refine Nat.mul_le_mul_right _ ((Nat.le_div_iff_mul_le (Nat.two_pow_pos bits)).mpr ?_)
  rwa [Nat.mul_comm]

/-- A multiple of the granule at or above an address is not below the address rounded up. -/
theorem alignUp_le_of_dvd {a : Address s} {bits m : Nat} (h : bits ≤ 64) (hm : 2 ^ bits ∣ m)
    (hle : a.toNat ≤ m) : (a.alignUp bits).toNat ≤ m := by
  have hpos := Nat.two_pow_pos bits
  by_cases ha : a.toNat + (2 ^ bits - 1) < wordCount
  · obtain ⟨k, rfl⟩ := hm
    rw [toNat_alignUp h ha, Nat.mul_comm]
    refine Nat.mul_le_mul_left _ (Nat.lt_succ_iff.mp (Nat.div_lt_of_lt_mul ?_))
    rw [Nat.mul_succ]
    omega
  · have := toNat_alignUp_of_top h (Nat.not_lt.mp ha)
    omega

/-- A page-aligned address is a multiple of the page size. -/
theorem isPageAligned_iff {a : Address s} : a.isPageAligned = true ↔ a.toNat % pageSize = 0 :=
  isAligned_iff (by decide)

end Address

/-- An identity mapping keeps the number of an address. -/
@[simp] theorem Address.toNat_identityMapped (a : PhysAddr) : a.identityMapped.toNat = a.toNat := rfl

end BootLoader
