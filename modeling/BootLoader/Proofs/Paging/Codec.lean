import BootLoader.Proofs.Paging.Geometry

/-!
# Entries decode to what they encode

The address field of an entry holds addresses below `Format.addressLimit`. A leaf that is written to
a table and read back, through the width of the table, decodes at its level to a leaf whose base is
the encoded one modulo that limit (`Format.decode_leafWord`), and a pointer decodes to the encoded
table modulo that limit (`Format.decode_pointerWord`). Both are therefore never zero, which decodes
as invalid at every level, and never equal to one another.
-/

namespace BootLoader.Paging.Format

variable {F : Format}

/-- The first physical address that the address field of an entry cannot hold. -/
def addressLimit : Format → Nat
  | sv32 => 0x400000000
  | sv39 => 0x100000000000000
  | sv48 => 0x100000000000000
  | aarch64 => 0x1000000000000

/-- The bits of a leaf beside its address. -/
def leafAttrs (F : Format) (memory : Memory) (level : Nat) : UInt64 :=
  match F with
  | aarch64 => UInt64.ofNat (Arm.Fields.of memory (level == aarch64.levels - 1) .profile).bits
  | _ => UInt64.ofNat (RiscV.leafFlags .profile)

/-- The addresses that an entry holds are part of the address space. -/
theorem addressLimit_le (F : Format) : F.addressLimit ≤ wordCount := by cases F <;> decide

/-- Above the addresses that an entry holds there is room for a leaf of the top tier. -/
theorem addressLimit_add_levelSize_le (F : Format) : F.addressLimit + F.levelSize 0 ≤ wordCount := by
  cases F <;> decide

/-- The address field holds some address. -/
theorem addressLimit_pos (F : Format) : 0 < F.addressLimit := by cases F <;> decide

/-- The address space is a whole number of times the range of the address field. -/
theorem addressLimit_dvd (F : Format) : F.addressLimit ∣ wordCount := by cases F <;> decide

/-- Leaves of every level fit the range of the address field a whole number of times. -/
theorem levelSize_dvd_addressLimit (level : Nat) : F.levelSize level ∣ F.addressLimit := by
  have h : F.levelSize level ∣ F.levelSize 0 := by
    rw [levelSize_eq, levelSize_eq]
    apply Nat.pow_dvd_pow
    unfold levelShift
    have := Nat.mul_le_mul_left F.indexBits (show F.levels - 1 - level ≤ F.levels - 1 - 0 by omega)
    omega
  exact Nat.dvd_trans h (by cases F <;> decide)

/-- An address that an entry can hold is rounded up to a granule of the root. -/
theorem toNat_alignUp_root {a : PhysAddr} (h : a.toNat ≤ F.addressLimit) :
    (a.alignUp (F.levelShift 0)).toNat =
      (a.toNat + (F.levelSize 0 - 1)) / F.levelSize 0 * F.levelSize 0 := by
  have hroom := F.addressLimit_add_levelSize_le
  have hpos := F.levelSize_pos 0
  rw [levelSize_eq] at hroom hpos ⊢
  exact Address.toNat_alignUp (F.levelShift_le 0) (by omega)

/-! ## RISC-V -/

/-- The number of a RISC-V entry: the page number above the low bits. -/
theorem toNat_encode {pa : PhysAddr} {flags : Nat} (h : flags < 1024) :
    (RiscV.encode pa flags).toNat = pa.toNat / 4096 * 1024 + flags := by
  have hpa := pa.toNat_lt
  rw [wordCount_eq] at hpa
  unfold RiscV.encode RiscV.flagCount pageSize
  exact UInt64.toNat_ofNat_of_lt' (by simp only [UInt64.size]; omega)

/-- What a RISC-V entry says whose low bits are `flags`, when the table keeps `2 ^ storedBits` of it
and the field for the page number has `fieldBits` bits, all of them kept. -/
theorem decode_encode (pa : PhysAddr) (flags fieldBits : Nat) (raw : UInt64)
    (hf : flags < 1024) (hraw : raw.toNat % (1024 * 2 ^ fieldBits) =
      (RiscV.encode pa flags).toNat % (1024 * 2 ^ fieldBits)) (hodd : flags % 2 = 1)
    (hpa : pa.toNat % 4096 = 0) :
    RiscV.decode fieldBits raw =
      if flags / 2 % 8 = 0 then .next (.ofNat (pa.toNat % (4096 * 2 ^ fieldBits)))
      else .leaf (.ofNat (pa.toNat % (4096 * 2 ^ fieldBits))) (UInt64.ofNat flags) := by
  rw [toNat_encode hf] at hraw
  -- The flags are the low bits of the entry, and the page number is above them.
  have hlow : raw.toNat % 1024 = flags := by
    have h1 := Nat.mod_mod_of_dvd raw.toNat (Nat.dvd_mul_right 1024 (2 ^ fieldBits))
    have h2 := Nat.mod_mod_of_dvd (pa.toNat / 4096 * 1024 + flags)
      (Nat.dvd_mul_right 1024 (2 ^ fieldBits))
    rw [hraw] at h1
    omega
  have hhigh : raw.toNat / 1024 % 2 ^ fieldBits = pa.toNat / 4096 % 2 ^ fieldBits := by
    rw [← Nat.mod_mul_right_div_self, hraw, Nat.mod_mul_right_div_self]
    congr 1
    omega
  have hbase : raw.toNat / 1024 % 2 ^ fieldBits * 4096 = pa.toNat % (4096 * 2 ^ fieldBits) := by
    rw [hhigh, Nat.mod_mul, hpa, Nat.zero_add, Nat.mul_comm]
  have hbit : raw.toNat % 2 = 1 := by omega
  have hrights : raw.toNat / 2 % 8 = flags / 2 % 8 := by omega
  unfold RiscV.decode RiscV.flagCount pageSize
  simp only [hbit, hrights, hlow, Nat.one_shiftLeft, hbase]
  split <;> simp_all

/-! ## AArch64 -/

/-- The number of a leaf descriptor at the level for which it is encoded: the output address beside
the number of the fields. -/
theorem toNat_arm_encode {pa : PhysAddr} {level size : Nat} {fields : Arm.Fields}
    (hsize : Arm.blockSize? level = some size) (hdvd : size ∣ Arm.outputLimit)
    (hpa : pa.toNat % size = 0) (hbits : fields.bits < 2 ^ 55) :
    (Arm.encode pa level fields).toNat = pa.toNat % Arm.outputLimit + fields.bits := by
  have hout : Arm.outputBits size pa.toNat = pa.toNat % Arm.outputLimit := by
    unfold Arm.outputBits
    apply Nat.div_mul_cancel
    apply Nat.dvd_of_mod_eq_zero
    rw [Nat.mod_mod_of_dvd _ hdvd, hpa]
  have hlt : pa.toNat % Arm.outputLimit < 0x1000000000000 := Nat.mod_lt _ (by decide)
  unfold Arm.encode Arm.blockSize
  rw [hsize, Option.getD_some, hout]
  exact UInt64.toNat_ofNat_of_lt' (by simp only [UInt64.size]; omega)

/-- What a leaf descriptor says at the level for which it is encoded: bits 0 and 1 are those of the
fields, and the fields stay clear of the output address. -/
theorem decode_arm_encode {pa : PhysAddr} {level size : Nat} {fields : Arm.Fields} {last : Bool}
    (hsize : Arm.blockSize? level = some size) (hdvd : size ∣ Arm.outputLimit)
    (hpa : pa.toNat % size = 0) (hlow : fields.bits % Arm.outputLimit < size)
    (hbits : fields.bits < 2 ^ 55) (hvalid : fields.bits % 2 = 1)
    (hpage : fields.bits / 2 % 2 = last.toNat) (heven : size % 4 = 0) :
    Arm.decode (Arm.encode pa level fields) level last =
      .leaf (.ofNat (pa.toNat % Arm.outputLimit)) (UInt64.ofNat fields.bits) := by
  have hraw := toNat_arm_encode hsize hdvd hpa hbits
  generalize hb : fields.bits = b at *
  have hos : size ∣ pa.toNat % Arm.outputLimit :=
    (Nat.dvd_mod_iff hdvd).mpr (Nat.dvd_of_mod_eq_zero hpa)
  have hlt : pa.toNat % Arm.outputLimit < Arm.outputLimit := Nat.mod_lt _ (by decide)
  generalize pa.toNat % Arm.outputLimit = o at *
  -- The address is a multiple of the block, so the low fields never carry into it.
  have hkeep : Arm.outputBits size (o + b) = o := by
    obtain ⟨k, hk⟩ := hdvd
    obtain ⟨m, rfl⟩ := hos
    have hm : m < k := by
      rw [hk] at hlt
      exact Nat.lt_of_mul_lt_mul_left hlt
    have hsum : size * m + b % Arm.outputLimit < Arm.outputLimit := by
      have hle : size * (m + 1) ≤ size * k := Nat.mul_le_mul_left size hm
      rw [Nat.mul_succ, ← hk] at hle
      omega
    unfold Arm.outputBits
    rw [← Nat.add_mod_mod, Nat.mod_eq_of_lt hsum, Nat.add_comm, Nat.add_mul_div_left _ _ (by omega),
      Nat.div_eq_of_lt hlow, Nat.zero_add, Nat.mul_comm]
  have ho4 : o % 4 = 0 := Nat.mod_eq_zero_of_dvd (Nat.dvd_trans (Nat.dvd_of_mod_eq_zero heven) hos)
  have hodd : (o + b) % 2 = 1 := by omega
  have htype : (o + b) / 2 % 2 = last.toNat := by omega
  unfold Arm.decode
  simp only [hraw, hsize, hkeep, Nat.add_sub_cancel_left, hodd, htype]
  cases last <;> rfl

/-- The block of a leaf descriptor is the block of its level. -/
theorem blockSize?_eq {level : Nat} (hlevel : level < aarch64.levels) :
    Arm.blockSize? level = some (aarch64.levelSize level) := by
  match level, hlevel with
  | 0, _ => rfl
  | 1, _ => rfl
  | 2, _ => rfl

/-- The fields of the loader's leaves: the valid bit and the type bit are theirs, and they stay
clear of the output address. -/
theorem armFields_bits (memory : Memory) (last : Bool) :
    (Arm.Fields.of memory last .profile).bits % Arm.outputLimit < 4096 ∧
      (Arm.Fields.of memory last .profile).bits < 2 ^ 55 ∧
      (Arm.Fields.of memory last .profile).bits % 2 = 1 ∧
      (Arm.Fields.of memory last .profile).bits / 2 % 2 = last.toNat := by
  cases memory <;> cases last <;> decide

/-- The number of a descriptor that points at a table: the address of the table beside the two low
bits. -/
theorem toNat_arm_pointer {child : PhysAddr} (hchild : child.toNat % pageSize = 0) :
    (Arm.pointer child).toNat = child.toNat % Arm.outputLimit + 3 := by
  have hout : Arm.outputBits pageSize child.toNat = child.toNat % Arm.outputLimit := by
    unfold Arm.outputBits Arm.outputLimit
    unfold pageSize at *
    omega
  have hlt : child.toNat % Arm.outputLimit < 0x1000000000000 := Nat.mod_lt _ (by decide)
  unfold Arm.pointer
  rw [hout]
  exact UInt64.toNat_ofNat_of_lt' (by simp only [UInt64.size]; omega)

/-- What a descriptor that points at a table says above the last level. -/
theorem decode_arm_pointer {child : PhysAddr} {level : Nat} (hlevel : level < 3)
    (hchild : child.toNat % pageSize = 0) :
    Arm.decode (Arm.pointer child) level false = .next (.ofNat (child.toNat % Arm.outputLimit)) := by
  have hraw := toNat_arm_pointer hchild
  have hpage : child.toNat % Arm.outputLimit % 4096 = 0 := by
    rw [Nat.mod_mod_of_dvd _ (by decide)]
    exact hchild
  have hlt : child.toNat % Arm.outputLimit < 0x1000000000000 := Nat.mod_lt _ (by decide)
  generalize child.toNat % Arm.outputLimit = o at *
  -- The address ends where a page ends, so the type bits below it do not touch it.
  have hkeep : Arm.outputBits pageSize (o + 3) = o := by
    unfold Arm.outputBits Arm.outputLimit pageSize
    omega
  have hodd : (o + 3) % 2 = 1 := by omega
  have htype : (o + 3) / 2 % 2 = 1 := by omega
  obtain ⟨size, hsize⟩ : ∃ size, Arm.blockSize? level = some size := by
    match level, hlevel with
    | 0, _ => exact ⟨_, rfl⟩
    | 1, _ => exact ⟨_, rfl⟩
    | 2, _ => exact ⟨_, rfl⟩
  unfold Arm.decode
  simp only [hraw, hsize, hkeep, hodd, htype]
  rfl

/-! ## All formats -/

/-- A block of any level is a whole number of pages. -/
theorem pageSize_dvd_levelSize (level : Nat) : pageSize ∣ F.levelSize level := by
  rw [levelSize_eq, show pageSize = 2 ^ pageShift from rfl]
  exact Nat.pow_dvd_pow 2 (Nat.le_add_right _ _)

/-- A narrow table keeps of an entry what its address field and flags need. -/
theorem stored_narrow_mod (raw : UInt64) :
    (EntryWidth.narrow.stored raw).toNat % (1024 * 2 ^ 22) = raw.toNat % (1024 * 2 ^ 22) := by
  unfold EntryWidth.stored
  rw [UInt64.toNat_ofNat_of_lt' (Nat.lt_of_lt_of_le (Nat.mod_lt _ (by decide)) (by decide))]
  exact Nat.mod_mod _ _

/-- A leaf that is stored and read back is a leaf, and its base is the encoded one modulo the range
of the address field. -/
theorem decode_leafWord {level : Nat} (hlevel : level < F.levels) {base : PhysAddr}
    (hbase : base.toNat % F.levelSize level = 0) (memory : Memory) :
    F.decode (F.width.stored (F.leafWord memory base level)) level =
      .leaf (.ofNat (base.toNat % F.addressLimit)) (F.leafAttrs memory level) := by
  have hpage : base.toNat % 4096 = 0 :=
    Nat.mod_eq_zero_of_dvd
      (Nat.dvd_trans (F.pageSize_dvd_levelSize level) (Nat.dvd_of_mod_eq_zero hbase))
  have hflags : RiscV.leafFlags .profile = 239 := rfl
  -- The RISC-V formats differ in the widths of entries and of page numbers only.
  cases F with
  | sv32 =>
    have h := decode_encode base (RiscV.leafFlags .profile) 22 _
      (by decide) (stored_narrow_mod _) (by decide) hpage
    simpa [decode, leafWord, width, RiscV.leaf, addressLimit, leafAttrs, hflags] using h
  | sv39 =>
    have h := decode_encode base (RiscV.leafFlags .profile) 44 (RiscV.leaf base)
      (by decide) rfl (by decide) hpage
    simpa [decode, leafWord, width, EntryWidth.stored, addressLimit, leafAttrs, hflags] using h
  | sv48 =>
    have h := decode_encode base (RiscV.leafFlags .profile) 44 (RiscV.leaf base)
      (by decide) rfl (by decide) hpage
    simpa [decode, leafWord, width, EntryWidth.stored, addressLimit, leafAttrs, hflags] using h
  | aarch64 =>
    obtain ⟨hlow, hbits, hvalid, hpage'⟩ := armFields_bits memory (level == aarch64.levels - 1)
    have hsize : aarch64.levelSize level % 4096 = 0 :=
      Nat.mod_eq_zero_of_dvd (pageSize_dvd_levelSize level)
    have hpos := aarch64.levelSize_pos level
    exact decode_arm_encode (blockSize?_eq hlevel) (levelSize_dvd_addressLimit level) hbase
      (by omega) hbits hvalid hpage' (by omega)

/-- A pointer that is stored and read back points at the encoded table modulo the range of the
address field. -/
theorem decode_pointerWord {level : Nat} (hlevel : level + 1 < F.levels) {child : PhysAddr}
    (hchild : child.toNat % pageSize = 0) :
    F.decode (F.width.stored (F.pointerWord child)) level =
      .next (.ofNat (child.toNat % F.addressLimit)) := by
  cases F with
  | sv32 =>
    have h := decode_encode child 1 22 _ (by decide) (stored_narrow_mod _) (by decide)
      hchild
    simpa [decode, pointerWord, width, RiscV.pointer, addressLimit] using h
  | sv39 =>
    have h := decode_encode child 1 44 (RiscV.pointer child) (by decide) rfl (by decide) hchild
    simpa [decode, pointerWord, width, EntryWidth.stored, addressLimit] using h
  | sv48 =>
    have h := decode_encode child 1 44 (RiscV.pointer child) (by decide) rfl (by decide) hchild
    simpa [decode, pointerWord, width, EntryWidth.stored, addressLimit] using h
  | aarch64 =>
    have hlast : (level == aarch64.levels - 1) = false := by
      simp only [levels] at hlevel ⊢
      exact beq_eq_false_iff_ne.mpr (by omega)
    unfold decode
    rw [hlast]
    exact decode_arm_pointer (Nat.lt_of_succ_lt hlevel) hchild

/-- The empty entry is invalid at every level. -/
theorem decode_zero (level : Nat) : F.decode 0 level = .invalid := by cases F <;> rfl

/-- A stored leaf is not the empty entry. -/
theorem stored_leafWord_ne_zero {level : Nat} (hlevel : level < F.levels) {base : PhysAddr}
    (hbase : base.toNat % F.levelSize level = 0) (memory : Memory) :
    F.width.stored (F.leafWord memory base level) ≠ 0 := by
  intro h
  have hd := decode_leafWord hlevel hbase memory
  rw [h, decode_zero] at hd
  cases hd

/-- A stored pointer is not the empty entry. -/
theorem stored_pointerWord_ne_zero {child : PhysAddr} (hchild : child.toNat % pageSize = 0) :
    F.width.stored (F.pointerWord child) ≠ 0 := by
  intro h
  have hd := decode_pointerWord (show 0 + 1 < F.levels from F.two_le_levels) hchild
  rw [h, decode_zero] at hd
  cases hd

/-- Storing a word twice is storing it once. -/
theorem stored_stored (w : EntryWidth) (raw : UInt64) : w.stored (w.stored raw) = w.stored raw := by
  cases w with
  | wide => rfl
  | narrow =>
    apply UInt64.toNat_inj.mp
    unfold EntryWidth.stored
    simp only [UInt64.toNat_ofNat']
    omega

/-- The leaf at a level keeps all of its base when that is a multiple of its block. -/
theorem isLeafBase_iff {level : Nat} (hlevel : level < F.levels) {base : PhysAddr} :
    F.isLeafBase base level = true ↔ base.toNat % F.levelSize level = 0 := by
  rw [levelSize_eq, ← Address.isAligned_iff (F.levelShift_le level)]
  cases F with
  | aarch64 =>
    match level, hlevel with
    | 0, _ => exact Iff.rfl
    | 1, _ => exact Iff.rfl
    | 2, _ => exact Iff.rfl
  | _ => simp only [isLeafBase, hlevel, decide_true, Bool.true_and]

/-- A leaf can be encoded at its level without a fault when its base is a multiple of its block. -/
theorem leaf_eq_ok {level : Nat} (hlevel : level < F.levels) {base : PhysAddr}
    (hbase : base.toNat % F.levelSize level = 0) (memory : Memory) :
    F.leaf memory base level = .ok (F.leafWord memory base level) := by
  unfold leaf
  rw [if_pos ((isLeafBase_iff hlevel).mpr hbase)]

/-- A leaf that is encoded without a fault has a multiple of its block as its base. -/
theorem of_leaf_ok {level : Nat} (hlevel : level < F.levels) {memory : Memory} {base : PhysAddr}
    {raw : UInt64} (h : F.leaf memory base level = .ok raw) :
    base.toNat % F.levelSize level = 0 ∧ raw = F.leafWord memory base level := by
  unfold leaf at h
  split at h
  · rename_i hbase
    cases h
    exact ⟨(isLeafBase_iff hlevel).mp hbase, rfl⟩
  · cases h

/-- A pointer at a page can be encoded without a fault. -/
theorem pointer_eq_ok {child : PhysAddr} (hchild : child.toNat % pageSize = 0) :
    F.pointer child = .ok (F.pointerWord child) := by
  unfold pointer
  rw [if_pos (Address.isPageAligned_iff.mpr hchild)]

end BootLoader.Paging.Format
