import BootLoader.Proofs.Paging.Storage

/-!
# Entries and the table

What is written to an entry of a table comes back when the entry is read (`Format.ReadsBack`), for
leaves of every level and kind of memory and for pointers, as long as the address field of an entry
holds their addresses (`Format.HoldsBlock`, `Format.HoldsTable`). Such an entry passes through a
narrow table unchanged, and both of its parts can be read off the word whatever the level is: the
address (`Format.addressField`) and the low bits beside it (`Format.flagField`). So words for
different addresses differ, and no word is both a leaf and a pointer. The check of a mapping
against the tables relies on this when it compares words.

The root register holds the address of the root in the same way, below the bits that select the
mode.
-/

namespace BootLoader.Paging.Format

variable {F : Format}

/-! ## Addresses that entries hold -/

/-- Whether a leaf at `level` can map the block at `base`. -/
structure HoldsBlock (F : Format) (level : Nat) (base : PhysAddr) : Prop where
  /-- the format has the level -/
  level_lt : level < F.levels
  /-- the block is at a multiple of its size -/
  aligned : base.toNat % F.levelSize level = 0
  /-- the address field holds its address -/
  lt_limit : base.toNat < F.addressLimit

/-- Whether a pointer can point at the table at `child`. -/
structure HoldsTable (F : Format) (child : PhysAddr) : Prop where
  /-- a table is a page -/
  aligned : child.toNat % pageSize = 0
  /-- the address field holds its address -/
  lt_limit : child.toNat < F.addressLimit

/-- A block starts at a page. -/
theorem HoldsBlock.page_aligned {level : Nat} {base : PhysAddr} (h : F.HoldsBlock level base) :
    base.toNat % pageSize = 0 :=
  Nat.mod_eq_zero_of_dvd
    (Nat.dvd_trans (F.pageSize_dvd_levelSize level) (Nat.dvd_of_mod_eq_zero h.aligned))

/-- An address that the address field holds is not cut short. -/
theorem ofNat_mod_addressLimit {pa : PhysAddr} (h : pa.toNat < F.addressLimit) :
    Address.ofNat (pa.toNat % F.addressLimit) = pa := by
  rw [Nat.mod_eq_of_lt h, Address.ofNat_toNat]

/-! ## Words in a table -/

/-- Whether `raw` says `e` at `level` when it has been written to a table, in any frame and at any
index, and is read again. The word in the table is then not that of an empty entry. -/
def ReadsBack (F : Format) (raw : UInt64) (level : Nat) (e : Entry) : Prop :=
  ∀ (n : Nat) (t : Tables F n) (frame : FrameId) (index : Nat), frame < n → index < F.entries →
    ∃ t' word, t.write frame index raw = .ok t' ∧ t'.read frame index = .ok word ∧ word ≠ 0 ∧
      F.decode word level = e

/-- What a word says when it has been stored, it says when it has been written and is read again. -/
theorem ReadsBack.of_stored {raw : UInt64} {level : Nat} {e : Entry}
    (hne : F.width.stored raw ≠ 0) (h : F.decode (F.width.stored raw) level = e) :
    F.ReadsBack raw level e := by
  intro n t frame index hf hi
  refine ⟨t.setEntry frame index raw, F.width.stored raw, t.write_eq_ok raw hf hi, ?_, hne, h⟩
  rw [Tables.read_eq_ok _ hf hi, Tables.entryAt_setEntry t raw hf hi, if_pos ⟨rfl, rfl⟩]

/-- A word whose high half is clear passes through a narrow table. -/
theorem stored_of_lt {raw : UInt64} (w : EntryWidth) (h : raw.toNat < 0x100000000) :
    w.stored raw = raw := by
  cases w with
  | wide => rfl
  | narrow =>
    show UInt64.ofNat (raw.toNat % 0x100000000) = raw
    rw [Nat.mod_eq_of_lt h, UInt64.ofNat_toNat]

/-- A RISC-V entry that holds its address passes through the tables of its format. -/
theorem stored_encode {pa : PhysAddr} {flags : Nat} (h : pa.toNat < F.addressLimit)
    (hflags : flags < 1024) : F.width.stored (RiscV.encode pa flags) = RiscV.encode pa flags := by
  cases F with
  | sv32 =>
    apply stored_of_lt
    rw [toNat_encode hflags]
    simp only [addressLimit] at h
    omega
  | _ => rfl

/-- Leaves that hold their address pass through the tables of their format. -/
theorem stored_leafWord {level : Nat} {base : PhysAddr} (h : F.HoldsBlock level base)
    (memory : Memory) :
    F.width.stored (F.leafWord memory base level) = F.leafWord memory base level := by
  cases F with
  | aarch64 => rfl
  | _ => exact stored_encode h.lt_limit (by decide)

/-- Pointers that hold their address pass through the tables of their format. -/
theorem stored_pointerWord {child : PhysAddr} (h : F.HoldsTable child) :
    F.width.stored (F.pointerWord child) = F.pointerWord child := by
  cases F with
  | aarch64 => rfl
  | _ => exact stored_encode h.lt_limit (by decide)

/-! ## The fields of a word -/

/-- The number of values of the low bits of an entry, those below its address field. -/
def flagSize : Format → Nat
  | aarch64 => pageSize
  | _ => RiscV.flagCount

/-- The address in the address field of an entry, in whole pages. -/
def addressField (F : Format) (word : UInt64) : Nat :=
  word.toNat / F.flagSize * pageSize % F.addressLimit

/-- The low bits of an entry. -/
def flagField (F : Format) (word : UInt64) : Nat := word.toNat % F.flagSize

/-- The fields of a RISC-V entry. -/
theorem fields_encode {pa : PhysAddr} {flags : Nat} (hsize : F.flagSize = RiscV.flagCount)
    (hpage : pa.toNat % pageSize = 0) (h : pa.toNat < F.addressLimit) (hflags : flags < 1024) :
    F.addressField (RiscV.encode pa flags) = pa.toNat ∧
      F.flagField (RiscV.encode pa flags) = flags := by
  unfold addressField flagField
  rw [toNat_encode hflags, hsize]
  unfold RiscV.flagCount pageSize at *
  have hsplit : (pa.toNat / 4096 * 1024 + flags) / 1024 * 4096 = pa.toNat := by omega
  rw [hsplit, Nat.mod_eq_of_lt h]
  omega

/-- The fields of a descriptor that holds `pa` beside the number `bits`, when these stay clear of the
output address. -/
theorem fields_descriptor {pa : PhysAddr} {word : UInt64} {bits : Nat}
    (hpage : pa.toNat % pageSize = 0) (h : pa.toNat < addressLimit .aarch64)
    (hclear : bits % Arm.outputLimit < pageSize) (hword : word.toNat = pa.toNat + bits) :
    addressField .aarch64 word = pa.toNat ∧ flagField .aarch64 word = bits % pageSize := by
  unfold addressField flagField flagSize
  rw [hword]
  simp only [addressLimit, Arm.outputLimit, pageSize] at *
  omega

/-- The fields of a leaf: its base, and low bits that depend on the kind of memory and the level. -/
theorem fields_leafWord {level : Nat} {base : PhysAddr} (h : F.HoldsBlock level base)
    (memory : Memory) :
    F.addressField (F.leafWord memory base level) = base.toNat ∧
      F.flagField (F.leafWord memory base level) = (F.leafAttrs memory level).toNat % F.flagSize := by
  cases F with
  | aarch64 =>
    obtain ⟨hclear, hbits, -⟩ := armFields_bits memory (level == aarch64.levels - 1)
    have hword := toNat_arm_encode (blockSize?_eq h.level_lt) (levelSize_dvd_addressLimit level)
      h.aligned hbits
    rw [show base.toNat % Arm.outputLimit = base.toNat from Nat.mod_eq_of_lt h.lt_limit] at hword
    obtain ⟨haddress, hflags⟩ := fields_descriptor h.page_aligned h.lt_limit hclear hword
    refine ⟨haddress, hflags.trans ?_⟩
    unfold leafAttrs
    rw [UInt64.toNat_ofNat_of_lt' (Nat.lt_trans hbits (by decide))]
    rfl
  | _ => exact fields_encode rfl h.page_aligned h.lt_limit (by decide)

/-- The low bits of a pointer. -/
def pointerFlags : Format → Nat
  | aarch64 => 3
  | _ => 1

/-- The fields of a pointer: the address of its table, and low bits that say that it is one. -/
theorem fields_pointerWord {child : PhysAddr} (h : F.HoldsTable child) :
    F.addressField (F.pointerWord child) = child.toNat ∧
      F.flagField (F.pointerWord child) = F.pointerFlags := by
  cases F with
  | aarch64 =>
    have hword := toNat_arm_pointer h.aligned
    rw [show child.toNat % Arm.outputLimit = child.toNat from Nat.mod_eq_of_lt h.lt_limit] at hword
    exact fields_descriptor h.aligned h.lt_limit (by decide) hword
  | _ => exact fields_encode rfl h.aligned h.lt_limit (by decide)

/-- No leaf has the low bits of a pointer. -/
theorem leafWord_ne_pointerWord {level : Nat} {base child : PhysAddr} (hbase : F.HoldsBlock level base)
    (hchild : F.HoldsTable child) (memory : Memory) :
    F.leafWord memory base level ≠ F.pointerWord child := by
  intro h
  have hleaf := (fields_leafWord hbase memory).2
  rw [h, (fields_pointerWord hchild).2] at hleaf
  revert hleaf
  unfold leafAttrs
  clear h hbase hchild
  cases F with
  | aarch64 =>
    generalize (level == aarch64.levels - 1) = last
    cases memory <;> cases last <;> decide
  | _ =>
    dsimp only
    decide

/-! ## The root register -/

/-- The number of bytes that one unit of the address field of the root register stands for. -/
def rootUnit : Format → Nat
  | aarch64 => 1
  | _ => pageSize

/-- The number of values of the address field of the root register, which is at its low end. -/
def rootFieldSize (F : Format) : Nat := F.addressLimit / F.rootUnit

/-- The number that the bits above the address field of the root register stand for: the mode, if the
format has one, above an address space number of zero. -/
def rootMode : Format → Nat
  | sv32 => 1 <<< 9
  | sv39 => 8 <<< 16
  | sv48 => 9 <<< 16
  | aarch64 => 0

/-- The number of a RISC-V root register whose mode is above the page number. -/
theorem toNat_rootRegister (bits m : Nat) {mode : UInt64} {root : PhysAddr}
    (hmode : mode.toNat = m <<< bits) (hroot : root.toNat / pageSize < 2 ^ bits) :
    (RiscV.rootRegister mode root).toNat = 2 ^ bits * m + root.toNat / pageSize := by
  have hpage : (root.raw >>> 12).toNat = root.toNat / pageSize := by
    rw [UInt64.toNat_shiftRight]
    exact Nat.shiftRight_eq_div_pow _ _
  unfold RiscV.rootRegister
  rw [UInt64.toNat_or, hmode, hpage, ← Nat.shiftLeft_add_eq_or_of_lt hroot, Nat.shiftLeft_eq,
    Nat.mul_comm]

/-- The root register holds the address of the root in its address field, and nothing but the mode
outside. -/
theorem rootRegister_fields {root : PhysAddr} (h : F.HoldsTable root) :
    (F.rootRegister root).toNat % F.rootFieldSize * F.rootUnit = root.toNat ∧
      (F.rootRegister root).toNat / F.rootFieldSize = F.rootMode := by
  obtain ⟨haligned, hlimit⟩ := h
  cases F with
  | sv32 =>
    have hnumber : (RiscV.rootRegister 0x80000000 root).toNat = _ :=
      toNat_rootRegister 22 (1 <<< 9) rfl (by simp only [addressLimit, pageSize] at *; omega)
    simp only [rootRegister, hnumber, rootFieldSize, rootUnit, rootMode, addressLimit, pageSize] at *
    omega
  | sv39 =>
    have hnumber : (RiscV.rootRegister 0x8000000000000000 root).toNat = _ :=
      toNat_rootRegister 44 (8 <<< 16) rfl (by simp only [addressLimit, pageSize] at *; omega)
    simp only [rootRegister, hnumber, rootFieldSize, rootUnit, rootMode, addressLimit, pageSize] at *
    omega
  | sv48 =>
    have hnumber : (RiscV.rootRegister 0x9000000000000000 root).toNat = _ :=
      toNat_rootRegister 44 (9 <<< 16) rfl (by simp only [addressLimit, pageSize] at *; omega)
    simp only [rootRegister, hnumber, rootFieldSize, rootUnit, rootMode, addressLimit, pageSize] at *
    omega
  | aarch64 =>
    have hnumber : (rootRegister .aarch64 root).toNat = root.toNat := by
      have hkeep : Arm.outputBits pageSize root.toNat = root.toNat := by
        simp only [Arm.outputBits, Arm.outputLimit, addressLimit, pageSize] at *
        omega
      unfold rootRegister Arm.rootRegister
      rw [hkeep]
      exact UInt64.toNat_ofNat_of_lt' root.toNat_lt
    simp only [hnumber, rootFieldSize, rootUnit, rootMode, addressLimit] at *
    omega

/-! ## The codec -/

/-- The codec of a format. A leaf for any level and kind of memory is encoded without a fault, and
reads back as the leaf of its base, with attributes that do not depend on the base; a pointer is
encoded without a fault, and reads back as a pointer at its table at every level above the last.
Stored leaves for different bases differ, also those of different levels and kinds of memory, and so
do stored pointers at different tables; no stored leaf is a stored pointer. The root register gives
the address of a root back, with nothing but the mode beside it. -/
theorem codec {level : Nat} {base child : PhysAddr} (hbase : F.HoldsBlock level base)
    (hchild : F.HoldsTable child) (memory : Memory) :
    (F.leaf memory base level = .ok (F.leafWord memory base level) ∧
      F.ReadsBack (F.leafWord memory base level) level (.leaf base (F.leafAttrs memory level))) ∧
    (F.pointer child = .ok (F.pointerWord child) ∧
      ∀ above, above + 1 < F.levels → F.ReadsBack (F.pointerWord child) above (.next child)) ∧
    (∀ memory' level' base', F.HoldsBlock level' base' → base ≠ base' →
      F.width.stored (F.leafWord memory base level) ≠
        F.width.stored (F.leafWord memory' base' level')) ∧
    (∀ child', F.HoldsTable child' → child ≠ child' →
      F.width.stored (F.pointerWord child) ≠ F.width.stored (F.pointerWord child')) ∧
    F.width.stored (F.leafWord memory base level) ≠ F.width.stored (F.pointerWord child) ∧
    (F.rootRegister child).toNat % F.rootFieldSize * F.rootUnit = child.toNat ∧
    (F.rootRegister child).toNat / F.rootFieldSize = F.rootMode := by
  refine ⟨⟨leaf_eq_ok hbase.level_lt hbase.aligned memory, ?_⟩,
    ⟨pointer_eq_ok hchild.aligned, ?_⟩, ?_, ?_, ?_, rootRegister_fields hchild⟩
  · have hdecode := decode_leafWord hbase.level_lt hbase.aligned memory
    rw [ofNat_mod_addressLimit hbase.lt_limit] at hdecode
    exact .of_stored (stored_leafWord_ne_zero hbase.level_lt hbase.aligned memory) hdecode
  · intro above habove
    have hdecode := decode_pointerWord habove hchild.aligned
    rw [ofNat_mod_addressLimit hchild.lt_limit] at hdecode
    exact .of_stored (stored_pointerWord_ne_zero hchild.aligned) hdecode
  · intro memory' level' base' hbase' hne hsame
    rw [stored_leafWord hbase, stored_leafWord hbase'] at hsame
    refine hne (Address.eq_of_toNat ?_)
    rw [← (fields_leafWord hbase memory).1, hsame, (fields_leafWord hbase' memory').1]
  · intro child' hchild' hne hsame
    rw [stored_pointerWord hchild, stored_pointerWord hchild'] at hsame
    refine hne (Address.eq_of_toNat ?_)
    rw [← (fields_pointerWord hchild).1, hsame, (fields_pointerWord hchild').1]
  · rw [stored_leafWord hbase, stored_pointerWord hchild]
    exact leafWord_ne_pointerWord hbase hchild memory

/-- The last block and the last page that narrow entries can address: the leaf and the pointer read
back. -/
theorem codec_sv32 :
    HoldsBlock .sv32 0 ⟨0x3ffc00000⟩ ∧ HoldsTable .sv32 ⟨0x3fffff000⟩ ∧
      ReadsBack .sv32 (leafWord .sv32 .device ⟨0x3ffc00000⟩ 0) 0 (.leaf ⟨0x3ffc00000⟩ 0xef) ∧
      ReadsBack .sv32 (pointerWord .sv32 ⟨0x3fffff000⟩) 0 (.next ⟨0x3fffff000⟩) ∧
      (rootRegister .sv32 ⟨0x3fffff000⟩).toNat % rootFieldSize .sv32 * rootUnit .sv32 =
        0x3fffff000 := by
  have hbase : HoldsBlock .sv32 0 ⟨0x3ffc00000⟩ := ⟨by decide, by decide, by decide⟩
  have hchild : HoldsTable .sv32 ⟨0x3fffff000⟩ := ⟨by decide, by decide⟩
  obtain ⟨⟨-, hleaf⟩, ⟨-, hpointer⟩, -, -, -, hroot, -⟩ := codec hbase hchild .device
  exact ⟨hbase, hchild, hleaf, hpointer 0 (by decide), hroot⟩

end BootLoader.Paging.Format
