import BootLoader.Proofs.Paging.Codec

/-!
# The rights in a leaf descriptor

A leaf descriptor is built by replacing fields of a word, one after the other. The word starts as the
output address (`Arm.outputMask`), the fields of a leaf of normal memory follow (`Arm.leafUpdates`), and
four of them are replaced once more when the memory is a device (`Arm.deviceUpdates`). All these fields
lie outside the output address, so an update of the address beside some fields is the address beside the
updated fields (`update_or`), and what is built is what `Arm.encode` computes
(`Arm.update_leafUpdates`, `Arm.update_deviceUpdates`).

Conversely, nothing of the address is in the fields, so the rights can be read off the descriptor for
every set of rights, at every level and for every address (`Arm.rights_encode`).
-/

namespace BootLoader.Paging

/-! ## Words and masks -/

/-- A mask takes the bits of either word. -/
theorem or_and_mask (a b m : UInt64) : (a ||| b) &&& m = (a &&& m) ||| (b &&& m) := by
  apply UInt64.toBitVec_inj.mp
  simp only [UInt64.toBitVec_and, UInt64.toBitVec_or]
  rw [BitVec.and_comm, BitVec.and_or_distrib_left, BitVec.and_comm (x := m.toBitVec),
    BitVec.and_comm (x := m.toBitVec)]

/-- Clearing bits that are clear changes nothing. -/
theorem and_not_of_disjoint {a m : UInt64} (h : a &&& m = 0) : a &&& ~~~m = a := by
  have hsplit : a = (a &&& m) ||| (a &&& ~~~m) := by
    apply UInt64.toBitVec_inj.mp
    simp only [UInt64.toBitVec_and, UInt64.toBitVec_or, UInt64.toBitVec_not]
    rw [← BitVec.and_or_distrib_left, BitVec.or_not_self, BitVec.and_allOnes]
  rw [h, UInt64.zero_or] at hsplit
  exact hsplit.symm

/-- The sum of words without a common bit has the bits of either. -/
theorem add_eq_or_of_disjoint {a b : UInt64} (h : a &&& b = 0) : a + b = a ||| b := by
  apply UInt64.toBitVec_inj.mp
  rw [UInt64.toBitVec_add, UInt64.toBitVec_or]
  apply BitVec.add_eq_or_of_and_eq_zero
  rw [← UInt64.toBitVec_and, h]
  rfl

/-! ## Fields of a word -/

/-- A field of a word: `width` bits from bit `offset` on. -/
structure Field where
  /-- the number of bits below the field -/
  offset : Nat
  /-- the number of bits of the field -/
  width : Nat
  deriving DecidableEq, Repr

namespace Field

/-- The bits of a word that belong to a field. -/
def mask (f : Field) : UInt64 := UInt64.ofNat ((2 ^ f.width - 1) <<< f.offset)

/-- The value of a field of `word`. -/
def get (f : Field) (word : UInt64) : UInt64 := (word &&& f.mask) >>> UInt64.ofNat f.offset

/-- `word` with the value of a field replaced, and all other bits as they are. -/
def set (f : Field) (value : Nat) (word : UInt64) : UInt64 :=
  (word &&& ~~~f.mask) ||| (UInt64.ofNat (value <<< f.offset) &&& f.mask)

/-- The value of a field as a number. -/
theorem toNat_get {f : Field} (hf : f.offset < 64) (hfit : f.offset + f.width ≤ 64)
    (word : UInt64) : (f.get word).toNat = word.toNat / 2 ^ f.offset % 2 ^ f.width := by
  have hmask : (2 ^ f.width - 1) <<< f.offset < UInt64.size := by
    have hle : 2 ^ f.width * 2 ^ f.offset ≤ UInt64.size := by
      rw [← Nat.pow_add, Nat.add_comm]
      exact Nat.pow_le_pow_right (by decide) hfit
    have hlt := Nat.mul_lt_mul_of_pos_right (Nat.sub_lt (Nat.two_pow_pos f.width) Nat.one_pos)
      (Nat.two_pow_pos f.offset)
    rw [Nat.shiftLeft_eq]
    omega
  have hshift : (UInt64.ofNat f.offset).toNat % 64 = f.offset := by
    rw [UInt64.toNat_ofNat_of_lt' (Nat.lt_trans hf (by decide)), Nat.mod_eq_of_lt hf]
  unfold get mask
  rw [UInt64.toNat_shiftRight, UInt64.toNat_and, UInt64.toNat_ofNat_of_lt' hmask, hshift]
  -- Bit `i` of the value is bit `i + offset` of the word.
  apply Nat.eq_of_testBit_eq
  intro i
  rw [Nat.testBit_shiftRight, Nat.testBit_and, Nat.testBit_shiftLeft, Nat.testBit_two_pow_sub_one,
    Nat.testBit_mod_two_pow, Nat.testBit_div_two_pow, Nat.add_sub_cancel_left, Nat.add_comm,
    decide_eq_true (Nat.le_add_left f.offset i), Bool.true_and, Bool.and_comm]

/-- A field is read past bits that do not belong to it. -/
theorem get_or {f : Field} {a : UInt64} (h : a &&& f.mask = 0) (word : UInt64) :
    f.get (a ||| word) = f.get word := by
  unfold get
  rw [or_and_mask, h, UInt64.zero_or]

/-- Bits that do not belong to a field stay when it is replaced. -/
theorem set_or {f : Field} {a : UInt64} (h : a &&& f.mask = 0) (value : Nat) (word : UInt64) :
    f.set value (a ||| word) = a ||| f.set value word := by
  unfold set
  rw [or_and_mask, and_not_of_disjoint h, UInt64.or_assoc]

end Field

/-- `word` with the values of some fields replaced, one after the other. -/
def update (word : UInt64) (updates : List (Field × Nat)) : UInt64 :=
  updates.foldl (fun word u => u.1.set u.2 word) word

/-- Bits that belong to none of the fields stay. -/
theorem update_or {a : UInt64} {updates : List (Field × Nat)}
    (h : ∀ u ∈ updates, a &&& u.1.mask = 0) (word : UInt64) :
    update (a ||| word) updates = a ||| update word updates := by
  induction updates generalizing word with
  | nil => rfl
  | cons u us ih =>
    obtain ⟨hu, hus⟩ := List.forall_mem_cons.mp h
    calc update (a ||| word) (u :: us) = update (u.1.set u.2 (a ||| word)) us := rfl
      _ = update (a ||| u.1.set u.2 word) us := by rw [Field.set_or hu]
      _ = a ||| update (u.1.set u.2 word) us := ih hus _

namespace Arm

/-! ## The fields of a descriptor -/

/-- Bit 0: the descriptor is valid. -/
def valid : Field := ⟨0, 1⟩

/-- Bit 1: a table or a page, not a block. -/
def kind : Field := ⟨1, 1⟩

/-- Bits 2 to 4: the memory attribute index. -/
def attrIndex : Field := ⟨2, 3⟩

/-- Bits 6 and 7: user code has access, and writing is not allowed. -/
def access : Field := ⟨6, 2⟩

/-- Bits 8 and 9: the domain that shares the memory. -/
def sharing : Field := ⟨8, 2⟩

/-- Bit 10: the access flag. -/
def accessed : Field := ⟨10, 1⟩

/-- Bit 11: the mapping is not global. -/
def notGlobal : Field := ⟨11, 1⟩

/-- Bit 53: the kernel never executes this. -/
def privilegedNever : Field := ⟨53, 1⟩

/-- Bit 54: user code never executes this. -/
def userNever : Field := ⟨54, 1⟩

/-- The value of `access` for a right of user code and a right to write. -/
def accessFor : (user write : Bool) → Nat
  | false, true => 0b00
  | true, true => 0b01
  | false, false => 0b10
  | true, false => 0b11

/-- The fields of a leaf of normal memory in the order in which they are replaced. Fields that stay
clear are not among them. -/
def leafUpdates (last : Bool) (p : Permissions) : List (Field × Nat) :=
  [(valid, 1), (kind, last.toNat), (attrIndex, normalIndex), (sharing, 0b11)] ++
  (if p.accessed then [(accessed, 1)] else []) ++
  [(access, accessFor p.user p.write)] ++
  (if !p.execute then [(privilegedNever, 1), (userNever, 1)]
    else if !p.user then [(userNever, 1)] else []) ++
  (if !p.global then [(notGlobal, 1)] else [])

/-- The fields of a leaf of normal memory that are replaced when the memory is a device. -/
def deviceUpdates : List (Field × Nat) :=
  [(attrIndex, deviceIndex), (sharing, 0b00), (privilegedNever, 1), (userNever, 1)]

/-! ## The output address -/

/-- The bits of a descriptor that can belong to an output address: bits 12 to 47. -/
def addressBits : UInt64 := 0x0000fffffffff000

/-- The mask of the output address of a leaf at `level`; levels that hold no leaves count as holding
pages. -/
def outputMask (level : Nat) : UInt64 :=
  UInt64.ofNat (outputBits (blockSize level) (outputLimit - 1))

/-- The levels that hold leaves have a mask. -/
theorem outputMask?_eq {level : Nat} (hlevel : level < 3) :
    outputMask? level = some (outputMask level) := by
  match level, hlevel with
  | 0, _ => rfl
  | 1, _ => rfl
  | 2, _ => rfl

/-- The blocks of the levels are of three sizes. -/
theorem blockSize_cases (level : Nat) :
    blockSize level = 2 ^ 30 ∨ blockSize level = 2 ^ 21 ∨ blockSize level = 2 ^ 12 := by
  match level with
  | 0 => exact .inl rfl
  | 1 => exact .inr (.inl rfl)
  | 2 => exact .inr (.inr rfl)
  | _ + 3 => exact .inr (.inr rfl)

/-- The bits of a number in an output address field are those that the field has. -/
theorem and_outputBits (k n : Nat) :
    n &&& outputBits (2 ^ k) (outputLimit - 1) = outputBits (2 ^ k) n := by
  have hbit : ∀ m i, (outputBits (2 ^ k) m).testBit i =
      (decide (k ≤ i) && (decide (i < 48) && m.testBit i)) := by
    intro m i
    unfold outputBits
    rw [show outputLimit = 2 ^ 48 from rfl, Nat.testBit_mul_two_pow, Nat.testBit_div_two_pow,
      Nat.testBit_mod_two_pow]
    by_cases hi : k ≤ i
    · rw [Nat.sub_add_cancel hi]
    · simp only [hi, decide_false, Bool.false_and]
  apply Nat.eq_of_testBit_eq
  intro i
  rw [Nat.testBit_and, hbit, hbit, show outputLimit - 1 = 2 ^ 48 - 1 from rfl,
    Nat.testBit_two_pow_sub_one]
  cases n.testBit i <;> cases decide (k ≤ i) <;> cases decide (i < 48) <;> rfl

/-- The output address field of a word. -/
theorem toNat_and_outputMask (word : UInt64) (level : Nat) :
    (word &&& outputMask level).toNat = outputBits (blockSize level) word.toNat := by
  have hfield : ∀ k, outputBits (2 ^ k) (outputLimit - 1) < UInt64.size := fun k =>
    Nat.lt_of_le_of_lt (Nat.le_trans (Nat.div_mul_le_self _ _) (Nat.mod_le _ _)) (by decide)
  rw [UInt64.toNat_and, outputMask]
  rcases blockSize_cases level with h | h | h <;>
    rw [h, UInt64.toNat_ofNat_of_lt' (hfield _), and_outputBits]

/-- The output address of a leaf is among the bits of output addresses. -/
theorem outputMask_and_addressBits (level : Nat) :
    outputMask level &&& addressBits = outputMask level := by
  unfold outputMask
  rcases blockSize_cases level with h | h | h <;> rw [h] <;> decide

/-- What has no bit in common with output addresses has none with that of a leaf. -/
theorem address_disjoint {m : UInt64} (h : addressBits &&& m = 0) (pa : UInt64) (level : Nat) :
    pa &&& outputMask level &&& m = 0 := by
  rw [← outputMask_and_addressBits, UInt64.and_assoc, UInt64.and_assoc, h, UInt64.and_zero,
    UInt64.and_zero]

/-- The encoder's assertion on an address: below bit 48, all its bits are in the output address. -/
theorem isEncodable_iff (pa : PhysAddr) {level : Nat} (hlevel : level < 3) :
    isEncodable pa level = true ↔ pa.raw &&& ~~~outputMask level &&& 0x0000ffffffffffff = 0 := by
  -- Below bit 48, the bits outside the output address are those of the offset in the block.
  have hoffset : ∀ k, k ≤ 48 → blockSize level = 2 ^ k →
      ~~~outputMask level &&& 0x0000ffffffffffff = UInt64.ofNat (2 ^ k - 1) →
      (isEncodable pa level = true ↔
        pa.raw &&& ~~~outputMask level &&& 0x0000ffffffffffff = 0) := by
    intro k hk hsize hmask
    have hlt : 2 ^ k - 1 < UInt64.size :=
      Nat.lt_of_le_of_lt (Nat.sub_le _ _)
        (Nat.lt_of_le_of_lt (Nat.pow_le_pow_right (by decide) hk) (by decide))
    have hnat : (pa.raw &&& UInt64.ofNat (2 ^ k - 1)).toNat = pa.toNat % 2 ^ k := by
      rw [UInt64.toNat_and, UInt64.toNat_ofNat_of_lt' hlt, Nat.and_two_pow_sub_one_eq_mod]
      rfl
    unfold isEncodable
    rw [beq_iff_eq, UInt64.and_assoc, hmask, hsize, ← hnat, ← UInt64.toNat_inj]
    rfl
  match level, hlevel with
  | 0, _ => exact hoffset 30 (by decide) rfl (by decide)
  | 1, _ => exact hoffset 21 (by decide) rfl (by decide)
  | 2, _ => exact hoffset 12 (by decide) rfl (by decide)

/-! ## Building a descriptor -/

/-- The fields of a leaf lie outside the output address. -/
theorem leafUpdates_disjoint (last : Bool) (p : Permissions) :
    ∀ u ∈ leafUpdates last p, addressBits &&& u.1.mask = 0 := by
  obtain ⟨r, w, x, user, g, a, d⟩ := p
  revert last r w x user g a d
  decide +kernel

/-- The fields of a leaf of device memory lie outside the output address. -/
theorem deviceUpdates_disjoint : ∀ u ∈ deviceUpdates, addressBits &&& u.1.mask = 0 := by decide

/-- The fields of a leaf of normal memory, in a word that is clear before. -/
theorem update_zero_leafUpdates (last : Bool) (p : Permissions) :
    update 0 (leafUpdates last p) = UInt64.ofNat (Fields.normal last p).bits := by
  obtain ⟨r, w, x, user, g, a, d⟩ := p
  revert last r w x user g a d
  decide +kernel

/-- The fields of a leaf of device memory, in a word with those of normal memory. -/
theorem update_bits_deviceUpdates (last : Bool) (p : Permissions) :
    update (UInt64.ofNat (Fields.normal last p).bits) deviceUpdates =
      UInt64.ofNat (Fields.device last p).bits := by
  obtain ⟨r, w, x, user, g, a, d⟩ := p
  revert last r w x user g a d
  decide +kernel

/-- What there is to know about the number of the fields of a leaf: they fit a word with no bit in
the output address, and hold the valid bit and the kind. -/
theorem fields_bits (memory : Memory) (last : Bool) (p : Permissions) :
    let bits := (Fields.of memory last p).bits
    addressBits &&& UInt64.ofNat bits = 0 ∧ bits % outputLimit < 4096 ∧ bits < 2 ^ 55 ∧
      bits % 2 = 1 ∧ bits / 2 % 2 = last.toNat := by
  obtain ⟨r, w, x, user, g, a, d⟩ := p
  cases memory <;> (revert last r w x user g a d; decide +kernel)

/-- A descriptor is its output address beside its fields. -/
theorem encode_eq (pa : PhysAddr) (level : Nat) (memory : Memory) (last : Bool) (p : Permissions) :
    encode pa level (.of memory last p) =
      (pa.raw &&& outputMask level) ||| UInt64.ofNat (Fields.of memory last p).bits := by
  have hdisjoint := address_disjoint (fields_bits memory last p).1 pa.raw level
  rw [← add_eq_or_of_disjoint hdisjoint]
  unfold encode
  rw [UInt64.ofNat_add, ← UInt64.ofNat_toNat (x := pa.raw &&& outputMask level),
    toNat_and_outputMask]
  rfl

/-- The leaf of normal memory is built field by field from the output address. -/
theorem update_leafUpdates (pa : PhysAddr) (level : Nat) (last : Bool) (p : Permissions) :
    update (pa.raw &&& outputMask level) (leafUpdates last p) =
      encode pa level (.of .normal last p) := by
  have hdisjoint : ∀ u ∈ leafUpdates last p, pa.raw &&& outputMask level &&& u.1.mask = 0 :=
    fun u hu => address_disjoint (leafUpdates_disjoint last p u hu) pa.raw level
  calc update (pa.raw &&& outputMask level) (leafUpdates last p)
    _ = (pa.raw &&& outputMask level) ||| update 0 (leafUpdates last p) := by
      rw [← update_or hdisjoint, UInt64.or_zero]
    _ = (pa.raw &&& outputMask level) ||| UInt64.ofNat (Fields.normal last p).bits := by
      rw [update_zero_leafUpdates]
    _ = encode pa level (.of .normal last p) := (encode_eq pa level .normal last p).symm

/-- The leaf of device memory is built from that of normal memory by replacing four fields. -/
theorem update_deviceUpdates (pa : PhysAddr) (level : Nat) (last : Bool) (p : Permissions) :
    update (encode pa level (.of .normal last p)) deviceUpdates =
      encode pa level (.of .device last p) := by
  have hdisjoint : ∀ u ∈ deviceUpdates, pa.raw &&& outputMask level &&& u.1.mask = 0 :=
    fun u hu => address_disjoint (deviceUpdates_disjoint u hu) pa.raw level
  rw [encode_eq, encode_eq, update_or hdisjoint]
  -- The address stays aside, and the fields of normal memory become those of a device.
  exact congrArg _ (update_bits_deviceUpdates last p)

/-! ## Reading a descriptor -/

/-- The rights that are read off a descriptor are not in its output address. -/
theorem permissions_or {a : UInt64} (h : ∀ m, addressBits &&& m = 0 → a &&& m = 0) (word : UInt64) :
    permissions (a ||| word) = permissions word := by
  -- Each right is one bit, and none of these bits is in an output address.
  have hbit : ∀ k, k < 64 → addressBits &&& Field.mask ⟨k, 1⟩ = 0 →
      (a ||| word).toNat / 2 ^ k % 2 = word.toNat / 2 ^ k % 2 := by
    intro k hk hclear
    have hget := congrArg UInt64.toNat (Field.get_or (h _ hclear) word)
    rwa [Field.toNat_get (f := ⟨k, 1⟩) hk hk, Field.toNat_get (f := ⟨k, 1⟩) hk hk] at hget
  have hreadOnly : (a ||| word).toNat / 0x80 % 2 = _ := hbit 7 (by decide) (by decide)
  have hprivileged : (a ||| word).toNat / 0x20000000000000 % 2 = _ :=
    hbit 53 (by decide) (by decide)
  have huser : (a ||| word).toNat / 0x40 % 2 = _ := hbit 6 (by decide) (by decide)
  have hnotGlobal : (a ||| word).toNat / 0x800 % 2 = _ := hbit 11 (by decide) (by decide)
  have haccessed : (a ||| word).toNat / 0x400 % 2 = _ := hbit 10 (by decide) (by decide)
  unfold permissions
  simp only [hreadOnly, hprivileged, huser, hnotGlobal, haccessed]
  rfl

/-- The rights that a leaf of the given kind of memory grants: reading always, no dirty state beside
the right to write, and no executing from a device. -/
def granted (memory : Memory) (p : Permissions) : Permissions :=
  { p with read := true, execute := p.execute && memory == .normal, dirty := p.write }

/-- The rights that are read off the fields of a leaf. -/
theorem permissions_bits (memory : Memory) (last : Bool) (p : Permissions) :
    permissions (UInt64.ofNat (Fields.of memory last p).bits) = granted memory p := by
  obtain ⟨r, w, x, user, g, a, d⟩ := p
  cases memory <;> (revert last r w x user g a d; decide +kernel)

/-- The two fields of a leaf that forbid to execute. -/
theorem never_bits (memory : Memory) (last : Bool) (p : Permissions) :
    let word := UInt64.ofNat (Fields.of memory last p).bits
    (privilegedNever.get word = 1 ↔ (granted memory p).execute = false) ∧
      (userNever.get word = 1 ↔ ((granted memory p).execute && p.user) = false) := by
  obtain ⟨r, w, x, user, g, a, d⟩ := p
  cases memory <;> (revert last r w x user g a d; decide +kernel)

/-- What a leaf descriptor says of the block at `pa` and of the rights to it. -/
structure Says (word : UInt64) (pa : PhysAddr) (level : Nat) (last : Bool) (rights : Permissions) :
    Prop where
  /-- it is a leaf, whose base are the bits of the address in the output address -/
  decode_eq : decode word level last =
    .leaf ⟨pa.raw &&& outputMask level⟩ (word &&& ~~~outputMask level)
  /-- it grants the rights -/
  permissions_eq : permissions word = rights
  /-- no field is where an output address can be -/
  address_eq : word &&& addressBits = pa.raw &&& outputMask level
  /-- the kernel executes what it has the right to -/
  privilegedNever_iff : privilegedNever.get word = 1 ↔ rights.execute = false
  /-- user code executes what the kernel executes and user code has access to -/
  userNever_iff : userNever.get word = 1 ↔ (rights.execute && rights.user) = false

/-- The fields of a leaf beside its output address. -/
theorem encode_and_not (pa : PhysAddr) (level : Nat) (memory : Memory) (last : Bool)
    (p : Permissions) :
    encode pa level (.of memory last p) &&& ~~~outputMask level =
      UInt64.ofNat (Fields.of memory last p).bits := by
  have haddress : pa.raw &&& outputMask level &&& ~~~outputMask level = 0 := by
    rw [UInt64.and_assoc, UInt64.and_not_self, UInt64.and_zero]
  have hfields : UInt64.ofNat (Fields.of memory last p).bits &&& outputMask level = 0 := by
    rw [UInt64.and_comm, ← outputMask_and_addressBits, UInt64.and_assoc,
      (fields_bits memory last p).1, UInt64.and_zero]
  calc encode pa level (.of memory last p) &&& ~~~outputMask level
    _ = (pa.raw &&& outputMask level &&& ~~~outputMask level) |||
        (UInt64.ofNat (Fields.of memory last p).bits &&& ~~~outputMask level) := by
      rw [encode_eq, or_and_mask]
    _ = UInt64.ofNat (Fields.of memory last p).bits := by
      rw [haddress, UInt64.zero_or, and_not_of_disjoint hfields]

/-- The output address of a leaf is all that it has among the bits of output addresses. -/
theorem encode_and_addressBits (pa : PhysAddr) (level : Nat) (memory : Memory) (last : Bool)
    (p : Permissions) :
    encode pa level (.of memory last p) &&& addressBits = pa.raw &&& outputMask level := by
  rw [encode_eq, or_and_mask, UInt64.and_assoc, outputMask_and_addressBits,
    UInt64.and_comm (UInt64.ofNat _), (fields_bits memory last p).1, UInt64.or_zero]

/-- The output address of an address that the encoder accepts. -/
theorem ofNat_output {pa : PhysAddr} {level : Nat} (hpa : pa.toNat % blockSize level = 0) :
    Address.ofNat (pa.toNat % outputLimit) = (⟨pa.raw &&& outputMask level⟩ : PhysAddr) := by
  have hdvd : blockSize level ∣ outputLimit := by
    rcases blockSize_cases level with h | h | h <;> rw [h] <;> decide
  have hkeep : outputBits (blockSize level) pa.toNat = pa.toNat % outputLimit :=
    Nat.div_mul_cancel ((Nat.dvd_mod_iff hdvd).mpr (Nat.dvd_of_mod_eq_zero hpa))
  apply Address.eq_of_toNat
  rw [Address.toNat_ofNat_of_lt (Nat.lt_of_le_of_lt (Nat.mod_le _ _) pa.toNat_lt), ← hkeep]
  exact (toNat_and_outputMask pa.raw level).symm

/-- A leaf says what it is encoded for, whatever the rights are. -/
theorem says_encode {pa : PhysAddr} {level : Nat} (hlevel : level < 3)
    (hpa : isEncodable pa level = true) (memory : Memory) (last : Bool) (p : Permissions) :
    Says (encode pa level (.of memory last p)) pa level last (granted memory p) := by
  have haligned : pa.toNat % blockSize level = 0 := beq_iff_eq.mp hpa
  have hsize := Format.blockSize?_eq hlevel
  have hblock : blockSize level = Format.levelSize .aarch64 level := by
    unfold blockSize
    rw [hsize, Option.getD_some]
  obtain ⟨-, hlow, hbits, hvalid, hkind⟩ := fields_bits memory last p
  have hpage : Format.levelSize .aarch64 level % 4096 = 0 :=
    Nat.mod_eq_zero_of_dvd (Format.pageSize_dvd_levelSize level)
  have hpos := Format.levelSize_pos .aarch64 level
  have hdecode := Format.decode_arm_encode hsize (Format.levelSize_dvd_addressLimit level)
    (hblock ▸ haligned) (by omega) hbits hvalid hkind (by omega)
  -- The fields are read past the output address.
  have hfields : ∀ m, addressBits &&& m = 0 → pa.raw &&& outputMask level &&& m = 0 :=
    fun m hm => address_disjoint hm pa.raw level
  have hword := encode_eq pa level memory last p
  obtain ⟨hprivileged, huser⟩ := never_bits memory last p
  exact {
    decode_eq := by
      rw [hdecode, ofNat_output haligned, encode_and_not]
    permissions_eq := by
      rw [hword, permissions_or hfields, permissions_bits]
    address_eq := encode_and_addressBits pa level memory last p
    privilegedNever_iff := by
      rw [hword, Field.get_or (hfields _ (by decide))]
      exact hprivileged
    userNever_iff := by
      rw [hword, Field.get_or (hfields _ (by decide))]
      exact huser }

/-- The codec of rights. For an address that the encoder's assertion lets through, at a level that
holds leaves, as a last level or not, and for any rights, the leaf of normal memory is built from the
output address field by field, and that of device memory from it by replacing four fields. Each is a
leaf whose base is the output address, in which no field lies; it grants the rights that were asked
for, with reading always and the dirty state of the right to write, and in a device without executing,
by the kernel or by user code. In a leaf of normal memory user code executes what the kernel and user
code both may. What a leaf holds beside its output address does not depend on the address. -/
theorem rights_encode {pa : PhysAddr} {level : Nat} (hlevel : level < 3)
    (hpa : pa.raw &&& ~~~outputMask level &&& 0x0000ffffffffffff = 0) (last : Bool)
    (p : Permissions) :
    let mask := outputMask level
    let leaf := encode pa level (.of .normal last p)
    let device := encode pa level (.of .device last p)
    outputMask? level = some mask ∧
    leaf = update (pa.raw &&& mask) (leafUpdates last p) ∧ device = update leaf deviceUpdates ∧
    Says leaf pa level last { p with read := true, dirty := p.write } ∧
    Says device pa level last { p with read := true, execute := false, dirty := p.write } ∧
    (userNever.get leaf = 1 ↔ ¬(p.execute = true ∧ p.user = true)) ∧
    privilegedNever.get device = 1 ∧ userNever.get device = 1 ∧
    ∀ pa' : PhysAddr, encode pa' level (.of .normal last p) &&& ~~~mask = leaf &&& ~~~mask ∧
      encode pa' level (.of .device last p) &&& ~~~mask = device &&& ~~~mask := by
  intro mask leaf device
  have hencodable := (isEncodable_iff pa hlevel).mpr hpa
  have hleaf := says_encode hlevel hencodable .normal last p
  have hdevice := says_encode hlevel hencodable .device last p
  have hnormal : granted .normal p = { p with read := true, dirty := p.write } := by
    unfold granted
    rw [show (Memory.normal == Memory.normal) = true from rfl, Bool.and_true]
  have hno : granted .device p = { p with read := true, execute := false, dirty := p.write } := by
    unfold granted
    rw [show (Memory.device == Memory.normal) = false from rfl, Bool.and_false]
  rw [hnormal] at hleaf
  rw [hno] at hdevice
  refine ⟨outputMask?_eq hlevel, (update_leafUpdates pa level last p).symm,
    (update_deviceUpdates pa level last p).symm, hleaf, hdevice, ?_,
    hdevice.privilegedNever_iff.mpr rfl, hdevice.userNever_iff.mpr (Bool.false_and _), fun pa' => ?_⟩
  · rw [hleaf.userNever_iff, ← Bool.not_eq_true, Bool.and_eq_true]
  · exact ⟨(encode_and_not pa' level .normal last p).trans (encode_and_not pa level .normal last p).symm,
      (encode_and_not pa' level .device last p).trans (encode_and_not pa level .device last p).symm⟩

/-- A block of two MiB whose address has bits above the output address, for user code that reads but
does not write: the bits above are dropped, and the kernel executes it as user code does. -/
theorem rights_encode_block :
    let pa : PhysAddr := ⟨0xabcd000080200000⟩
    let p : Permissions := ⟨false, false, true, true, false, true, true⟩
    let leaf := encode pa 1 (.of .normal false p)
    pa.raw &&& ~~~outputMask 1 &&& 0x0000ffffffffffff = 0 ∧ leaf = 0x80200fc1 ∧
      decode leaf 1 false = .leaf ⟨0x80200000⟩ 0xfc1 ∧
      permissions leaf = ⟨true, false, true, true, false, true, false⟩ := by
  intro pa p leaf
  have hpa : pa.raw &&& ~~~outputMask 1 &&& 0x0000ffffffffffff = 0 := by decide
  have hbase : pa.raw &&& outputMask 1 = 0x80200000 := by decide
  have hattrs : leaf &&& ~~~outputMask 1 = 0xfc1 := by decide
  obtain ⟨-, -, -, hleaf, -⟩ := rights_encode (by decide) hpa false p
  exact ⟨hpa, by decide, by rw [hleaf.decode_eq, hbase, hattrs], hleaf.permissions_eq⟩

end Arm

end BootLoader.Paging
