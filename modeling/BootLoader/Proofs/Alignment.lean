import BootLoader.Proofs.Address
import Mathlib.Order.Bounds.Basic

/-!
# Alignment

The aligned addresses are the multiples of a power of two that are words (`aligned`); at 64 bits and
more zero is the only one. Rounding down gives the largest aligned address at or below an address
(`Address.isGreatest_alignDown`), rounding up the smallest one at or above it
(`Address.isLeast_alignUp`), unless all of them are below: then it saturates at the last one
(`Address.Saturates.isGreatest_alignUp`). The other laws follow from these three, and the operations
are the usual ones on masks of low bits (`Address.Aligns`).
-/

namespace BootLoader

/-- The numbers of the addresses that are multiples of `2 ^ bits`. -/
def aligned (bits : Nat) : Set Nat := {n | n < wordCount ∧ 2 ^ bits ∣ n}

/-- At more than 64 bits, alignment is that at 64 bits. -/
theorem granuleOf_eq_two_pow_min (bits : Nat) : granuleOf bits = 2 ^ min bits 64 :=
  Nat.one_shiftLeft _

/-- Among the words, the multiples of a power of two are those of the granule. -/
theorem mem_aligned_iff {bits n : Nat} (h : n < wordCount) :
    n ∈ aligned bits ↔ 2 ^ min bits 64 ∣ n := by
  rcases Nat.le_total bits 64 with hle | hle
  · rw [Nat.min_eq_left hle]
    exact and_iff_right h
  · rw [Nat.min_eq_right hle]
    constructor
    · exact fun hn => Nat.dvd_trans (Nat.pow_dvd_pow 2 hle) hn.2
    · -- zero is the only word that is a multiple of the number of words
      intro hn
      obtain rfl := Nat.eq_zero_of_dvd_of_lt hn h
      exact ⟨h, Nat.dvd_zero _⟩

namespace Address

variable {s : Space} {a b : Address s} {bits : Nat}

/-! ## Rounding down -/

/-- An address is aligned when it is one of the multiples. -/
theorem isAligned_iff_mem : a.isAligned bits = true ↔ a.toNat ∈ aligned bits := by
  rw [mem_aligned_iff a.toNat_lt, isAligned, granuleOf_eq_two_pow_min, beq_iff_eq,
    Nat.dvd_iff_mod_eq_zero]

/-- At more than 64 bits, rounding down is that at 64 bits. -/
theorem alignDown_min (a : Address s) (bits : Nat) :
    a.alignDown (min bits 64) = a.alignDown bits := by
  unfold alignDown granuleOf
  rw [Nat.min_assoc, Nat.min_self]

/-- Rounding down gives the largest aligned address at or below the address. -/
theorem isGreatest_alignDown (a : Address s) (bits : Nat) :
    IsGreatest {n ∈ aligned bits | n ≤ a.toNat} (a.alignDown bits).toNat := by
  have hbits := Nat.min_le_right bits 64
  have hdvd : 2 ^ min bits 64 ∣ (a.alignDown bits).toNat := by
    rw [← alignDown_min, toNat_alignDown hbits]
    exact Nat.dvd_mul_left _ _
  have hle : (a.alignDown bits).toNat ≤ a.toNat := by
    rw [← alignDown_min]
    exact a.alignDown_le hbits
  refine ⟨⟨(mem_aligned_iff (toNat_lt _)).mpr hdvd, hle⟩, ?_⟩
  rintro n ⟨hn, hna⟩
  rw [← alignDown_min]
  exact le_alignDown_of_dvd hbits ((mem_aligned_iff hn.1).mp hn) hna

/-! ## Rounding up -/

/-- Whether no aligned address is at or above the address, so that rounding up has nowhere to go. -/
def Saturates (a : Address s) (bits : Nat) : Prop := ¬∃ n ∈ aligned bits, a.toNat ≤ n

/-- All aligned addresses are below an address that saturates. -/
theorem Saturates.lt {n : Nat} (h : a.Saturates bits) (hn : n ∈ aligned bits) : n < a.toNat :=
  Nat.lt_of_not_le fun hle => h ⟨n, hn, hle⟩

/-- At more than 64 bits, rounding up is that at 64 bits. -/
theorem alignUp_min (a : Address s) (bits : Nat) : a.alignUp (min bits 64) = a.alignUp bits := by
  unfold alignUp granuleOf
  rw [Nat.min_assoc, Nat.min_self]

/-- What rounding up gives is aligned. -/
theorem alignUp_mem (a : Address s) (bits : Nat) : (a.alignUp bits).toNat ∈ aligned bits := by
  rw [mem_aligned_iff (toNat_lt _), ← alignUp_min]
  exact Nat.dvd_of_mod_eq_zero (alignUp_aligned (Nat.min_le_right bits 64))

/-- A granule that starts at an aligned address ends within the address space. -/
theorem add_le_of_mem {n : Nat} (h : n ∈ aligned bits) : n + 2 ^ min bits 64 ≤ wordCount := by
  have hdvd : 2 ^ min bits 64 ∣ wordCount := Nat.pow_dvd_pow 2 (Nat.min_le_right bits 64)
  have hle : 2 ^ min bits 64 ≤ wordCount - n :=
    Nat.le_of_dvd (Nat.sub_pos_of_lt h.1) (Nat.dvd_sub hdvd ((mem_aligned_iff h.1).mp h))
  have := h.1
  omega

/-- The addresses that saturate are those of the last granule, without its first one. -/
theorem saturates_iff : a.Saturates bits ↔ wordCount < a.toNat + 2 ^ min bits 64 := by
  constructor
  · intro h
    by_contra hroom
    have hup := (le_alignUp_iff (Nat.min_le_right bits 64)).mpr (Nat.le_of_not_lt hroom)
    rw [alignUp_min] at hup
    exact h ⟨_, alignUp_mem a bits, hup⟩
  · rintro h ⟨n, hn, hle⟩
    have := add_le_of_mem hn
    omega

/-- Rounding up gives the smallest aligned address at or above the address, when there is one. -/
theorem isLeast_alignUp (h : ∃ n ∈ aligned bits, a.toNat ≤ n) :
    IsLeast {n ∈ aligned bits | a.toNat ≤ n} (a.alignUp bits).toNat := by
  have hbits := Nat.min_le_right bits 64
  have hup : a.toNat ≤ (a.alignUp bits).toNat := by
    rw [← alignUp_min, le_alignUp_iff hbits]
    exact Nat.le_of_not_lt fun hlt => saturates_iff.mpr hlt h
  refine ⟨⟨alignUp_mem a bits, hup⟩, ?_⟩
  rintro n ⟨hn, hle⟩
  rw [← alignUp_min]
  exact alignUp_le_of_dvd hbits ((mem_aligned_iff hn.1).mp hn) hle

/-- Rounding up gives the largest aligned address of all when none is at or above the address. -/
theorem Saturates.isGreatest_alignUp (h : a.Saturates bits) :
    IsGreatest (aligned bits) (a.alignUp bits).toNat := by
  refine ⟨alignUp_mem a bits, fun n hn => ?_⟩
  have htop := toNat_alignUp_of_top (a := a) (Nat.min_le_right bits 64)
    (by have := saturates_iff.mp h; omega)
  rw [alignUp_min] at htop
  have := add_le_of_mem hn
  omega

/-! ## Laws -/

/-- Rounding down keeps an aligned address. -/
theorem alignDown_of_mem (h : a.toNat ∈ aligned bits) : a.alignDown bits = a :=
  eq_of_toNat (Nat.le_antisymm (a.isGreatest_alignDown bits).1.2
    ((a.isGreatest_alignDown bits).2 ⟨h, Nat.le_refl _⟩))

/-- Rounding up keeps an aligned address. -/
theorem alignUp_of_mem (h : a.toNat ∈ aligned bits) : a.alignUp bits = a :=
  have hleast := isLeast_alignUp ⟨_, h, Nat.le_refl _⟩
  eq_of_toNat (Nat.le_antisymm (hleast.2 ⟨h, Nat.le_refl _⟩) hleast.1.2)

/-- Rounding down is monotone. -/
theorem alignDown_mono (bits : Nat) (h : a.toNat ≤ b.toNat) :
    (a.alignDown bits).toNat ≤ (b.alignDown bits).toNat :=
  (a.isGreatest_alignDown bits).mono (b.isGreatest_alignDown bits)
    fun _ hn => ⟨hn.1, Nat.le_trans hn.2 h⟩

/-- Rounding up is monotone. -/
theorem alignUp_mono (bits : Nat) (h : a.toNat ≤ b.toNat) :
    (a.alignUp bits).toNat ≤ (b.alignUp bits).toNat := by
  by_cases hb : ∃ n ∈ aligned bits, b.toNat ≤ n
  · -- what is at or above `b` is at or above `a`
    have ha : ∃ n ∈ aligned bits, a.toNat ≤ n :=
      hb.imp fun _ hn => ⟨hn.1, Nat.le_trans h hn.2⟩
    exact (isLeast_alignUp hb).mono (isLeast_alignUp ha)
      fun _ hn => ⟨hn.1, Nat.le_trans h hn.2⟩
  · exact (Saturates.isGreatest_alignUp hb).2 (alignUp_mem a bits)

/-- Rounding down and up give the same address when it is aligned or saturates, and then only. -/
theorem alignDown_eq_alignUp_iff :
    a.alignDown bits = a.alignUp bits ↔ a.isAligned bits = true ∨ a.Saturates bits := by
  rw [isAligned_iff_mem]
  constructor
  · intro heq
    by_cases hsome : ∃ n ∈ aligned bits, a.toNat ≤ n
    · -- the address is between the two, so it is the one that both give
      have hdown := (a.isGreatest_alignDown bits).1.2
      have hup := (isLeast_alignUp hsome).1.2
      rw [heq] at hdown
      rw [← Nat.le_antisymm hdown hup]
      exact .inl (alignUp_mem a bits)
    · exact .inr hsome
  · rintro (hmem | hsat)
    · rw [alignDown_of_mem hmem, alignUp_of_mem hmem]
    · refine eq_of_toNat ((a.isGreatest_alignDown bits).unique ?_)
      have hup := hsat.isGreatest_alignUp
      exact ⟨⟨hup.1, Nat.le_of_lt (hsat.lt hup.1)⟩, fun n hn => hup.2 hn.1⟩

/-! ## Masks -/

/-- The word whose low `bits` bits are set; from 64 bits on all of them are. -/
def mask (bits : Nat) : UInt64 :=
  if 64 ≤ bits then 0xffffffffffffffff else ((1 : UInt64) <<< UInt64.ofNat bits) - 1

/-- The sum of two words, if it is a word. -/
def checkedAdd (x y : UInt64) : Option UInt64 :=
  if x.toNat + y.toNat < wordCount then some (x + y) else none

/-- A mask is the last distance within a granule. -/
theorem toNat_mask (bits : Nat) : (mask bits).toNat = 2 ^ min bits 64 - 1 := by
  unfold mask
  split_ifs with hbits
  · rw [Nat.min_eq_right hbits]
    rfl
  · have hlt : 2 ^ bits < 2 ^ 64 := Nat.pow_lt_pow_right (by decide) (by omega)
    have hamount : (UInt64.ofNat bits).toNat % 64 = bits := by
      rw [UInt64.toNat_ofNat', Nat.mod_mod_of_dvd _ (by decide), Nat.mod_eq_of_lt (by omega)]
    have hshift : ((1 : UInt64) <<< UInt64.ofNat bits).toNat = 2 ^ bits := by
      rw [UInt64.toNat_shiftLeft, hamount, UInt64.toNat_one, Nat.one_shiftLeft,
        Nat.mod_eq_of_lt hlt]
    rw [Nat.min_eq_left (by omega), UInt64.toNat_sub_of_le, hshift]
    · rfl
    · rw [UInt64.le_iff_toNat_le, hshift]
      exact Nat.two_pow_pos bits

/-- The bits of a mask are the distance from the start of the granule. -/
theorem toNat_and_mask (x : UInt64) (bits : Nat) :
    (x &&& mask bits).toNat = x.toNat % 2 ^ min bits 64 := by
  rw [UInt64.toNat_and, toNat_mask, Nat.and_two_pow_sub_one_eq_mod]

/-- The other bits are the start of the granule. -/
theorem toNat_and_not_mask (x : UInt64) (bits : Nat) :
    (x &&& ~~~mask bits).toNat = x.toNat / 2 ^ min bits 64 * 2 ^ min bits 64 := by
  have hapart : (x &&& ~~~mask bits).toBitVec &&& (x &&& mask bits).toBitVec = 0 := by
    ext i
    simp only [UInt64.toBitVec_and, UInt64.toBitVec_not, BitVec.getElem_and, BitVec.getElem_not]
    cases (mask bits).toBitVec[i] <;> simp
  have htogether : (x &&& ~~~mask bits).toBitVec ||| (x &&& mask bits).toBitVec = x.toBitVec := by
    ext i
    simp only [UInt64.toBitVec_and, UInt64.toBitVec_not, BitVec.getElem_or, BitVec.getElem_and,
      BitVec.getElem_not]
    cases (mask bits).toBitVec[i] <;> simp
  have hsum : (x &&& ~~~mask bits).toNat + (x &&& mask bits).toNat = x.toNat := by
    have h := BitVec.toNat_add_of_and_eq_zero hapart
    rw [BitVec.add_eq_or_of_and_eq_zero _ _ hapart, htogether] at h
    exact h.symm
  have hsplit := Nat.div_add_mod' x.toNat (2 ^ min bits 64)
  rw [toNat_and_mask] at hsum
  omega

/-- The sum with a mask is no word when the address saturates, and then only. -/
theorem checkedAdd_mask_eq_none_iff :
    checkedAdd a.raw (mask bits) = none ↔ a.Saturates bits := by
  have hpos := Nat.two_pow_pos (min bits 64)
  have hraw : a.raw.toNat = a.toNat := rfl
  unfold checkedAdd
  rw [saturates_iff, toNat_mask, hraw]
  split_ifs with h
  · simp only [false_iff]
    omega
  · simp only [true_iff]
    omega

/-- An address is aligned when it has no bit of the mask. -/
theorem isAligned_eq_mask (a : Address s) (bits : Nat) :
    a.isAligned bits = (a.raw &&& mask bits == 0) := by
  rw [Bool.eq_iff_iff, beq_iff_eq, ← UInt64.toNat_inj, toNat_and_mask, isAligned,
    granuleOf_eq_two_pow_min, beq_iff_eq]
  rfl

/-- Rounding down clears the bits of the mask. -/
theorem raw_alignDown (a : Address s) (bits : Nat) :
    (a.alignDown bits).raw = a.raw &&& ~~~mask bits := by
  rw [← UInt64.toNat_inj, toNat_and_not_mask, ← alignDown_min]
  exact toNat_alignDown (Nat.min_le_right bits 64)

/-- Rounding up adds the mask, or takes the last word when the sum is none, and clears the bits of
the mask. -/
theorem raw_alignUp (a : Address s) (bits : Nat) : (a.alignUp bits).raw =
    (checkedAdd a.raw (mask bits)).getD 0xffffffffffffffff &&& ~~~mask bits := by
  have htop : ((checkedAdd a.raw (mask bits)).getD 0xffffffffffffffff).toNat =
      if a.toNat + (granuleOf bits - 1) < wordCount then a.toNat + (granuleOf bits - 1)
      else wordCount - 1 := by
    have hraised : a.raw.toNat + (mask bits).toNat = a.toNat + (granuleOf bits - 1) := by
      rw [toNat_mask, granuleOf_eq_two_pow_min]
      rfl
    unfold checkedAdd
    rw [hraised]
    split_ifs with hroom
    · rw [Option.getD_some, UInt64.toNat_add, hraised]
      exact Nat.mod_eq_of_lt hroom
    · rfl
  rw [← UInt64.toNat_inj, toNat_and_not_mask, htop, ← granuleOf_eq_two_pow_min]
  refine toNat_ofNat_of_lt (Nat.lt_of_le_of_lt (Nat.div_mul_le_self _ _) ?_)
  split_ifs with hroom
  · exact hroom
  · decide

/-! ## What alignment promises -/

/-- What alignment to `2 ^ bits` promises of every address of the space `s`. -/
structure Aligns (s : Space) (bits : Nat) : Prop where
  /-- an address is aligned when it is a multiple of `2 ^ bits` -/
  isAligned_iff : ∀ a : Address s, a.isAligned bits = true ↔ 2 ^ bits ∣ a.toNat
  /-- rounding down gives the largest aligned address at or below the address -/
  down : ∀ a : Address s,
    IsGreatest {n ∈ aligned bits | n ≤ a.toNat} (a.alignDown bits).toNat
  /-- rounding up gives the smallest aligned address at or above the address, if there is one -/
  up : ∀ a : Address s, (∃ n ∈ aligned bits, a.toNat ≤ n) →
    IsLeast {n ∈ aligned bits | a.toNat ≤ n} (a.alignUp bits).toNat
  /-- otherwise it gives the largest aligned address -/
  up_last : ∀ a : Address s, a.Saturates bits → IsGreatest (aligned bits) (a.alignUp bits).toNat
  /-- what rounding gives is aligned -/
  isAligned : ∀ a : Address s,
    (a.alignDown bits).isAligned bits = true ∧ (a.alignUp bits).isAligned bits = true
  /-- rounding again changes nothing -/
  idempotent : ∀ a : Address s, (a.alignDown bits).alignDown bits = a.alignDown bits ∧
    (a.alignUp bits).alignUp bits = a.alignUp bits
  /-- rounding keeps the order of addresses -/
  monotone : ∀ a b : Address s, a.toNat ≤ b.toNat →
    (a.alignDown bits).toNat ≤ (b.alignDown bits).toNat ∧
      (a.alignUp bits).toNat ≤ (b.alignUp bits).toNat
  /-- rounding down and up agree on aligned addresses, and where rounding up saturates, which is
  where the sum of the address and the mask is no word -/
  down_eq_up_iff : ∀ a : Address s,
    (a.alignDown bits = a.alignUp bits ↔ a.isAligned bits = true ∨ a.Saturates bits) ∧
      (a.Saturates bits ↔ checkedAdd a.raw (mask bits) = none)
  /-- the operations are those on the bits of the word -/
  masked : ∀ a : Address s, a.isAligned bits = (a.raw &&& mask bits == 0) ∧
    (a.alignDown bits).raw = a.raw &&& ~~~mask bits ∧
    (a.alignUp bits).raw =
      (checkedAdd a.raw (mask bits)).getD 0xffffffffffffffff &&& ~~~mask bits

/-- Alignment keeps its promise at every number of bits, also at 64 and more. -/
theorem aligns (s : Space) (bits : Nat) : Aligns s bits where
  isAligned_iff a := isAligned_iff_mem.trans (and_iff_right a.toNat_lt)
  down a := a.isGreatest_alignDown bits
  up _ := isLeast_alignUp
  up_last _ := Saturates.isGreatest_alignUp
  isAligned a :=
    ⟨isAligned_iff_mem.mpr (a.isGreatest_alignDown bits).1.1,
      isAligned_iff_mem.mpr (alignUp_mem a bits)⟩
  idempotent a :=
    ⟨alignDown_of_mem (a.isGreatest_alignDown bits).1.1, alignUp_of_mem (alignUp_mem a bits)⟩
  monotone _ _ h := ⟨alignDown_mono bits h, alignUp_mono bits h⟩
  down_eq_up_iff _ := ⟨alignDown_eq_alignUp_iff, checkedAdd_mask_eq_none_iff.symm⟩
  masked a := ⟨isAligned_eq_mask a bits, raw_alignDown a bits, raw_alignUp a bits⟩

end Address

end BootLoader
