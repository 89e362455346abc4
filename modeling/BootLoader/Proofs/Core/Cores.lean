import BootLoader.Core.Map
import BootLoader.Core.Wakeup
import BootLoader.Proofs.Address
import Mathlib.Data.List.Range

/-!
# Cores, their stacks and their wake-up blocks

The core map numbers the secondaries in order, and there is room for all of them. Stacks that are set
aside in the address space lie one after the other (`Stacks.top_apart`), and so do wake-up blocks
(`WakeupTable.address_apart`). A table of wake-up blocks that fits into memory has a block for each
core at an address of its own, so the block at the address of a core is the block of that core
(`WakeupTable.blockAt_address`).
-/

namespace BootLoader

/-! ## Core maps -/

namespace CoreMap

variable {room : Nat} {m : CoreMap}

/-- A core map that was assigned has no more cores than there is room for. -/
theorem count_le_of_assign {primaryHw : UInt64} {ids : List UInt64}
    (h : assign room primaryHw ids = .ok m) : m.count ≤ room := by
  unfold assign at h
  dsimp only at h
  split at h
  · cases h
  · cases h
    unfold count
    dsimp only
    omega

/-- There is at least one core. -/
theorem count_pos : 1 ≤ m.count := Nat.succ_pos _

/-- There are as many secondaries as other cores. -/
@[simp]
theorem length_secondaries : m.secondaries.length = m.others.length := by
  unfold secondaries
  rw [List.length_map, List.length_zipIdx]

/-- The secondaries are numbered from one. -/
theorem logical_of_secondaries {index : Nat} {core : CoreIdentity}
    (h : m.secondaries[index]? = some core) : core.logical = index + 1 := by
  unfold secondaries at h
  rw [List.getElem?_map, List.getElem?_zipIdx, Option.map_map, Option.map_eq_some_iff] at h
  obtain ⟨hw, -, rfl⟩ := h
  exact congrArg (· + 1) (Nat.zero_add index)

/-- A secondary is one of the cores there is room for. -/
theorem logical_lt_count {index : Nat} {core : CoreIdentity}
    (h : m.secondaries[index]? = some core) : core.logical < m.count := by
  have hindex := (List.getElem?_eq_some_iff.mp h).choose
  rw [length_secondaries] at hindex
  rw [logical_of_secondaries h]
  exact Nat.succ_lt_succ hindex

/-- A secondary has the number of those before it, and one for the primary. -/
theorem logical_of_append {before rest : List CoreIdentity} {core : CoreIdentity}
    (h : before ++ core :: rest = m.secondaries) : core.logical = before.length + 1 :=
  logical_of_secondaries (by rw [← h, List.getElem?_append_right (Nat.le_refl _)]; simp)

/-- The hardware ids of all cores are that of the primary and those of the others. -/
theorem map_hwId_cores (m : CoreMap) : m.cores.map (·.hwId) = m.primaryHw :: m.others := by
  show m.primaryHw :: m.secondaries.map (·.hwId) = m.primaryHw :: m.others
  unfold secondaries
  rw [List.map_map]
  exact congrArg (m.primaryHw :: ·) (List.zipIdx_map_fst 0 m.others)

/-- The logical ids of all cores count them from zero. -/
theorem map_logical_cores (m : CoreMap) : m.cores.map (·.logical) = List.range m.count := by
  show 0 :: m.secondaries.map (·.logical) = List.range (m.others.length + 1)
  unfold secondaries
  rw [List.range_succ_eq_map, List.range_eq_range', ← List.zipIdx_map_snd, List.map_map,
    List.map_map]
  rfl

end CoreMap

/-! ## Stacks -/

namespace Stacks

variable {s : Stacks} {i j : Nat} {top other : UInt64}

/-- The top of a stack that does not leave the address space, as a number. -/
theorem toNat_top (hfits : s.base.toNat + s.size * s.count < wordCount) (h : s.top i = some top) :
    i < s.count ∧ top.toNat = s.base.toNat + s.size * i + s.size := by
  unfold Stacks.top at h
  split at h
  next hi =>
    cases h
    have hle : s.size * i + s.size ≤ s.size * s.count := Nat.mul_le_mul_left s.size hi
    have hsize : (i + 1) * s.size = s.size * i + s.size := by
      rw [Nat.succ_mul, Nat.mul_comm]
    refine ⟨hi, ?_⟩
    rw [UInt64.toNat_add, hsize, UInt64.toNat_ofNat', Nat.add_mod_mod, Nat.add_assoc]
    exact Nat.mod_eq_of_lt (show s.base.toNat + (s.size * i + s.size) < wordCount by omega)
  next => cases h

/-- The stack of a core is one of those that are set aside. -/
theorem top_inside (hfits : s.base.toNat + s.size * s.count < wordCount) (h : s.top i = some top) :
    s.base.toNat + s.size ≤ top.toNat ∧ top.toNat ≤ s.base.toNat + s.size * s.count := by
  obtain ⟨hi, htop⟩ := toNat_top hfits h
  have hle : s.size * i + s.size ≤ s.size * s.count := Nat.mul_le_mul_left s.size hi
  omega

/-- The stack of a core ends where the next one starts, or before. -/
theorem top_apart (hfits : s.base.toNat + s.size * s.count < wordCount) (hlt : i < j)
    (hi : s.top i = some top) (hj : s.top j = some other) : top.toNat + s.size ≤ other.toNat := by
  have hle : s.size * i + s.size ≤ s.size * j := Nat.mul_le_mul_left s.size hlt
  have htop := (toNat_top hfits hi).2
  have hother := (toNat_top hfits hj).2
  omega

end Stacks

/-! ## Wake-up blocks -/

namespace WakeupBlock

/-- A block that is filled in for a core names that core. -/
theorem identity_eq {stackTop context : UInt64} {core : CoreIdentity}
    (h : core.logical < wordCount) :
    identity ⟨stackTop, core.hwId, UInt64.ofNat core.logical, context⟩ = core := by
  unfold identity
  rw [UInt64.toNat_ofNat_of_lt' h]

end WakeupBlock

namespace WakeupTable

variable {n : Nat} {t u : WakeupTable n} {i j : Nat}

/-- Where a block lies does not depend on what is in the blocks. -/
theorem address_congr (h : u.base = t.base) (logical : Nat) :
    u.address logical = t.address logical := by
  unfold address
  rw [h]

/-- The address of a block in the address space, as a number. -/
theorem toNat_address (hfits : t.base.toNat + WakeupBlock.size * n ≤ wordCount) (hi : i < n) :
    (t.address i).toNat = t.base.toNat + WakeupBlock.size * i := by
  have hlt := Nat.mul_lt_mul_of_pos_left hi (show 0 < WakeupBlock.size by decide)
  unfold address
  rw [UInt64.toNat_add, UInt64.toNat_ofNat', Nat.add_mod_mod]
  exact Nat.mod_eq_of_lt (Nat.lt_of_lt_of_le (Nat.add_lt_add_left hlt _) hfits)

/-- A block ends where the next one starts, or before. -/
theorem address_apart (hfits : t.base.toNat + WakeupBlock.size * n ≤ wordCount) (hlt : i < j)
    (hj : j < n) : (t.address i).toNat + WakeupBlock.size ≤ (t.address j).toNat := by
  have hle := Nat.mul_le_mul_left WakeupBlock.size hlt
  rw [toNat_address hfits (Nat.lt_trans hlt hj), toNat_address hfits hj, Nat.add_assoc,
    ← Nat.mul_succ]
  exact Nat.add_le_add_left hle _

/-- Different cores have blocks at different addresses. -/
theorem address_inj (hfits : WakeupBlock.size * n ≤ wordCount) (hi : i < n) (hj : j < n)
    (h : t.address i = t.address j) : i = j := by
  have hsize : WakeupBlock.size = 32 := rfl
  have hword := wordCount_eq
  rw [hsize, hword] at hfits
  unfold address at h
  have hmul : UInt64.ofNat (WakeupBlock.size * i) = UInt64.ofNat (WakeupBlock.size * j) :=
    (UInt64.add_right_inj t.base).mp h
  have hnat := congrArg UInt64.toNat hmul
  rw [hsize, UInt64.toNat_ofNat', UInt64.toNat_ofNat'] at hnat
  omega

/-- At the address of the block of a core there is that block. -/
theorem blockAt_address (hfits : WakeupBlock.size * n ≤ wordCount) (hi : i < n) :
    t.blockAt (t.address i) = t.get i := by
  unfold blockAt
  have hfind : (List.range n).find? (fun logical => t.address logical == t.address i) = some i := by
    rw [List.find?_range_eq_some]
    refine ⟨beq_self_eq_true _, List.mem_range.mpr hi, fun j hj => ?_⟩
    rw [Bool.not_eq_true', beq_eq_false_iff_ne]
    exact fun h => Nat.ne_of_lt hj (address_inj hfits (Nat.lt_trans hj hi) hi h)
  rw [hfind, Option.bind_some]

/-- Filling in a block leaves the table where it is, and all other blocks as they are. -/
theorem fill_eq_some {block : WakeupBlock} {address : UInt64}
    (h : t.fill i block = some (address, u)) :
    i < n ∧ address = t.address i ∧ u.base = t.base ∧ u.get i = some block ∧
      ∀ j, j ≠ i → u.get j = t.get j := by
  unfold fill at h
  split at h
  next hi =>
    cases h
    refine ⟨hi, rfl, rfl, ?_, fun j hj => ?_⟩
    · exact Vector.getElem?_set_self hi
    · exact Vector.getElem?_set_ne hi (Ne.symm hj)
  next => cases h

end WakeupTable

end BootLoader
