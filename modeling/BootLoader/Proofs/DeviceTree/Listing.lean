import BootLoader.DeviceTree.Cores
import Mathlib.Data.List.Forall2
import Mathlib.Data.List.TakeWhile
import Mathlib.Tactic.Ring

/-!
# The cores that a device tree lists

Which children of `/cpus` are cores that count is a matter of their names and their status
(`Reader.Counts`), and each has the id that its property `reg` starts with (`Reader.HasId`). Going
through the children gives the ids of those that count, in document order, if all of them have one;
it gives no list as soon as one has none (`CoreList.ofChildren_cases`). Of the reader nothing is
needed but that it gets to the end of the children (`Reader.Reports`).
-/

namespace BootLoader.DeviceTree

/-! ## Numbers -/

/-- A number grows with each further byte by no more than the byte can say. -/
theorem foldl_bytes_lt (bytes : List UInt8) (n : Nat) :
    bytes.foldl (fun n b => n * 256 + b.toNat) n < (n + 1) * 256 ^ bytes.length := by
  induction bytes generalizing n with
  | nil => simp
  | cons b bytes ih =>
    have hb : b.toNat < 256 := b.toNat_lt
    calc (b :: bytes).foldl (fun n b => n * 256 + b.toNat) n
        < (n * 256 + b.toNat + 1) * 256 ^ bytes.length := ih _
      _ ≤ ((n + 1) * 256) * 256 ^ bytes.length := Nat.mul_le_mul_right _ (by omega)
      _ = (n + 1) * 256 ^ (b :: bytes).length := by rw [List.length_cons]; ring

/-- The number of some bytes has no more bytes than these. -/
theorem bigEndian_lt (bytes : List UInt8) : bigEndian bytes < 256 ^ bytes.length := by
  simpa [bigEndian] using foldl_bytes_lt bytes 0

/-- A number of one word or two is read as it is, if the value is long enough. -/
theorem readCells_eq_some_iff {value : List UInt8} {cells : Nat} {id : UInt64} :
    readCells value cells = some id ↔
      (cells = 1 ∨ cells = 2) ∧ 4 * cells ≤ value.length ∧
        id.toNat = bigEndian (value.take (4 * cells)) := by
  unfold readCells
  split
  next hbad =>
    simp only [reduceCtorEq, false_iff]
    rintro ⟨hcells, hlength, -⟩
    omega
  next hgood =>
    have hcells : cells = 1 ∨ cells = 2 := by omega
    have hlength : 4 * cells ≤ value.length := by omega
    have hlt : bigEndian (value.take (4 * cells)) < 2 ^ 64 :=
      calc bigEndian (value.take (4 * cells))
          < 256 ^ (value.take (4 * cells)).length := bigEndian_lt _
        _ ≤ 256 ^ 8 := Nat.pow_le_pow_right (by decide) (by rw [List.length_take]; omega)
        _ = 2 ^ 64 := by decide
    rw [Option.some_inj, ← UInt64.toNat_inj, UInt64.toNat_ofNat_of_lt' hlt]
    exact ⟨fun h => ⟨hcells, hlength, h.symm⟩, fun h => h.2.2.symm⟩

/-! ## Names and status -/

/-- A name without its unit address, when there is no `@` in it. -/
theorem baseName_eq_iff {name base : String} (hbase : '@' ∉ base.toList) :
    baseName name = base ↔ name = base ∨ ∃ unit, name = base ++ "@" ++ unit := by
  have hkept : ∀ c ∈ base.toList, (c != '@') = true := fun c hc => by
    rw [bne_iff_ne]
    exact fun h => hbase (h ▸ hc)
  unfold baseName
  constructor
  · intro h
    have hstart : name.toList.takeWhile (· != '@') = base.toList := by
      rw [← h, String.toList_ofList]
    have hsplit := List.takeWhile_append_dropWhile (p := (· != '@')) (l := name.toList)
    rw [hstart] at hsplit
    cases hrest : name.toList.dropWhile (· != '@') with
    | nil =>
      rw [hrest, List.append_nil] at hsplit
      exact .inl (String.toList_inj.mp hsplit.symm)
    | cons c unit =>
      have hc : c = '@' := by
        have hnot := List.head?_dropWhile_not (· != '@') name.toList
        rw [hrest] at hnot
        simpa using hnot
      refine .inr ⟨String.ofList unit, String.toList_inj.mp ?_⟩
      rw [← hsplit, hrest, hc]
      simp
  · rintro (rfl | ⟨unit, rfl⟩)
    · rw [List.takeWhile_eq_self_iff.mpr hkept, String.ofList_toList]
    · rw [String.toList_append, String.toList_append, List.append_assoc,
        List.takeWhile_append_of_pos hkept]
      simp

namespace Reader

variable {β ν : Type} (reader : Reader β ν)

/-- Whether a child of `/cpus` is a core that counts: it is named `cpu`, with a unit address or
without, and has no status that says otherwise. -/
def Counts (node : ν) : Prop :=
  (reader.name node = "cpu" ∨ ∃ unit, reader.name node = "cpu@" ++ unit) ∧
    ∀ status, reader.text? node "status" = some status → status = "okay" ∨ status = "ok"

/-- That is what is looked for. -/
theorem counts_iff {node : ν} :
    reader.Counts node ↔ (reader.isCore node && reader.isEnabled node) = true := by
  have hname : reader.isCore node = true ↔
      reader.name node = "cpu" ∨ ∃ unit, reader.name node = "cpu@" ++ unit := by
    unfold isCore
    rw [beq_iff_eq, baseName_eq_iff (by decide)]
    rfl
  have hstatus : reader.isEnabled node = true ↔
      ∀ status, reader.text? node "status" = some status → status = "okay" ∨ status = "ok" := by
    unfold isEnabled
    cases reader.text? node "status" <;> simp
  rw [Bool.and_eq_true, hname, hstatus]
  rfl

instance : DecidablePred reader.Counts := fun _ => decidable_of_iff _ (counts_iff reader).symm

/-- The cores under `/cpus` that count, in document order. -/
def countedCores (cpus : ν) : List ν := (reader.children cpus).items.filter (reader.Counts ·)

/-! ## Ids -/

/-- The id of a core whose address has `cells` words: the number that its property `reg` starts
with. -/
def HasId (cells : Nat) (node : ν) (id : UInt64) : Prop :=
  ∃ reg, reader.property? node "reg" = some reg ∧ 4 * cells ≤ reg.length ∧
    id.toNat = bigEndian (reg.take (4 * cells))

/-- Whether there is no such number: the property is missing or too short. -/
def LacksId (cells : Nat) (node : ν) : Prop :=
  ∀ reg, reader.property? node "reg" = some reg → reg.length < 4 * cells

variable {reader} {node : ν} {cells : Nat}

/-- The id that is read is the one that the core has. -/
theorem hwId?_eq_some_iff {id : UInt64} :
    reader.hwId? node cells = some id ↔ (cells = 1 ∨ cells = 2) ∧ reader.HasId cells node id := by
  unfold hwId? HasId
  rw [Option.bind_eq_some_iff]
  simp only [readCells_eq_some_iff]
  constructor
  · rintro ⟨reg, hreg, hcells, hlength, hid⟩
    exact ⟨hcells, reg, hreg, hlength, hid⟩
  · rintro ⟨hcells, reg, hreg, hlength, hid⟩
    exact ⟨reg, hreg, hcells, hlength, hid⟩

/-- No id is read where addresses are too short or too long, or where the core has none. -/
theorem hwId?_eq_none_iff :
    reader.hwId? node cells = none ↔ (cells ≠ 1 ∧ cells ≠ 2) ∨ reader.LacksId cells node := by
  unfold hwId? LacksId
  rw [Option.bind_eq_none_iff]
  unfold readCells
  constructor
  · intro h
    by_cases hcells : cells = 1 ∨ cells = 2
    · refine .inr fun reg hreg => ?_
      have hnone := h reg hreg
      split at hnone
      · omega
      · cases hnone
    · exact .inl (not_or.mp hcells)
  · rintro (hcells | hlacks) reg hreg
    · exact if_pos (by omega)
    · have hlength := hlacks reg hreg
      exact if_pos (.inr (.inr hlength))

/-! ## Reports -/

/-- Whether a reader gets to the end of what it is asked about the cores of a blob, where `found` is
the node `/cpus`, if there is one. -/
structure Reports (reader : Reader β ν) (b : β) (found : Option ν) : Prop where
  /-- the node is found, or there is none -/
  found_eq : reader.underRoot? b "cpus" = .ok found
  /-- it says how long the addresses of the cores are -/
  cells : ∀ cpus, found = some cpus → ∃ cells, reader.addressCells cpus = .ok cells
  /-- all of its children are read -/
  children : ∀ cpus, found = some cpus → (reader.children cpus).fault = none

end Reader

/-! ## Lists -/

namespace CoreList

/-- Going through children that can all be read: either one that counts has an id that cannot be
read, and there is no list, or the list is that of their ids. -/
theorem ofChildren_cases {β ν : Type} (reader : Reader β ν) (cells : Nat) (nodes : List ν) :
    ((∃ node ∈ nodes.filter (reader.Counts ·), reader.hwId? node cells = none) ∧
        (ofChildren reader cells none nodes).problem = some (.refused .invalidData)) ∨
      ∃ ids, List.Forall₂ (fun node id => reader.hwId? node cells = some id)
          (nodes.filter (reader.Counts ·)) ids ∧ ofChildren reader cells none nodes = ⟨ids, none⟩ := by
  induction nodes with
  | nil => exact .inr ⟨[], .nil, rfl⟩
  | cons node nodes ih =>
    unfold ofChildren
    by_cases hcounts : reader.Counts node
    · rw [if_pos (reader.counts_iff.mp hcounts), List.filter_cons, if_pos (decide_eq_true hcounts)]
      cases hid : reader.hwId? node cells with
      | none => exact .inl ⟨⟨node, List.mem_cons_self, hid⟩, rfl⟩
      | some id =>
        rcases ih with ⟨⟨other, hother, hnone⟩, hproblem⟩ | ⟨ids, hids, hlist⟩
        · exact .inl ⟨⟨other, List.mem_cons_of_mem _ hother, hnone⟩, hproblem⟩
        · exact .inr ⟨id :: ids, .cons hid hids, by rw [hlist]⟩
    · rw [if_neg fun h => hcounts (reader.counts_iff.mpr h), List.filter_cons,
        if_neg fun h => hcounts (of_decide_eq_true h)]
      exact ih

end CoreList

end BootLoader.DeviceTree
