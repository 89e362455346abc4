import BootLoader.Address

/-!
# Table entries

What an entry of a page table says once it is decoded, and the two widths in which tables
store entries.
-/

namespace BootLoader.Paging

/-- The width of the entries of a table; a table fills one page. -/
inductive EntryWidth where
  /-- 32-bit entries, 1024 in a table -/
  | narrow
  /-- 64-bit entries, 512 in a table -/
  | wide
  deriving DecidableEq, Repr

namespace EntryWidth

/-- The number of entries of a table. -/
def entries : EntryWidth → Nat
  | narrow => 1024
  | wide => 512

/-- The word that a table holds after `raw` is written to it: narrow tables keep the low half. -/
def stored : EntryWidth → UInt64 → UInt64
  | narrow, raw => UInt64.ofNat (raw.toNat % 0x100000000)
  | wide, raw => raw

end EntryWidth

/-- The kind of memory behind a mapping. -/
inductive Memory where
  /-- cacheable memory that holds code and data -/
  | normal
  /-- device registers: not cached, never executed -/
  | device
  deriving DecidableEq, Repr

/-- What a table entry says. -/
inductive Entry where
  /-- nothing is mapped here -/
  | invalid
  /-- a block of memory starts at `base`; `attrs` are the bits of the entry outside its address -/
  | leaf (base : PhysAddr) (attrs : UInt64)
  /-- the table one level down is at `child` -/
  | next (child : PhysAddr)
  deriving DecidableEq, Repr

namespace Entry

/-- Whether the entry maps or points at something. -/
def isValid : Entry → Bool
  | invalid => false
  | _ => true

/-- The entry as it stands in diagnostics. -/
def inspect : Entry → String
  | invalid => "Entry::Invalid"
  | leaf base attrs => s!"Entry::Leaf({Text.hex base.toNat}, attrs={Text.hex attrs.toNat})"
  | next child => s!"Entry::NextLevel({Text.hex child.toNat})"

end Entry

end BootLoader.Paging
