/-!
# The permission profile

Every mapping of the loader grants the same rights: the kernel may read, write and execute, user
code may do nothing, the mapping is global, and the accessed and dirty states are set beforehand so
that the first access never faults. The kernel replaces these tables with its own.
-/

namespace BootLoader.Paging

/-- The rights of a mapping; each format encodes them in its own bits. -/
structure Permissions where
  read : Bool
  write : Bool
  execute : Bool
  user : Bool
  /-- shared by all address spaces -/
  global : Bool
  /-- the accessed state is set beforehand -/
  accessed : Bool
  /-- the dirty state is set beforehand -/
  dirty : Bool
  deriving DecidableEq, Repr

namespace Permissions

/-- The rights of every mapping of the loader. -/
def profile : Permissions where
  read := true
  write := true
  execute := true
  user := false
  global := true
  accessed := true
  dirty := true

/-- One letter for each right, in the order of the bits of a table entry, and a dash for a right
that is not granted. -/
def display (p : Permissions) : String :=
  let flag (set : Bool) (letter : Char) := if set then letter else '-'
  String.ofList [flag p.dirty 'D', flag p.accessed 'A', flag p.global 'G', flag p.user 'U',
    flag p.execute 'X', flag p.write 'W', flag p.read 'R']

/-- The rights whose letters are in a text; other characters do not count. -/
def ofLetters (text : String) : Permissions :=
  let has (letter : Char) : Bool := text.toList.contains letter
  { read := has 'R', write := has 'W', execute := has 'X', user := has 'U', global := has 'G'
    accessed := has 'A', dirty := has 'D' }

end Permissions

end BootLoader.Paging
