import BootLoader.BootError
import BootLoader.Core.Identity

/-!
# Numbering the cores

The cores of a boot are the primary, with the logical id zero, and the secondaries, numbered from
one in the order in which they were listed. The list of a platform may or may not name the primary.
-/

namespace BootLoader

/-- The cores of a boot. -/
structure CoreMap where
  /-- the hardware id of the primary -/
  primaryHw : UInt64
  /-- the hardware ids of the secondaries, in the order of their logical ids -/
  others : List UInt64 := []
  deriving DecidableEq, Repr

namespace CoreMap

/-- The primary core alone. -/
def single (primaryHw : UInt64) : CoreMap := { primaryHw }

/-- The primary core and those listed, at most `room` cores in all. -/
def assign (room : Nat) (primaryHw : UInt64) (ids : List UInt64) : Except BootError CoreMap :=
  let others := ids.filter (· != primaryHw)
  if room < others.length + 1 then .error (.tooManyCores (others.length + 1) room)
  else .ok { primaryHw, others }

/-- The number of cores. -/
def count (m : CoreMap) : Nat := m.others.length + 1

/-- The primary core. -/
def primary (m : CoreMap) : CoreIdentity := .primary m.primaryHw

/-- The secondary cores, in the order of their logical ids. -/
def secondaries (m : CoreMap) : List CoreIdentity :=
  m.others.zipIdx.map fun (hwId, index) => ⟨hwId, index + 1⟩

/-- All cores, in the order of their logical ids. -/
def cores (m : CoreMap) : List CoreIdentity := m.primary :: m.secondaries

end CoreMap

end BootLoader
