/-!
# How a computation stops

A step of the loader that does not succeed stops in one of two ways. It refuses the request, with a
cause that its caller reports; or it breaks one of the rules that the loader's own code must keep,
which is a fault. The two are kept apart, so that "never faults" is a statement of its own.
-/

namespace BootLoader

/-- The rules whose violation is a fault. -/
inductive Fault where
  /-- an array was indexed at or beyond its end -/
  | indexOutOfRange
  /-- a sum, a difference or a product left the range of a word -/
  | overflow
  /-- an address was to be encoded in an entry whose address field drops some of its low bits -/
  | misaligned
  /-- a device tree block, a token or a property in it cannot be read -/
  | malformedTree
  /-- page tables point back at a table that is being listed -/
  | cyclicTables
  /-- a processor with a single root table was given two -/
  | splitRoots
  deriving DecidableEq, Repr

/-- The two ways in which a computation stops without a value. -/
inductive Stop (ε : Type) where
  /-- The request is refused for the cause `e`. -/
  | refused (e : ε)
  /-- The computation broke the rule `f`. -/
  | fault (f : Fault)
  deriving DecidableEq, Repr

/-- The same stop with its cause in other terms. -/
def Stop.map {ε δ : Type} (f : ε → δ) : Stop ε → Stop δ
  | .refused e => .refused (f e)
  | .fault r => .fault r

/-- The value of a computation that may refuse or fault. -/
abbrev Outcome (ε α : Type) := Except (Stop ε) α

namespace Outcome

variable {ε δ α : Type}

/-- The request is refused for the cause `e`. -/
def refuse (e : ε) : Outcome ε α := .error (.refused e)

/-- The computation broke the rule `f`. -/
def fault (f : Fault) : Outcome ε α := .error (.fault f)

/-- The same outcome with the cause of a refusal in other terms. -/
def mapCause (f : ε → δ) : Outcome ε α → Outcome δ α
  | .ok a => .ok a
  | .error stop => .error (stop.map f)

/-- The outcome of a computation that can only fault, where a refusal is possible too. -/
def ofFaulting : Except Fault α → Outcome ε α
  | .ok a => .ok a
  | .error f => .error (.fault f)

end Outcome

end BootLoader
