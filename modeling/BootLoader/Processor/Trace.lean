import BootLoader.Processor.Native

/-!
# Traces

A trace shows what a core did as a list of events: the operations in order, and on a real processor
the instructions that each of them executed right after it. A jump calls the code at its target and
executes no instruction of its own; waiting is no event, but shows that it executed nothing.
-/

namespace BootLoader.Processor

open Paging (Format)

/-- What is seen of a core. -/
inductive Event where
  /-- it performed an operation -/
  | performed (operation : Operation)
  /-- it executed instructions for it -/
  | executed (instructions : List Instruction)
  deriving DecidableEq, Repr

/-- What is observed: cores that walk tables of a format, on the processor `native` if it is
given. -/
structure Observer where
  /-- the format of the tables -/
  format : Format
  /-- the processor -/
  native : Option Arm.Identification := none

namespace Observer

/-- The events of one operation. -/
def events (o : Observer) (op : Operation) : Except Fault (List Event) :=
  let seen := if op = .spinHint then [] else [Event.performed op]
  match o.native, op with
  | none, _ => .ok seen
  | some _, .jump _ _ => .ok seen
  | some id, op => do return seen ++ [.executed (← op.instructions o.format id)]

/-- The events of operations one after the other. -/
def trace (o : Observer) (ops : List Operation) : Except Fault (List Event) := do
  return (← ops.mapM o.events).flatten

end Observer

end BootLoader.Processor
