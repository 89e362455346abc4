import BootLoader.Processor.Arm

/-!
# Operations as instructions

What each privileged operation executes on the processor that walks tables of a format. A RISC-V
hart has a single root, so it is a fault to give it two; writing the root register turns its paging
on.
-/

namespace BootLoader.Processor

open Paging (Format)

/-- The instructions of one operation. A jump executes none beside the call itself, and waiting none
at all. -/
def Operation.instructions (F : Format) (id : Arm.Identification) :
    Operation → Except Fault (List Instruction)
  | .fenceData => .ok (if F = .aarch64 then [.dsbIsh] else [.fenceRw])
  | .fenceInstructions => .ok (if F = .aarch64 then [.isb] else [.fenceI])
  | .publish root =>
    if F = .aarch64 then .ok (Arm.enable id root)
    else if root.selfMap = root.kernelMap then
      .ok [.writeSatp (F.rootRegister root.kernelMap), .sfenceVma]
    else .error .splitRoots
  | .jump _ _ => .ok []
  | .spinHint => .ok []

/-- The instructions that a core executes first when it halts: it waits for an interrupt again and
again, of which these are `count` times. -/
def haltInstructions (count : Nat) : List Instruction := List.replicate count .wfi

end BootLoader.Processor
