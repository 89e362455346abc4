/-!
# The notice of the host program

The loader cannot run as a program of another system; there it only says what it is.
-/

namespace BootLoader

/-- What the program says when it is started on a host. -/
def hostNotice : String :=
  "lode-boot is a bare-metal loader; build it for a \x60*-none-elf\x60 target"

end BootLoader
