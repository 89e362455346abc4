/-!
# Linking the loader

The loader runs on bare metal, where a linker script gives its layout; each processor family has its
own. A build for any other system, which is a build for tests, uses the default layout. What the
build is told is a list of directives, one in a line.
-/

namespace BootLoader

/-- What is known about a build. -/
structure BuildTarget where
  /-- where the linker scripts are -/
  directory : Option String := none
  /-- the operating system -/
  os : String := ""
  /-- the processor -/
  arch : String := ""
  deriving DecidableEq, Repr

namespace BuildTarget

/-- The linker script for AArch64. -/
def armScript : String := "link-aarch64.ld"

/-- The linker script for all other processors. -/
def riscVScript : String := "link-riscv.ld"

/-- The linker script of a build on bare metal. -/
def script? (t : BuildTarget) : Option String :=
  if t.os == "none" then some (if t.arch == "aarch64" then armScript else riscVScript) else none

/-- What the build is told, when the linker scripts are in `directory`. -/
def directives (t : BuildTarget) (directory : String) : List String :=
  (t.script?.map fun script => s!"cargo:rustc-link-arg-bins=-T{directory}/{script}").toList ++
    [armScript, riscVScript].map fun script => s!"cargo:rerun-if-changed={script}"

/-- The status with which the build ends when it does not know where the linker scripts are. -/
def missingDirectory : Nat := 101

/-- The exit status of configuring a build, and what it prints. -/
def configure (t : BuildTarget) : Nat × String :=
  match t.directory with
  | none => (missingDirectory, "")
  | some directory => (0, String.join ((t.directives directory).map (· ++ "\n")))

end BuildTarget

end BootLoader
