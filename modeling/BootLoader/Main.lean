import BootLoader.Notice

/-!
# The command line

On a host the program says what it is, and ends.
-/

/-- Prints the notice. -/
def main : IO Unit := IO.println BootLoader.hostNotice
