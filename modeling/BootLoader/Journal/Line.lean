import BootLoader.Journal.Record

/-!
# Lines of the log

A line is formatted into a buffer of fixed size before any of it is shown, so that lines of
different cores never mix. Bytes beyond the size are dropped, even in the middle of a character;
`LineBuffer.text` then ends before the bytes that are no character.
-/

namespace BootLoader.Journal

/-- The number of bytes of a line. -/
def lineSize : Nat := 256

/-- The characters that `bytes` holds from position `i` on, up to the first byte that does not begin
a whole character. -/
def charsFrom (bytes : ByteArray) (i : Nat) : List Char :=
  if _ : i < bytes.size then
    match bytes.utf8DecodeChar? i with
    | none => []
    | some c => c :: charsFrom bytes (i + c.utf8Size)
  else []
  termination_by bytes.size - i
  decreasing_by
    have := c.utf8Size_pos
    omega

/-- A line in the making: the bytes written so far. -/
structure LineBuffer where
  /-- what has been written, never more than `lineSize` bytes -/
  bytes : ByteArray
  deriving Inhabited

namespace LineBuffer

/-- The buffer before anything is written. -/
def empty : LineBuffer := ⟨ByteArray.empty⟩

/-- Whether there is no room for another byte. -/
def isFull (b : LineBuffer) : Bool := b.bytes.size == lineSize

/-- The buffer with as many bytes of `text` as there is room for. -/
def write (b : LineBuffer) (text : String) : LineBuffer :=
  ⟨b.bytes ++ text.toUTF8.extract 0 (lineSize - b.bytes.size)⟩

/-- The whole characters at the start of the buffer. -/
def text (b : LineBuffer) : String := String.ofList (charsFrom b.bytes 0)

/-- The buffer without its last byte if it is full, so that a line end fits. -/
def makeRoom (b : LineBuffer) : LineBuffer :=
  if b.isFull then ⟨b.bytes.extract 0 (lineSize - 1)⟩ else b

/-- The buffer with a record and a line end written to it. -/
def writeRecord (b : LineBuffer) (r : Record) : LineBuffer :=
  (b.write r.heading).makeRoom.write "\n"

end LineBuffer

/-- The line that shows a record. -/
def Record.line (r : Record) : String := (LineBuffer.empty.writeRecord r).text

end BootLoader.Journal
