/-!
# Numbers as text

Every number of the boot log is written in one of four forms: plain hexadecimal, hexadecimal after
`0x`, hexadecimal after `0x` filled with zeros to a whole word, and decimal filled with blanks. The
filled forms never cut a number that is longer than its field. Bytes are written with two digits
each.
-/

namespace BootLoader.Text

/-- `text` with copies of `fill` put in front until it is `width` characters long. -/
def padStart (fill : Char) (width : Nat) (text : String) : String :=
  String.ofList (List.replicate (width - text.length) fill) ++ text

/-- The lower-case hexadecimal digits of a number, without leading zeros. -/
def hexDigits (n : Nat) : String := String.ofList (Nat.toDigits 16 n)

/-- A number in hexadecimal after `0x`. -/
def hex (n : Nat) : String := "0x" ++ hexDigits n

/-- A number in hexadecimal after `0x`, filled with zeros to `width` digits. -/
def hexPadded (width n : Nat) : String := "0x" ++ padStart '0' width (hexDigits n)

/-- A number in binary, filled with zeros to `width` digits. -/
def binaryPadded (width n : Nat) : String := padStart '0' width (String.ofList (Nat.toDigits 2 n))

/-- Bytes in hexadecimal, two digits each. -/
def hexBytes (bytes : List UInt8) : String :=
  String.join (bytes.map fun b => padStart '0' 2 (hexDigits b.toNat))

/-- The value of a lower-case hexadecimal digit. -/
def digitValue (c : Char) : Nat := if c.isDigit then c.toNat - 48 else c.toNat - 87

/-- The number that lower-case hexadecimal digits stand for. -/
def ofHexDigits (digits : List Char) : Nat := digits.foldl (fun n c => n * 16 + digitValue c) 0

/-- The number that is written after `0x`. -/
def ofHex (text : String) : Nat := ofHexDigits (text.toList.drop 2)

/-- The bytes that pairs of digits stand for, after those in `read`. -/
def bytesFrom (read : ByteArray) : List Char → ByteArray
  | a :: b :: rest => bytesFrom (read.push (UInt8.ofNat (ofHexDigits [a, b]))) rest
  | _ => read

/-- The bytes that are written with two digits each. -/
def ofHexBytes (text : String) : ByteArray := bytesFrom ByteArray.empty text.toList

/-- The digit one for a set flag, and zero for a clear one. -/
def bit (b : Bool) : String := if b then "1" else "0"

end BootLoader.Text
