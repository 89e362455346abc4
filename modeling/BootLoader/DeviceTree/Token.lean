import BootLoader.DeviceTree.Reader

/-!
# Device tree tokens

The structure block of a device tree is a run of tokens, each of them a big-endian word and what
belongs to it, filled up to a whole number of words: the start of a node with its name, the end of a
node, a property with its value and the place of its name in the strings block, and the end of the
block. `tokens` reads a structure block up to its end, up to a word that starts no token, or up to a
token that is cut off; a token that is cut off is an item of its own, since only a reader that gets
there finds a fault in it.
-/

namespace BootLoader.DeviceTree

/-- The text that UTF-8 bytes stand for. -/
def text? (bytes : List UInt8) : Option String := String.fromUTF8? ⟨bytes.toArray⟩

/-- The bytes before the first zero, if there is a zero. -/
def beforeZero? (bytes : List UInt8) : Option (List UInt8) :=
  if bytes.contains 0 then some (bytes.takeWhile (· != 0)) else none

/-- The number of bytes that `n` bytes fill when they are followed by the next whole word. -/
def aligned (n : Nat) : Nat := (n + 3) / 4 * 4

/-- An item of a structure block. -/
inductive Token where
  /-- a node starts; the bytes of its name -/
  | beginNode (name : List UInt8)
  /-- the innermost open node ends -/
  | endNode
  /-- a property of the innermost open node -/
  | property (name : String) (value : List UInt8)
  /-- the structure block ends -/
  | finish
  /-- a word that starts no token -/
  | unknown
  /-- a node starts, and the block ends before its name does -/
  | brokenNode
  /-- a property starts, and its value or its name cannot be found -/
  | brokenProperty
  deriving DecidableEq, Repr

namespace Token

/-- Whether nothing is read after this token. -/
def isLast : Token → Bool
  | finish | unknown | brokenNode | brokenProperty => true
  | _ => false

/-- The start of a node whose token word is followed by `rest`, and how many bytes of `rest` are
part of the token. -/
def readNode (rest : List UInt8) : Token × Nat :=
  match beforeZero? rest with
  | none => (brokenNode, 0)
  | some name => (beginNode name, aligned (name.length + 1))

/-- The name at an offset in the strings block. -/
def nameAt (strings : Option (List UInt8)) (offset : Nat) : Option String := do
  let block ← strings
  guard (offset ≤ block.length)
  text? (← beforeZero? (block.drop offset))

/-- The property whose token word is followed by `rest`, and how many bytes of `rest` are part of
the token. -/
def readProperty (strings : Option (List UInt8)) (rest : List UInt8) : Token × Nat :=
  let length := bigEndian (rest.take 4)
  let value := (rest.drop 8).take length
  match nameAt strings (bigEndian ((rest.drop 4).take 4)) with
  | none => (brokenProperty, 0)
  | some name =>
    if rest.length < 8 || value.length < length then (brokenProperty, 0)
    else (property name value, 8 + aligned length)

/-- The token that starts with the word `word` and goes on with `rest`, and how many bytes of `rest`
are part of it. There is no token for a word that stands for nothing. -/
def read (strings : Option (List UInt8)) (word : Nat) (rest : List UInt8) : Option Token × Nat :=
  match word with
  | 1 => let (token, length) := readNode rest; (some token, length)
  | 2 => (some endNode, 0)
  | 3 => let (token, length) := readProperty strings rest; (some token, length)
  | 4 => (none, 0)
  | 9 => (some finish, 0)
  | _ => (some unknown, 0)

end Token

/-- The tokens of a structure block, with the strings block that its properties are named in. -/
def tokens (strings : Option (List UInt8)) : List UInt8 → List Token
  | a :: b :: c :: d :: rest =>
    match Token.read strings (bigEndian [a, b, c, d]) rest with
    | (none, length) => tokens strings (rest.drop length)
    | (some token, length) =>
      if token.isLast then [token] else token :: tokens strings (rest.drop length)
  | _ => []
  termination_by bytes => bytes.length
  decreasing_by all_goals
    simp only [List.length_drop, List.length_cons]
    omega

end BootLoader.DeviceTree
