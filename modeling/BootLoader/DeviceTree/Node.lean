import BootLoader.DeviceTree.Blob

/-!
# Device tree nodes

A node is its name and the tokens after it. Nodes are looked for by going through the tokens, and a
token that is cut off is a fault only for a search that reaches it. What is found in this way is how
blobs are read (`Blob.reader`).
-/

namespace BootLoader.DeviceTree

/-- A node of a device tree. -/
structure Node where
  /-- its name -/
  name : String
  /-- the tokens after its name: its properties, its children, its end, and what follows it -/
  body : List Token
  deriving DecidableEq, Repr

/-! ## Properties -/

/-- The value of a property as a text, without zeros at its end. -/
def textValue? (value : List UInt8) : Option String :=
  (text? value).map fun text =>
    String.ofList (text.toList.reverse.dropWhile (· == '\x00')).reverse

/-- The texts in a value: the runs between zeros, where a zero at the end adds none, up to the first
run that is no text. -/
def textsOf (value : List UInt8) : List String :=
  if _ : 0 < value.length then
    match text? (value.takeWhile (· != 0)) with
    | none => []
    | some text => text :: textsOf ((value.dropWhile (· != 0)).drop 1)
  else []
  termination_by value.length
  decreasing_by
    have := (List.dropWhile_suffix (· != 0) (l := value)).length_le
    simp only [List.length_drop]
    omega

namespace Node

/-- The properties of the node up to the first token that is none. -/
def properties (node : Node) : List (String × List UInt8) :=
  go node.body
where
  /-- The properties at the start of a run of tokens. -/
  go : List Token → List (String × List UInt8)
    | .property name value :: rest => (name, value) :: go rest
    | _ => []

/-- The value of the first property with a name. -/
def property? (node : Node) (name : String) : Option (List UInt8) :=
  (node.properties.find? (·.1 == name)).map (·.2)

/-- The texts of the last property named `compatible`. -/
def compatibles (node : Node) : List String :=
  match node.properties.reverse.find? (·.1 == "compatible") with
  | none => []
  | some (_, value) => textsOf value

end Node

/-! ## Walking through tokens -/

/-- The tokens after the properties at the start of a run of tokens. -/
def afterProperties : List Token → Except Fault (List Token)
  | .property _ _ :: rest => afterProperties rest
  | .brokenProperty :: _ => .error .malformedTree
  | rest => .ok rest

/-- What comes after properties is not longer than what starts with them. -/
theorem length_afterProperties {ts rest : List Token} (h : afterProperties ts = .ok rest) :
    rest.length ≤ ts.length := by
  fun_induction afterProperties ts with
  | case1 _ _ _ ih => have := ih h; simp only [List.length_cons]; omega
  | case2 => cases h
  | case3 => cases h; simp

/-- The tokens after the end of a node, from a place in it with `depth` of its descendants open.
Properties stand before children, so they are possible only while `isStart`. -/
def afterNode : (depth : Nat) → (isStart : Bool) → List Token → Except Fault (List Token)
  | depth, true, .property _ _ :: rest => afterNode depth true rest
  | depth, _, .beginNode name :: rest =>
    if (text? name).isSome then afterNode (depth + 1) true rest else .error .malformedTree
  | 0, _, .endNode :: rest => .ok rest
  | depth + 1, _, .endNode :: rest => afterNode depth false rest
  | _, _, _ => .error .malformedTree

/-- What comes after a node is shorter than what comes after its start. -/
theorem length_afterNode {depth : Nat} {isStart : Bool} {ts rest : List Token}
    (h : afterNode depth isStart ts = .ok rest) : rest.length < ts.length := by
  fun_induction afterNode depth isStart ts with
  | case1 _ _ _ _ ih => have := ih h; simp only [List.length_cons]; omega
  | case2 _ _ _ _ _ ih => have := ih h; simp only [List.length_cons]; omega
  | case3 => cases h
  | case4 => cases h; simp
  | case5 _ _ _ ih => have := ih h; simp only [List.length_cons]; omega
  | case6 => cases h

/-- The number of words of an address when a node does not say. -/
def Node.defaultAddressCells : Nat := 2

/-- The number of words of an address after one more property, when it was `cells` before. -/
def Node.countCells (cells : Nat) : String × List UInt8 → Except Fault Nat
  | (name, value) =>
    if (name == "#address-cells" || name == "#size-cells") && value.length < 4 then
      .error .malformedTree
    else if name == "#address-cells" then .ok (bigEndian (value.take 4))
    else .ok cells

/-- The number of words of the addresses of a node's children: the last property `#address-cells`
says. All properties are read for it, so it is a fault when one is cut off. -/
def Node.addressCells (node : Node) : Except Fault Nat := do
  let _ ← afterProperties node.body
  node.properties.foldlM countCells defaultAddressCells

/-- The nodes that start one after the other in a run of tokens. -/
def siblings : List Token → Stream Node
  | .beginNode name :: rest =>
    match text? name with
    | none => ⟨[], none⟩
    | some name =>
      match _ : afterNode 0 true rest with
      | .error fault => .faulty fault
      | .ok following => .cons ⟨name, rest⟩ (siblings following)
  | .brokenNode :: _ => .faulty .malformedTree
  | _ => ⟨[], none⟩
  termination_by ts => ts.length
  decreasing_by
    have := length_afterNode (by assumption)
    simp only [List.length_cons]
    omega

/-- The children of a node. -/
def Node.children (node : Node) : Stream Node :=
  match afterProperties node.body with
  | .error fault => .faulty fault
  | .ok [] => .faulty .malformedTree
  | .ok rest => siblings rest

/-- The first of the nodes that start one after the other in a run of tokens whose name without unit
address is `name`. A name that is no text ends the search. -/
def findSibling (name : String) : List Token → Except Fault (Option Node)
  | .beginNode bytes :: rest =>
    match text? bytes with
    | none => .ok none
    | some found =>
      if baseName found == name then .ok (some ⟨found, rest⟩)
      else
        match _ : afterNode 0 true rest with
        | .error fault => .error fault
        | .ok following => findSibling name following
  | .brokenNode :: _ => .error .malformedTree
  | _ => .ok none
  termination_by ts => ts.length
  decreasing_by
    have := length_afterNode (by assumption)
    simp only [List.length_cons]
    omega

/-- The child of the root whose name without unit address is `name`, in the tokens of a whole tree.
The name of the root is empty. -/
def findUnderRoot (name : String) : List Token → Except Fault (Option Node)
  | .beginNode bytes :: rest =>
    match text? bytes with
    | none => .ok none
    | some root =>
      if baseName root == "" then do
        findSibling name (← afterProperties rest)
      else do
        let _ ← afterNode 0 true rest
        return none
  | .brokenNode :: _ => .error .malformedTree
  | _ => .ok none

/-- The deepest nesting of nodes, the root included, that a walk through a whole tree can follow. -/
def maxDepth : Nat := 63

/-- Every node in a run of tokens in document order, from a place with `depth` nodes open. A node
with nothing at all after its properties is left out. -/
def nodesFrom : (depth : Nat) → List Token → Stream Node
  | depth, .beginNode bytes :: rest =>
    match text? bytes with
    | none => .faulty .malformedTree
    | some name =>
      if maxDepth ≤ depth then .faulty .indexOutOfRange
      else
        match _ : afterProperties rest with
        | .error fault => .faulty fault
        | .ok following =>
          if following.isEmpty then ⟨[], none⟩
          else .cons ⟨name, rest⟩ (nodesFrom (depth + 1) following)
  | 0, .endNode :: _ => .faulty .overflow
  | depth + 1, .endNode :: rest => nodesFrom depth rest
  | _, .brokenNode :: _ => .faulty .malformedTree
  | _, _ => ⟨[], none⟩
  termination_by _ ts => ts.length
  decreasing_by
  · have := length_afterProperties (by assumption)
    simp only [List.length_cons]
    omega
  · simp

/-! ## Blobs -/

namespace Blob

/-- The child of the root of a blob whose name without unit address is `name`. -/
def underRoot? (b : Blob) (name : String) : Except Fault (Option Node) := do
  findUnderRoot name (← b.tokens)

/-- Every node of a blob in document order. -/
def nodes (b : Blob) : Stream Node :=
  match b.tokens with
  | .error fault => .faulty fault
  | .ok tokens => nodesFrom 0 tokens

/-- How blobs are read. -/
def reader : Reader Blob Node where
  totalSize := totalSize
  underRoot? := underRoot?
  nodes := nodes
  name := Node.name
  property? := Node.property?
  textValue? := textValue?
  compatibles := Node.compatibles
  addressCells := Node.addressCells
  children := Node.children

end Blob

end BootLoader.DeviceTree
