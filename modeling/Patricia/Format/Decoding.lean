import Patricia.Format.Encoding

/-!
# Reading nodes

`Node.decode` reads the written form of a node. A list of two items is a leaf or an extension,
told apart by the flag in its path; a list of seventeen items is a branch. A child is the empty
string for no node, a string of 32 bytes for a reference, or a list for a node written in place.
The form of the whole must be canonical: headers are the shortest, nothing follows the list, an
extension covers at least one nibble and has a child, a branch has at least two entries.

The nodes read are blank: they are not yet instances of anyone's.
-/

namespace Patricia

namespace Node

/-- A leaf or an extension from its two items, given how a child is read. -/
def ofPair (child : Rlp.Item → Except DecodeError Node) (path content : Rlp.Item) :
    Except DecodeError Resolved := do
  let path ← Path.ofHexPrefix (← path.string)
  if path.terminated then
    return ⟨.leaf .blank path.nibbles (← content.string), rfl⟩
  else
    match path.nibbles with
    | [] => .error .emptyExtensionPath
    | first :: rest =>
        let node ← child content
        if node.isNull then .error .emptyExtensionChild
        else return ⟨.extension .blank first rest node, rfl⟩

/-- A branch from the items of its slots and of its value, given how a child is read. -/
def ofRow (child : Rlp.Item → Except DecodeError Node) (slots : List Rlp.Item)
    (value : Rlp.Item) : Except DecodeError Resolved := do
  let slots := Slots.ofList (← slots.mapM child)
  let value ← value.string
  let value := if value.isEmpty then none else some value
  if slots.count + value.toList.length < 2 then .error .tooFewEntries
  else return ⟨.ofSlots .blank slots value, rfl⟩

/-- A node from the items of its list, given how a child is read. -/
def ofItems (child : Rlp.Item → Except DecodeError Node) (items : List Rlp.Item) :
    Except DecodeError Resolved :=
  match items with
  | [path, content] => ofPair child path content
  | _ =>
      match items.drop 16 with
      | [value] => ofRow child (items.take 16) value
      | _ => .error .listLength

/-- A child from its item. The first argument bounds how deep lists may nest; a payload nests at
most as deep as it is long. -/
def ofItem : Nat → Rlp.Item → Except DecodeError Node
  | 0, _ => .error .inputTooShort
  | depth + 1, item =>
      if item.isList then do
        return (← ofItems (ofItem depth) (← Rlp.Item.readAll item.payload)).val
      else if item.payload.isEmpty then .ok .null
      else
        match Hash.ofBytes? item.payload with
        | some hash => .ok (.stored .blank hash)
        | none => .error .stringLength

/-- The node that a byte string writes. -/
def decode (bytes : Bytes) : Except DecodeError Resolved := do
  let (item, rest) ← Rlp.Item.read bytes
  if ¬ item.isList then .error .notAList
  else
    let node ← ofItems (ofItem bytes.length) (← Rlp.Item.readAll item.payload)
    if rest.isEmpty then return node.readFrom bytes else .error .unexpectedLength

end Node

end Patricia
