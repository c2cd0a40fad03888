import Patricia.Update.Erase
import Patricia.Update.Insert
import Patricia.Value

/-!
# Values under keys

Reading, writing and removing the value of a key in the trie under a node. A value whose encoding
is empty is never held: writing it removes the key.
-/

namespace Patricia.Node

variable {α : Type} [TrieValue α]

/-- The value of a key. -/
def read (node : Node) (key : Bytes) : Walk (Option α) := do
  match ← node.find? key.nibbles with
  | none => return none
  | some bytes => return some (← Walk.ofExcept (TrieValue.decode bytes))

/-- The trie without a value for the key. -/
def remove (node : Node) (key : Bytes) : Walk Node :=
  node.erase key.nibbles

/-- The trie with this value for the key. -/
def write (node : Node) (key : Bytes) (value : α) : Walk Node :=
  let bytes := TrieValue.encode value
  if bytes.isEmpty then node.remove key else node.insert key.nibbles bytes

end Patricia.Node
