import Patricia.Format.Encoding
import Patricia.Trie.Access

/-!
# Tries in memory

A `MemoryTrie` is a map from byte strings to values, all of whose nodes are in memory. Its root
hash commits to the whole map.
-/

namespace Patricia

/-- A trie with all its nodes in memory: its root and the source of its stamps. -/
structure MemoryTrie where
  mint : Mint
  root : Node

namespace MemoryTrie

variable {α : Type} [TrieValue α]

/-- The trie without entries that belongs to an owner. -/
def empty (owner : Nat) : MemoryTrie :=
  ⟨.ofOwner owner, .null⟩

/-- Whether the trie has no entry. -/
def isEmpty (trie : MemoryTrie) : Bool :=
  trie.root.isNull

/-- The hash of the root. -/
def rootHash (trie : MemoryTrie) : Hash :=
  trie.root.hash

/-- The value of a key. -/
def find? (trie : MemoryTrie) (key : Bytes) : Except Failure (Option α) :=
  (Walk.runAlone trie.mint (trie.root.read key)).1

/-- The trie with the root that a walk ends with. -/
def update (trie : MemoryTrie) (walk : Walk Node) : Except Failure MemoryTrie :=
  match Walk.runAlone trie.mint walk with
  | (.ok root, mint) => .ok ⟨mint, root⟩
  | (.error failure, _) => .error failure

/-- The trie with this value for the key, or without one if the value's encoding is empty. -/
def insert (trie : MemoryTrie) (key : Bytes) (value : α) : Except Failure MemoryTrie :=
  trie.update (trie.root.write key value)

/-- The trie without a value for the key. -/
def erase (trie : MemoryTrie) (key : Bytes) : Except Failure MemoryTrie :=
  trie.update (trie.root.remove key)

end MemoryTrie

end Patricia
