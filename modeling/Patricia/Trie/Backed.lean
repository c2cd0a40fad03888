import Patricia.Loader.Load
import Patricia.Trie.Access

/-!
# Tries over a store

A `BackedTrie` is a map from byte strings to values whose nodes may be in a store. It begins at a
root hash and loads the nodes on the way to a key when they are needed. An operation returns what
became of the trie and of the store; when it fails, the root is still the one it had.
-/

namespace Patricia

/-- A trie over a store: its root and the loader of its nodes. -/
structure BackedTrie where
  loader : Loader
  root : Node

namespace BackedTrie

variable {σ : Type} [NodeStore σ] {α : Type}

/-- The trie with a root hash over a loader. Nothing is read yet. -/
def openAt (loader : Loader) (rootHash : Hash) : BackedTrie :=
  if rootHash = emptyRoot then ⟨loader, .null⟩
  else
    let (root, loader) := loader.refer rootHash
    ⟨loader, root⟩

/-- The trie without entries over a loader. -/
def empty (loader : Loader) : BackedTrie :=
  ⟨loader, .null⟩

/-- Whether the trie has no entry. -/
def isEmpty (trie : BackedTrie) : Bool :=
  trie.root.isNull

/-- The hash of the root. -/
def rootHash (trie : BackedTrie) : Hash :=
  trie.root.hash

/-- The outcome of a walk over the trie's nodes. -/
def perform (trie : BackedTrie) (store : σ) (walk : Walk α) :
    Except Failure α × BackedTrie × σ :=
  let (outcome, loader, store) := Walk.run trie.loader store walk
  (outcome, { trie with loader }, store)

/-- The trie with the root that a walk ends with, or with the root it had if the walk fails. -/
def update (trie : BackedTrie) (store : σ) (walk : Walk Node) :
    Except Failure Unit × BackedTrie × σ :=
  match trie.perform store walk with
  | (.ok root, trie, store) => (.ok (), { trie with root }, store)
  | (.error failure, trie, store) => (.error failure, trie, store)

/-- The value of a key. -/
def find? [TrieValue α] (trie : BackedTrie) (store : σ) (key : Bytes) :
    Except Failure (Option α) × BackedTrie × σ :=
  trie.perform store (trie.root.read key)

/-- Give the key this value, or none if the value's encoding is empty. -/
def insert [TrieValue α] (trie : BackedTrie) (store : σ) (key : Bytes) (value : α) :
    Except Failure Unit × BackedTrie × σ :=
  trie.update store (trie.root.write key value)

/-- Take its value from the key. -/
def erase (trie : BackedTrie) (store : σ) (key : Bytes) :
    Except Failure Unit × BackedTrie × σ :=
  trie.update store (trie.root.remove key)

/-- A new reference to the node with a hash. -/
def refer (trie : BackedTrie) (hash : Hash) : Node × BackedTrie :=
  let (node, loader) := trie.loader.refer hash
  (node, { trie with loader })

/-- A blank tree as the trie's own instances. -/
def adopt (trie : BackedTrie) (node : Node) : Node × BackedTrie :=
  let (stamp, loader) := trie.loader.issue
  (node.issue stamp.owner stamp.serial, { trie with loader })

/-- Whether the node behind a reference is cached, if the node is a reference. -/
def isLoaded (trie : BackedTrie) (node : Node) : Option Bool :=
  match node with
  | .stored stamp hash => some (stamp.owner == trie.loader.owner && trie.loader.isCached hash)
  | _ => none

/-- Drop the cached node behind a reference. The next walk reads it again. -/
def unload (trie : BackedTrie) (node : Node) : BackedTrie :=
  match node with
  | .stored stamp hash =>
      if stamp.owner = trie.loader.owner then { trie with loader := trie.loader.evict hash }
      else trie
  | _ => trie

/-- Drop the cached root. -/
def unloadRoot (trie : BackedTrie) : BackedTrie :=
  trie.unload trie.root

end BackedTrie

end Patricia
