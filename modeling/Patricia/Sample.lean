import Patricia.Settings.Basic
import Patricia.Store.Memory
import Patricia.Trie.Commit
import Patricia.Trie.InMemory

/-!
# Sample tries

Entries under hashed keys, spread evenly like the keys of a large map, and the tries that hold
them: one in memory and one committed to a store.
-/

namespace Patricia.Sample

/-- The eight bytes of a number, the most significant first. -/
def seed (n : Nat) : Bytes :=
  (List.range 8).map fun index ↦ UInt8.ofNat (n >>> (56 - 8 * index))

/-- The entry of a number: the hash of its bytes, and the hash of that hash. -/
def entry (n : Nat) : Bytes × Bytes :=
  let key := keccak256 (seed n)
  (key.bytes, (keccak256 key.bytes).bytes)

/-- The first entries. -/
def entries (count : Nat) : List (Bytes × Bytes) :=
  (List.range count).map entry

/-- The trie in memory that holds some entries. -/
def memoryTrie (entries : List (Bytes × Bytes)) : Except Failure MemoryTrie :=
  entries.foldlM (fun trie (key, value) ↦ trie.insert key value) (.empty 0)

/-- The store to which a trie of some entries was committed, and the hash of its root. -/
def committed (entries : List (Bytes × Bytes)) : Except Failure (MemoryStore × Hash) := do
  let trie := BackedTrie.empty (.standard 0)
  let (trie, store) ← entries.foldlM
    (fun (trie, store) (key, value) ↦ do
      let (outcome, trie, store) := trie.insert store key value
      outcome
      return (trie, store))
    (trie, MemoryStore.empty)
  let (outcome, _, store) := trie.commit store
  return (store, ← outcome)

/-- Number of entries that a trie holds with their values, after looking up all keys in order. -/
def countFound (trie : BackedTrie) (store : MemoryStore) :
    List (Bytes × Bytes) → Except Failure (Nat × BackedTrie)
  | [] => .ok (0, trie)
  | (key, value) :: entries => do
      let (outcome, trie, store) := trie.find? store key
      let found : Option Bytes ← outcome
      let (count, trie) ← countFound trie store entries
      return (if found = some value then count + 1 else count, trie)

end Patricia.Sample
