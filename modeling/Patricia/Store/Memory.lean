import Patricia.Store.Basic

/-!
# Stores in memory

A `MemoryStore` is a list of entries with distinct hashes. It never fails, and writing an entry
again leaves the number of entries as it was.
-/

namespace Patricia

/-- Entries in the order in which their hashes were first written. -/
structure MemoryStore where
  entries : List Entry

namespace MemoryStore

/-- The store without entries. -/
def empty : MemoryStore := ⟨[]⟩

/-- The bytes under a hash. -/
def get? (store : MemoryStore) (hash : Hash) : Option Bytes :=
  store.entries.lookup hash

/-- Whether there is an entry under a hash. -/
def contains (store : MemoryStore) (hash : Hash) : Bool :=
  (store.get? hash).isSome

/-- Number of entries. -/
def size (store : MemoryStore) : Nat :=
  store.entries.length

/-- No entry is kept. -/
def isEmpty (store : MemoryStore) : Bool :=
  store.entries.isEmpty

/-- The store with an entry, in place of one under the same hash. -/
def insert (store : MemoryStore) (entry : Entry) : MemoryStore :=
  if store.contains entry.1 then
    ⟨store.entries.map fun old ↦ if old.1 = entry.1 then entry else old⟩
  else ⟨store.entries ++ [entry]⟩

/-- The store with several entries, later ones in place of earlier ones. -/
def insertAll (store : MemoryStore) (entries : List Entry) : MemoryStore :=
  entries.foldl insert store

/-- The store of some entries, later ones in place of earlier ones. -/
def ofEntries (entries : List Entry) : MemoryStore :=
  empty.insertAll entries

/-- A store in memory answers reads from its entries and accepts every entry. -/
instance : NodeStore MemoryStore where
  request store _ := store
  answer store hash := .ok (store.get? hash)
  put store entry := (.ok (), store.insert entry)
  putAll store entries := (.ok (), store.insertAll entries)

end MemoryStore

end Patricia
