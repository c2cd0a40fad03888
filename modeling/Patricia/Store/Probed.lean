import Patricia.Store.Memory

/-!
# Stores under observation

A `ProbedStore` is a store in memory that logs every read and every entry accepted, and that can
be made to fail: reads fail or find nothing under chosen hashes, and writes stop after a number of
entries. Several entries are accepted together or not at all, or one after the other, as the store
was set up.
-/

namespace Patricia

/-- A store in memory with logs of its reads and writes, the latest last. `hidden` are the hashes
under which reads find nothing, `readsFail` says that reads fail, `writesLeft` is the number of
entries that are still accepted, if that is limited, and `batches` says that several entries are
written together or not at all. -/
structure ProbedStore where
  nodes : MemoryStore
  batches : Bool
  hidden : List Hash
  readsFail : Bool
  writesLeft : Option Nat
  reads : List Hash
  writes : List Entry

namespace ProbedStore

/-- A store without entries that does not fail. -/
def empty (batches : Bool) : ProbedStore where
  nodes := .empty
  batches := batches
  hidden := []
  readsFail := false
  writesLeft := none
  reads := []
  writes := []

/-- What a store says when it fails. -/
def unavailable : TrieError := .store (.refused "disk unavailable")

/-- Whether that many more entries are accepted. -/
def accepts (store : ProbedStore) (count : Nat) : Bool :=
  store.writesLeft.all (count ≤ ·)

/-- The store after accepting some entries. -/
def accept (store : ProbedStore) (entries : List Entry) : ProbedStore :=
  { store with
    nodes := store.nodes.insertAll entries
    writesLeft := store.writesLeft.map (· - entries.length)
    writes := store.writes ++ entries }

/-- Writing some entries together or not at all. -/
def putTogether (store : ProbedStore) (entries : List Entry) :
    Except TrieError Unit × ProbedStore :=
  if store.accepts entries.length then (.ok (), store.accept entries)
  else (.error unavailable, store)

/-- Writing some entries up to the first that is not accepted. -/
def putEach (store : ProbedStore) : List Entry → Except TrieError Unit × ProbedStore
  | [] => (.ok (), store)
  | entry :: entries =>
      match store.putTogether [entry] with
      | (.ok (), store) => store.putEach entries
      | (.error error, store) => (.error error, store)

/-- A read is logged when it is issued. It fails if reads fail, and else finds nothing under a
hidden hash. -/
instance : NodeStore ProbedStore where
  request store hash := { store with reads := store.reads ++ [hash] }
  answer store hash :=
    if store.readsFail then .error unavailable
    else if hash ∈ store.hidden then .ok none
    else .ok (store.nodes.get? hash)
  put store entry := store.putTogether [entry]
  putAll store entries :=
    if store.batches then store.putTogether entries else store.putEach entries

/-- The store with both controls of failing set. -/
def setFailing (store : ProbedStore) (readsFail : Bool) (writesLeft : Option Nat) : ProbedStore :=
  { store with readsFail, writesLeft }

/-- Hide a hash from reads, and whether it was not hidden before. -/
def hide (store : ProbedStore) (hash : Hash) : Bool × ProbedStore :=
  if hash ∈ store.hidden then (false, store)
  else (true, { store with hidden := hash :: store.hidden })

/-- Show a hidden hash again, and whether it was hidden before. -/
def unhide (store : ProbedStore) (hash : Hash) : Bool × ProbedStore :=
  if hash ∈ store.hidden then
    (true, { store with hidden := store.hidden.filter (· ≠ hash) })
  else (false, store)

end ProbedStore

end Patricia
