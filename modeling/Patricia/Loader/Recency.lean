import Patricia.Node.Basic

/-!
# A cache by recency

A `Recency` holds at most as many nodes as its capacity, the most recently used first. Reading a
node with `touch` or putting one in makes it the most recent; a full cache drops the least recent
one. The statements say that the bound is kept and that a node is found right after it was put in.

No cache can be set up for more nodes than `largest`. That is a rule for those who set one up from
settings, and the rest of the theory does without it.
-/

namespace Patricia

/-- Nodes under their hashes, the most recently used first, at most `capacity` of them. -/
structure Recency where
  capacity : Nat
  capacity_pos : 0 < capacity
  entries : List (Hash × Resolved)
  bounded : entries.length ≤ capacity

namespace Recency

/-- The largest capacity that a cache can be set up for. The whole of it takes room at the start, in
a table whose number of places is a power of two. A place takes seventeen bytes and the bytes of a
table are fewer than two to the power of 63, so there are at most two to the power of 58 places, of
which seven eighths can be filled. -/
def largest : Nat := 7 <<< 55

/-- The cache of some capacity without nodes. -/
def empty (capacity : Nat) (capacity_pos : 0 < capacity) : Recency where
  capacity := capacity
  capacity_pos := capacity_pos
  entries := []
  bounded := Nat.zero_le _

/-- The node under a hash. Looking does not count as use. -/
def peek? (cache : Recency) (hash : Hash) : Option Resolved :=
  cache.entries.lookup hash

/-- Whether there is a node under a hash. -/
def contains (cache : Recency) (hash : Hash) : Bool :=
  (cache.peek? hash).isSome

/-- Number of nodes. -/
def size (cache : Recency) : Nat :=
  cache.entries.length

/-- The entries under other hashes. -/
def others (cache : Recency) (hash : Hash) : List (Hash × Resolved) :=
  cache.entries.filter (·.1 ≠ hash)

/-- The cache with a node as its most recent one. A node under the same hash makes way for it, and
the least recent one does in a full cache. -/
def put (cache : Recency) (hash : Hash) (node : Resolved) : Recency where
  capacity := cache.capacity
  capacity_pos := cache.capacity_pos
  entries := ((hash, node) :: cache.others hash).take cache.capacity
  bounded := List.length_take_le _ _

/-- The cache without the node under a hash. -/
def evict (cache : Recency) (hash : Hash) : Recency where
  capacity := cache.capacity
  capacity_pos := cache.capacity_pos
  entries := cache.others hash
  bounded := Nat.le_trans (List.length_filter_le _ _) cache.bounded

/-- The node under a hash, made the most recent one. -/
def touch (cache : Recency) (hash : Hash) : Option (Resolved × Recency) :=
  (cache.peek? hash).map fun node ↦ (node, cache.put hash node)

/-- A node that was put in is there. -/
@[simp] theorem peek?_put_self (cache : Recency) (hash : Hash) (node : Resolved) :
    (cache.put hash node).peek? hash = some node := by
  obtain ⟨capacity, capacity_pos, entries, bounded⟩ := cache
  cases capacity with
  | zero => exact absurd capacity_pos (Nat.lt_irrefl 0)
  | succ capacity => simp [peek?, put]

/-- A node that was evicted is not there. -/
@[simp] theorem peek?_evict_self (cache : Recency) (hash : Hash) :
    (cache.evict hash).peek? hash = none := by
  simp only [peek?, evict, others, List.lookup_eq_none_iff, List.mem_filter, decide_eq_true_eq]
  intro entry hentry
  simpa using Ne.symm hentry.2

end Recency

end Patricia
