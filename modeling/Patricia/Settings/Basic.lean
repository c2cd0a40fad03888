/-!
# Settings of a trie over a store

The one setting is how many nodes the loader's cache may hold, a positive number of 64 bits.
-/

namespace Patricia

/-- The numbers of 64 bits are those below this one. -/
def wordLimit : Nat := 18446744073709551616

/-- How many nodes a loader may keep in its cache. -/
structure Settings where
  cacheCapacity : Nat
  positive : 0 < cacheCapacity
  bounded : cacheCapacity < wordLimit
deriving DecidableEq

namespace Settings

/-- A cache for one node is within the limit. -/
theorem one_lt_wordLimit : 1 < wordLimit := by
  decide

/-- The settings with this capacity, if it is a positive number of 64 bits. -/
def ofCapacity? (capacity : Nat) : Option Settings :=
  if h : 0 < capacity ∧ capacity < wordLimit then some ⟨capacity, h.1, h.2⟩ else none

/-- The settings that hold where none are given. -/
def standard : Settings :=
  ⟨4096, by decide, by decide⟩

/-- Room for one node. -/
def narrow : Settings :=
  ⟨1, Nat.one_pos, one_lt_wordLimit⟩

end Settings

end Patricia
