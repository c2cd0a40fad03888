import Patricia.Format.Decoding
import Patricia.Loader.Recency
import Patricia.Settings.Basic
import Patricia.Store.Basic
import Patricia.Walk

/-!
# Loaders of stored nodes

A loader turns hashes into nodes. It looks into its cache first. On a miss it joins the read that
is under way for the hash, or else installs a flight, whose first waiter issues the read. When the
answer comes the node goes into the cache and the flight is over, whether it succeeded or not.

The steps of a load are separate functions, because loads can take turns: `lookUp`, then `board`,
then `launch` unless the read was issued before, then `land`.
-/

namespace Patricia

/-- A read that loads of one hash wait for. It has a number of its own, and was either issued or
is only planned. -/
structure Flight where
  number : Nat
  issued : Bool

/-- A loader with its cache and the flights of hashes under way. It counts the flights it
installed, the reads it issued, the loads its cache answered and the loads that joined a flight. The
last three counts are of any size here; the program keeps them in words of 64 bits that wrap around,
so it shows them modulo `wordLimit`. The loader is the owner of all nodes that it loads. -/
structure Loader where
  mint : Mint
  cache : Recency
  flights : List (Hash × Flight)
  installed : Nat
  fetches : Nat
  hits : Nat
  joined : Nat

namespace Loader

/-- The loader of an owner with an empty cache of some capacity. -/
def new (owner capacity : Nat) (capacity_pos : 0 < capacity) : Loader where
  mint := .ofOwner owner
  cache := .empty capacity capacity_pos
  flights := []
  installed := 0
  fetches := 0
  hits := 0
  joined := 0

/-- The loader of an owner with an empty cache as the settings have it. No cache can be set up for
too large a capacity. -/
def ofSettings (owner : Nat) (settings : Settings) : Except Breach Loader :=
  if settings.cacheCapacity ≤ Recency.largest then
    .ok (.new owner settings.cacheCapacity settings.positive)
  else .error .cacheTooLarge

/-- A loader that settings give is a new one with their capacity, and there is one exactly if a
cache can be set up for it. So what holds of new loaders of all capacities holds of the loaders that
settings give. -/
theorem ofSettings_eq_ok_iff {owner : Nat} {settings : Settings} {loader : Loader} :
    ofSettings owner settings = .ok loader ↔ settings.cacheCapacity ≤ Recency.largest ∧
      loader = .new owner settings.cacheCapacity settings.positive := by
  rw [ofSettings]
  split
  · rename_i hfits
    rw [Except.ok.injEq, eq_comm, and_iff_right hfits]
  · rename_i hlarge
    exact ⟨nofun, fun h ↦ absurd h.1 hlarge⟩

/-- The loader of an owner where no settings are given. -/
def standard (owner : Nat) : Loader :=
  .new owner Settings.standard.cacheCapacity Settings.standard.positive

/-- A cache can be set up for the standard capacity. -/
@[simp] theorem ofSettings_standard (owner : Nat) :
    ofSettings owner .standard = .ok (standard owner) :=
  ofSettings_eq_ok_iff.mpr ⟨by decide, rfl⟩

/-- The number by which references name their loader. -/
def owner (loader : Loader) : Nat :=
  loader.mint.owner

/-- A stamp for a new node. -/
def issue (loader : Loader) : Stamp × Loader :=
  let (stamp, mint) := loader.mint.issue
  (stamp, { loader with mint })

/-- A new reference to the node with a hash. -/
def refer (loader : Loader) (hash : Hash) : Node × Loader :=
  let (stamp, loader) := loader.issue
  (.stored stamp hash, loader)

/-- The cached node under a hash, counted as a hit and as a use. -/
def lookUp (loader : Loader) (hash : Hash) : Option (Resolved × Loader) :=
  (loader.cache.touch hash).map fun (node, cache) ↦
    (node, { loader with cache, hits := loader.hits + 1 })

/-- The flight under way for a hash. -/
def flight? (loader : Loader) (hash : Hash) : Option Flight :=
  loader.flights.lookup hash

/-- What a load that missed the cache goes on with: a node that came into the cache in the
meantime, or a flight to wait for. -/
inductive Ticket where
  | found (node : Resolved)
  | wait (flight : Flight)

/-- Join the flight for a hash, or look into the cache again, or install a flight. -/
def board (loader : Loader) (hash : Hash) : Ticket × Loader :=
  match loader.flight? hash with
  | some flight => (.wait flight, { loader with joined := loader.joined + 1 })
  | none =>
      match loader.lookUp hash with
      | some (node, loader) => (.found node, loader)
      | none =>
          let flight : Flight := ⟨loader.installed, false⟩
          (.wait flight, { loader with
            flights := (hash, flight) :: loader.flights
            installed := loader.installed + 1 })

/-- Issue the read of the flight for a hash. -/
def launch (loader : Loader) (hash : Hash) : Loader :=
  { loader with
    flights := loader.flights.map fun (key, flight) ↦
      (key, if key = hash then { flight with issued := true } else flight)
    fetches := loader.fetches + 1 }

/-- The node in an answer of the store. Bytes that have another hash than the one asked for are
refused before they are read. -/
def judge (hash : Hash) : Except TrieError (Option Bytes) → Except TrieError Resolved
  | .error error => .error error
  | .ok none => .error (.notFound hash)
  | .ok (some bytes) =>
      if keccak256 bytes = hash then
        match Node.decode bytes with
        | .ok node => .ok node
        | .error cause => .error (.decode cause)
      else .error (.store (.wrongHash hash))

/-- The outcome of a flight from an answer of the store. A node becomes the loader's own. -/
def receive (loader : Loader) (hash : Hash) (answer : Except TrieError (Option Bytes)) :
    Except TrieError Resolved × Loader :=
  match judge hash answer with
  | .error error => (.error error, loader)
  | .ok node =>
      let (stamp, loader) := loader.issue
      (.ok (node.issue stamp.owner stamp.serial), loader)

/-- Put a node into the cache. -/
def retain (loader : Loader) (hash : Hash) (node : Resolved) : Loader :=
  { loader with cache := loader.cache.put hash node }

/-- Put the node of a flight that succeeded into the cache. -/
def keep (loader : Loader) (hash : Hash) : Except TrieError Resolved → Loader
  | .ok node => loader.retain hash node
  | .error _ => loader

/-- Give up the flight for a hash. -/
def release (loader : Loader) (hash : Hash) : Loader :=
  { loader with flights := loader.flights.filter (·.1 ≠ hash) }

/-- End the flight for a hash with an answer of the store. -/
def land (loader : Loader) (hash : Hash) (answer : Except TrieError (Option Bytes)) :
    Except TrieError Resolved × Loader :=
  let (outcome, loader) := loader.receive hash answer
  (outcome, (loader.keep hash outcome).release hash)

/-- Put a node that is at hand into the cache. It must not be a reference. -/
def preload (loader : Loader) (hash : Hash) (node : Node) : Except Breach Loader :=
  if h : node.isStored = false then .ok (loader.retain hash ⟨node, h⟩)
  else .error .unresolvedPriming

/-- Drop the cached node under a hash. -/
def evict (loader : Loader) (hash : Hash) : Loader :=
  { loader with cache := loader.cache.evict hash }

/-- Whether there is a cached node under a hash. -/
def isCached (loader : Loader) (hash : Hash) : Bool :=
  loader.cache.contains hash

end Loader

end Patricia
