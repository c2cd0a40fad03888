import Patricia.Proofs.Format.Exact
import Patricia.Proofs.Trie.Lazy
import Patricia.Proofs.Trie.Safe

/-!
# Every request ends after few loads

A trie is opened on any hash over a store of which nothing is known. What the store answers becomes
a node only if it was read as one, so each step down takes a nibble off the key, and no reference
leads to another one. So a lookup or an update ends after a number of loads that depends on the
length of the key alone (`Session.after_bounded`), also where what is found leads back to where the
walk came from.
-/

namespace Patricia

variable {σ : Type} [NodeStore σ] {α : Type} [TrieValue α]

namespace BackedTrie

/-- The way of a key has two references for each of its bytes at most, and one more. -/
theorem Ready.length_get_le {trie : BackedTrie} (h : trie.Ready) (store : σ) (key : Bytes) :
    (trie.loads store (.get key : Request α)).length ≤ 2 * key.length + 1 := by
  refine Nat.le_trans (h.get_way (α := α) store key).length_le ?_
  rw [length_nibbles]
  exact Nat.add_le_add_left (by split <;> decide) _

/-- A walk over the trie's nodes ends as it does if it may make so many loads and no more. -/
def EndsWithin {β : Type} (trie : BackedTrie) (store : σ) (limit : Nat) (walk : Walk β) : Prop :=
  walk.runWithin limit trie.loader store = some (walk.run trie.loader store)

end BackedTrie

namespace Session

/-- After any requests the trie is ready. -/
theorem after_ready {session : Session σ α} (h : session.trie.Ready)
    (requests : List (Request α)) : (session.after requests).trie.Ready := by
  induction requests using List.reverseRecOn with
  | nil => exact h
  | append_singleton requests request ih =>
      rw [after_concat]
      exact ih.attempt (session.after requests).store request

/-- A trie is opened on any hash over any store, whatever its answers are and will be, with a cache
of any capacity, and receives any requests. After that, a lookup of a key and putting a value that
has an encoding load the references on the way of the key, of which there are two for each byte of
the key at most, and one more. Removing the key, as putting a value without an encoding does, loads
these and then, twice at most, a node that is left alone in a branch. Each of these walks ends as it
does if it is allowed no more loads than that. -/
theorem after_bounded (origin : Hash) (store : σ) (owner capacity : Nat) (hpos : 0 < capacity)
    (requests : List (Request α)) (key : Bytes) :
    let session := (openedAt origin store owner capacity hpos).after requests
    let trie := session.trie
    let way := trie.loads session.store (.get key : Request α)
    (trie.root.Way key.nibbles way ∧ way.length ≤ 2 * key.length + 1 ∧
      trie.EndsWithin session.store (2 * key.length + 1)
        (trie.root.read key : Walk (Option α))) ∧
    (∀ value : α, TrieValue.encode value ≠ [] →
      trie.loads session.store (.change (.put key value)) = way ∧
        trie.EndsWithin session.store (2 * key.length + 1) (trie.root.write key value)) ∧
    ∃ beside, trie.loads session.store (.change (.remove key) : Request α) = way ++ beside ∧
      trie.root.Beside key.nibbles way beside ∧ beside.length ≤ 2 ∧
      trie.EndsWithin session.store (2 * key.length + 3) (trie.root.remove key) ∧
      ∀ value : α, TrieValue.encode value = [] →
        trie.loads session.store (.change (.put key value)) = way ++ beside ∧
          trie.EndsWithin session.store (2 * key.length + 3) (trie.root.write key value) := by
  intro session trie way
  have hready : trie.Ready := after_ready (.openAt owner capacity hpos origin) requests
  have hway : way.length ≤ 2 * key.length + 1 := hready.length_get_le session.store key
  refine ⟨⟨hready.get_way session.store key, hway, Walk.runWithin_eq hway⟩, fun value hvalue ↦ ?_,
    ?_⟩
  · have hput := hready.loads_put session.store key hvalue
    exact ⟨hput, Walk.runWithin_eq (Nat.le_trans (Nat.le_of_eq (congrArg List.length hput)) hway)⟩
  · obtain ⟨beside, hloads, hbeside, -⟩ := hready.loads_remove (α := α) session.store key
    have htwo := hbeside.length_le.1
    have hlength : (trie.loads session.store (.change (.remove key) : Request α)).length =
        way.length + beside.length := (congrArg List.length hloads).trans List.length_append
    have hends : trie.EndsWithin session.store (2 * key.length + 3) (trie.root.remove key) := by
      refine Walk.runWithin_eq (Nat.le_trans (Nat.le_of_eq hlength) ?_)
      omega
    refine ⟨beside, hloads, hbeside, htwo, hends, fun value hvalue ↦ ?_⟩
    have hwrite : trie.root.write key value = trie.root.remove key :=
      if_pos (List.isEmpty_iff.mpr hvalue)
    refine ⟨?_, hwrite ▸ hends⟩
    rw [← hloads, BackedTrie.loads, BackedTrie.loads, Node.change, Node.change, hwrite]

/-! ### A trie in which the bounds are reached -/

/-- The form of a leaf at its place. -/
def tip : Bytes :=
  Node.leafForm [] (List.replicate 32 0x07)

/-- The form of a branch above two such leaves. -/
def twig : Bytes :=
  Node.branchForm (fun slot ↦ if slot.val = 1 ∨ slot.val = 2 then Rlp.string (keccak256 tip).bytes
    else Rlp.string []) none

/-- The form of a branch above that branch and a leaf. -/
def crown : Bytes :=
  Node.branchForm (fun slot ↦ if slot.val = 1 then Rlp.string (keccak256 twig).bytes
    else if slot.val = 2 then Rlp.string (keccak256 tip).bytes else Rlp.string []) none

/-- A session over the store of the three forms, with a cache for one node. -/
def towering : Session MemoryStore Bytes :=
  openedAt (keccak256 crown)
    (.ofEntries [(keccak256 tip, tip), (keccak256 twig, twig), (keccak256 crown, crown)]) 0 1
    Nat.one_pos

set_option maxRecDepth 100000 in
/-- A lookup of a key of one byte makes three loads and removing the key five, and both end within
these. -/
theorem towering_bounded :
    (towering.trie.loads towering.store (.get [0x11] : Request Bytes)).length = 3 ∧
      (towering.trie.loads towering.store
        (.change (.remove [0x11]) : Request Bytes)).length = 5 ∧
      towering.trie.EndsWithin towering.store 3
        (towering.trie.root.read [0x11] : Walk (Option Bytes)) ∧
      towering.trie.EndsWithin towering.store 5 (towering.trie.root.remove [0x11]) := by
  have hlengths : (towering.trie.loads towering.store (.get [0x11] : Request Bytes)).length = 3 ∧
      (towering.trie.loads towering.store
        (.change (.remove [0x11]) : Request Bytes)).length = 5 := by
    decide +kernel
  obtain ⟨⟨-, -, hread⟩, -, beside, -, -, -, hremove, -⟩ :=
    after_bounded (keccak256 crown) towering.store 0 1 (by decide) ([] : List (Request Bytes))
      [0x11]
  exact ⟨hlengths.1, hlengths.2, hread, hremove⟩

end Session

end Patricia
