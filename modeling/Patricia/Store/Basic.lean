import Patricia.Fault

/-!
# Stores of encoded nodes

A store keeps encoded nodes under their hashes. Reading is split in two: `request` is the moment
at which a read is issued and `answer` what a read that was issued is answered with at this
moment, so that several reads can be under way at once. Writing may fail for each entry. A store
fails with an error of any kind, and those who use it pass the error on.
-/

namespace Patricia

/-- A node's hash and its written form. -/
abbrev Entry := Hash × Bytes

/-- States of a store of encoded nodes. Unless a store does better, several entries are written
one after the other up to the first that fails. -/
class NodeStore (σ : Type) where
  request : σ → Hash → σ
  answer : σ → Hash → Except TrieError (Option Bytes)
  put : σ → Entry → Except TrieError Unit × σ
  putAll : σ → List Entry → Except TrieError Unit × σ :=
    fun store entries ↦
      entries.foldl
        (fun (outcome, store) entry ↦
          match outcome with
          | .ok () => put store entry
          | .error error => (.error error, store))
        (.ok (), store)

end Patricia
