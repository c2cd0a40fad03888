import Patricia.Loader.Basic

/-!
# Loading one node at a time

Where nothing else runs, a load goes from its look into the cache to its end without a pause, and
so does a walk that loads nodes. A flight that an earlier activity gave up is joined and brought
to its end.
-/

namespace Patricia

variable {σ : Type} [NodeStore σ] {α : Type}

namespace Loader

/-- The node with a hash, from the cache or from the store. -/
def load (loader : Loader) (store : σ) (hash : Hash) :
    Except TrieError Resolved × Loader × σ :=
  match loader.lookUp hash with
  | some (node, loader) => (.ok node, loader, store)
  | none =>
      match loader.board hash with
      | (.found node, loader) => (.ok node, loader, store)
      | (.wait flight, loader) =>
          let (loader, store) :=
            if flight.issued then (loader, store)
            else (loader.launch hash, NodeStore.request store hash)
          let (outcome, loader) := loader.land hash (NodeStore.answer store hash)
          (outcome, loader, store)

end Loader

namespace Walk

/-- The outcome of a walk over a store. Only references of this loader are resolved. -/
def run (loader : Loader) (store : σ) : Walk α → Except Failure α × Loader × σ
  | .done result => (.ok result, loader, store)
  | .fail failure => (.error failure, loader, store)
  | .fresh next =>
      let (stamp, loader) := loader.issue
      run loader store (next stamp)
  | .load home hash next =>
      if home = loader.owner then
        match loader.load store hash with
        | (.ok node, loader, store) => run loader store (next node)
        | (.error error, loader, store) => (.error (.error error), loader, store)
      else (.error (.error (.loaderDropped hash)), loader, store)

end Walk

end Patricia
