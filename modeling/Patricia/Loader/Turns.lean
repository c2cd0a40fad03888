import Patricia.Loader.Basic

/-!
# Loads that take turns

Several walks can share a loader. They run in rounds: in each round every walk that is not finished
has one turn, in order, and goes on until it has to wait or ends. A read that is issued in one
round is answered in a later one, at the first turn of a walk that waits for it; the other walks
that wait for the same flight are handed the same outcome at their turns. There are no more rounds
when all walks have ended.

Walks that are stopped before they end leave their flights with the loader.
-/

namespace Patricia

variable {σ : Type} [NodeStore σ] {α : Type}

/-- A walk between two turns: it has not begun, it waits for the flight with some number, or it
has ended. -/
inductive Turn (α : Type) where
  | ready (walk : Walk α)
  | waiting (hash : Hash) (flight : Nat) (next : Resolved → Walk α)
  | finished (outcome : Except Failure α)

namespace Turn

/-- How a walk ended, if it has. -/
def outcome? : Turn α → Option (Except Failure α)
  | .finished outcome => some outcome
  | _ => none

/-- Whether a walk has ended. -/
def isFinished (turn : Turn α) : Bool :=
  turn.outcome?.isSome

end Turn

/-- What walks that take turns share: the loader, the store, the flights whose read was issued in
this round, and the outcomes of flights that are over. -/
structure Shared (σ : Type) where
  loader : Loader
  store : σ
  recent : List Nat
  settled : List (Nat × Except TrieError Resolved)

namespace Shared

/-- Answer the read of a flight and hand out its outcome. -/
def settle (shared : Shared σ) (hash : Hash) (flight : Nat) :
    Except TrieError Resolved × Shared σ :=
  let (outcome, loader) := shared.loader.land hash (NodeStore.answer shared.store hash)
  (outcome, { shared with loader, settled := (flight, outcome) :: shared.settled })

/-- The outcome of a flight whose read was issued, unless that was in this round. -/
def collect (shared : Shared σ) (hash : Hash) (flight : Nat) :
    Option (Except TrieError Resolved) × Shared σ :=
  match shared.settled.lookup flight with
  | some outcome => (some outcome, shared)
  | none =>
      if flight ∈ shared.recent then (none, shared)
      else
        let (outcome, shared) := shared.settle hash flight
        (some outcome, shared)

/-- Begin to wait for a flight. Its read is issued unless it was before. -/
def await (shared : Shared σ) (hash : Hash) (flight : Flight) :
    Option (Except TrieError Resolved) × Shared σ :=
  if flight.issued then shared.collect hash flight.number
  else
    (none, { shared with
      loader := shared.loader.launch hash
      store := NodeStore.request shared.store hash
      recent := flight.number :: shared.recent })

/-- A walk on its turn: it goes on until it has to wait or ends. -/
def advance (shared : Shared σ) : Walk α → Turn α × Shared σ
  | .done result => (.finished (.ok result), shared)
  | .fail failure => (.finished (.error failure), shared)
  | .fresh next =>
      let (stamp, loader) := shared.loader.issue
      advance { shared with loader } (next stamp)
  | .load home hash next =>
      if home = shared.loader.owner then
        match shared.loader.lookUp hash with
        | some (node, loader) => advance { shared with loader } (next node)
        | none =>
            match shared.loader.board hash with
            | (.found node, loader) => advance { shared with loader } (next node)
            | (.wait flight, loader) =>
                match Shared.await { shared with loader } hash flight with
                | (none, shared) => (.waiting hash flight.number next, shared)
                | (some (.ok node), shared) => advance shared (next node)
                | (some (.error error), shared) => (.finished (.error (.error error)), shared)
      else (.finished (.error (.error (.loaderDropped hash))), shared)

/-- One turn. -/
def turn (shared : Shared σ) : Turn α → Turn α × Shared σ
  | .ready walk => shared.advance walk
  | .waiting hash flight next =>
      match shared.collect hash flight with
      | (none, shared) => (.waiting hash flight next, shared)
      | (some (.ok node), shared) => shared.advance (next node)
      | (some (.error error), shared) => (.finished (.error (.error error)), shared)
  | .finished outcome => (.finished outcome, shared)

/-- One turn of each walk, in order. -/
def turns (shared : Shared σ) : List (Turn α) → List (Turn α) × Shared σ
  | [] => ([], shared)
  | walk :: walks =>
      let (walk, shared) := shared.turn walk
      let (walks, shared) := shared.turns walks
      (walk :: walks, shared)

/-- At most a number of rounds. Reads of earlier rounds can be answered in a new one. Once all walks
have ended there are no more rounds, as they would have no turns in them. -/
def rounds (shared : Shared σ) : Nat → List (Turn α) → List (Turn α) × Shared σ
  | 0, walks => (walks, shared)
  | count + 1, walks =>
      if walks.all Turn.isFinished then (walks, shared)
      else
        -- What was issued before this round may be answered in it.
        let (walks, shared) := Shared.turns { shared with recent := [] } walks
        shared.rounds count walks

end Shared

/-- The outcomes of walks that take turns for a number of rounds. A walk that has not ended by then
has none. -/
def Loader.runTurns (loader : Loader) (store : σ) (count : Nat) (walks : List (Walk α)) :
    List (Option (Except Failure α)) × Loader × σ :=
  let shared : Shared σ := ⟨loader, store, [], []⟩
  let (walks, shared) := shared.rounds count (walks.map .ready)
  (walks.map Turn.outcome?, shared.loader, shared.store)

end Patricia
