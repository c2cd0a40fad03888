import Patricia.Proofs.Loader.Heard

/-!
# Loads that run at once

Any number of loads share a loader, and each goes on at any time by one step: the look into the
cache, the step under the lock of the flights (`Loader.board`), the start of the read, the cache
entry, the end of the flight, the delivery to a load that waits. The store answers a read whenever
and however it likes, and cached nodes are dropped at any time. `Traffic` is the loader with what
has become of each flight and of each load so far, and `Traffic.run` takes any list of steps. A step
that is not possible at some point changes nothing, so every list of steps is a run. One load by
itself is `Loader.load` (`Traffic.run_alone`).
-/

namespace Patricia

/-- How far a flight has got: its read is planned or issued, or has an outcome, which is then put
into the cache, and then the flight is over. -/
inductive Stage where
  | planned
  | reading
  | answered (outcome : Except TrieError Resolved)
  | cached (outcome : Except TrieError Resolved)
  | ended (outcome : Except TrieError Resolved)

namespace Stage

/-- The outcome of a flight, once it has one. -/
def outcome? : Stage → Option (Except TrieError Resolved)
  | .planned | .reading => none
  | .answered outcome | .cached outcome | .ended outcome => some outcome

/-- Whether the read of a flight under way was issued. -/
def issued? : Stage → Option Bool
  | .planned => some false
  | .reading | .answered _ | .cached _ => some true
  | .ended _ => none

end Stage

/-- A flight with the hash that it is for. -/
structure Fetch where
  hash : Hash
  stage : Stage

/-- What has become of a load: it missed the cache, waits for the flight with some number, was
served by the cache, or was handed the outcome of a flight. -/
inductive Caller where
  | missed (hash : Hash)
  | waiting (hash : Hash) (flight : Nat)
  | served (hash : Hash) (node : Resolved)
  | handed (hash : Hash) (flight : Nat) (outcome : Except TrieError Resolved)

/-- How a load ended, if it has. -/
def Caller.outcome? : Caller → Option (Hash × Except TrieError Resolved)
  | .missed _ | .waiting _ _ => none
  | .served hash node => some (hash, .ok node)
  | .handed hash _ outcome => some (hash, outcome)

/-- The loader that loads share, with all flights by their numbers, all loads in the order in which
they began, and the answers of the store so far. -/
structure Traffic where
  loader : Loader
  fetches : List Fetch
  callers : List Caller
  answers : List (Hash × Answer)

/-- One step of the loader, of a load or of the store. -/
inductive Event where
  | call (hash : Hash)
  | board (caller : Nat)
  | depart (caller : Nat)
  | answer (flight : Nat) (answer : Answer)
  | keep (flight : Nat)
  | release (flight : Nat)
  | deliver (caller : Nat)
  | evict (hash : Hash)

namespace Traffic

/-- A loader with an empty cache before the first load. -/
def start (owner : Nat) (settings : Settings) : Traffic :=
  ⟨.new owner settings.cacheCapacity settings.positive, [], [], []⟩

variable (traffic : Traffic)

/-- A load begins with a look into the cache. -/
def call (hash : Hash) : Traffic :=
  match traffic.loader.lookUp hash with
  | some (node, loader) =>
      { traffic with loader, callers := traffic.callers ++ [.served hash node] }
  | none => { traffic with callers := traffic.callers ++ [.missed hash] }

/-- A load that missed the cache joins a flight, finds the node in the cache after all, or installs
a flight, which has the next number. The loader counts the flights it installs. -/
def board (caller : Nat) : Traffic :=
  match traffic.callers[caller]? with
  | some (.missed hash) =>
      match traffic.loader.board hash with
      | (.found node, loader) =>
          { traffic with loader, callers := traffic.callers.set caller (.served hash node) }
      | (.wait flight, loader) =>
          { traffic with
            loader
            callers := traffic.callers.set caller (.waiting hash flight.number)
            fetches :=
              if loader.installed = traffic.loader.installed then traffic.fetches
              else traffic.fetches ++ [⟨hash, .planned⟩] }
  | _ => traffic

/-- A flight is at a new stage. -/
def progress (flight : Nat) (hash : Hash) (stage : Stage) : Traffic :=
  { traffic with fetches := traffic.fetches.set flight ⟨hash, stage⟩ }

/-- A load that waits for a planned flight issues its read. -/
def depart (caller : Nat) : Traffic :=
  match traffic.callers[caller]? with
  | some (.waiting _ flight) =>
      match traffic.fetches[flight]? with
      | some ⟨hash, .planned⟩ =>
          { traffic.progress flight hash .reading with loader := traffic.loader.launch hash }
      | _ => traffic
  | _ => traffic

/-- The store answers the read of a flight. -/
def answer (flight : Nat) (answer : Answer) : Traffic :=
  match traffic.fetches[flight]? with
  | some ⟨hash, .reading⟩ =>
      let (outcome, loader) := traffic.loader.receive hash answer
      { traffic.progress flight hash (.answered outcome) with
        loader
        answers := (hash, answer) :: traffic.answers }
  | _ => traffic

/-- The node of a flight that succeeded goes into the cache. -/
def keep (flight : Nat) : Traffic :=
  match traffic.fetches[flight]? with
  | some ⟨hash, .answered outcome⟩ =>
      { traffic.progress flight hash (.cached outcome) with
        loader := traffic.loader.keep hash outcome }
  | _ => traffic

/-- A flight gives up its slot. -/
def release (flight : Nat) : Traffic :=
  match traffic.fetches[flight]? with
  | some ⟨hash, .cached outcome⟩ =>
      { traffic.progress flight hash (.ended outcome) with loader := traffic.loader.release hash }
  | _ => traffic

/-- A load is handed the outcome of the flight that it waited for. -/
def deliver (caller : Nat) : Traffic :=
  match traffic.callers[caller]? with
  | some (.waiting hash flight) =>
      match traffic.fetches[flight]? with
      | some ⟨_, .ended outcome⟩ =>
          { traffic with callers := traffic.callers.set caller (.handed hash flight outcome) }
      | _ => traffic
  | _ => traffic

/-- One step. -/
def step : Event → Traffic
  | .call hash => traffic.call hash
  | .board caller => traffic.board caller
  | .depart caller => traffic.depart caller
  | .answer flight answer => traffic.answer flight answer
  | .keep flight => traffic.keep flight
  | .release flight => traffic.release flight
  | .deliver caller => traffic.deliver caller
  | .evict hash => { traffic with loader := traffic.loader.evict hash }

/-- Any number of steps. -/
def run (events : List Event) : Traffic :=
  events.foldl step traffic

/-- What a step that is possible does, for each way in which it can go. -/
inductive Move : Event → Traffic → Prop where
  | hit {hash : Hash} {node : Resolved} {loader : Loader}
      (hfound : traffic.loader.lookUp hash = some (node, loader)) :
      Move (.call hash)
        { traffic with loader, callers := traffic.callers ++ [.served hash node] }
  | miss {hash : Hash} (hmiss : traffic.loader.lookUp hash = none) :
      Move (.call hash) { traffic with callers := traffic.callers ++ [.missed hash] }
  | join {caller : Nat} {hash : Hash} {flight : Flight}
      (hcaller : traffic.callers[caller]? = some (.missed hash))
      (hflight : traffic.loader.flight? hash = some flight) :
      Move (.board caller)
        { traffic with
          loader := { traffic.loader with joined := traffic.loader.joined + 1 }
          callers := traffic.callers.set caller (.waiting hash flight.number) }
  | find {caller : Nat} {hash : Hash} {node : Resolved} {loader : Loader}
      (hcaller : traffic.callers[caller]? = some (.missed hash))
      (hflight : traffic.loader.flight? hash = none)
      (hfound : traffic.loader.lookUp hash = some (node, loader)) :
      Move (.board caller)
        { traffic with loader, callers := traffic.callers.set caller (.served hash node) }
  | install {caller : Nat} {hash : Hash}
      (hcaller : traffic.callers[caller]? = some (.missed hash))
      (hflight : traffic.loader.flight? hash = none)
      (hmiss : traffic.loader.lookUp hash = none) :
      Move (.board caller)
        { traffic with
          loader := { traffic.loader with
            flights := (hash, ⟨traffic.loader.installed, false⟩) :: traffic.loader.flights
            installed := traffic.loader.installed + 1 }
          callers := traffic.callers.set caller (.waiting hash traffic.loader.installed)
          fetches := traffic.fetches ++ [⟨hash, .planned⟩] }
  | depart {caller flight : Nat} {asked hash : Hash}
      (hcaller : traffic.callers[caller]? = some (.waiting asked flight))
      (hstage : traffic.fetches[flight]? = some ⟨hash, .planned⟩) :
      Move (.depart caller)
        { traffic.progress flight hash .reading with loader := traffic.loader.launch hash }
  | answer {flight : Nat} {hash : Hash} (answer : Answer)
      (hstage : traffic.fetches[flight]? = some ⟨hash, .reading⟩) :
      Move (.answer flight answer)
        { traffic.progress flight hash (.answered (traffic.loader.receive hash answer).1) with
          loader := (traffic.loader.receive hash answer).2
          answers := (hash, answer) :: traffic.answers }
  | keep {flight : Nat} {hash : Hash} {outcome : Except TrieError Resolved}
      (hstage : traffic.fetches[flight]? = some ⟨hash, .answered outcome⟩) :
      Move (.keep flight)
        { traffic.progress flight hash (.cached outcome) with
          loader := traffic.loader.keep hash outcome }
  | release {flight : Nat} {hash : Hash} {outcome : Except TrieError Resolved}
      (hstage : traffic.fetches[flight]? = some ⟨hash, .cached outcome⟩) :
      Move (.release flight)
        { traffic.progress flight hash (.ended outcome) with
          loader := traffic.loader.release hash }
  | deliver {caller flight : Nat} {hash fetched : Hash} {outcome : Except TrieError Resolved}
      (hcaller : traffic.callers[caller]? = some (.waiting hash flight))
      (hstage : traffic.fetches[flight]? = some ⟨fetched, .ended outcome⟩) :
      Move (.deliver caller)
        { traffic with callers := traffic.callers.set caller (.handed hash flight outcome) }
  | evict (hash : Hash) :
      Move (.evict hash) { traffic with loader := traffic.loader.evict hash }

variable {traffic} {event : Event} {later : Traffic}

/-- A step changes nothing, or is one of the moves. -/
theorem step_cases (h : traffic.step event = later) :
    later = traffic ∨ traffic.Move event later := by
  subst h
  cases event with
  | call hash =>
      rw [step, call]
      split
      · rename_i hfound
        exact Or.inr (.hit hfound)
      · rename_i hmiss
        exact Or.inr (.miss hmiss)
  | board caller =>
      rw [step, board]
      split
      · rename_i hash hcaller
        rw [Loader.board]
        cases hflight : traffic.loader.flight? hash with
        | some flight =>
            dsimp only
            rw [if_pos rfl]
            exact Or.inr (.join hcaller hflight)
        | none =>
            cases hfound : traffic.loader.lookUp hash with
            | some found => exact Or.inr (.find hcaller hflight hfound)
            | none =>
                dsimp only
                rw [if_neg (Nat.succ_ne_self _)]
                exact Or.inr (.install hcaller hflight hfound)
      · exact Or.inl rfl
  | depart caller =>
      rw [step, depart]
      split
      · rename_i hcaller
        split
        · rename_i hstage
          exact Or.inr (.depart hcaller hstage)
        · exact Or.inl rfl
      · exact Or.inl rfl
  | answer flight answer =>
      rw [step, Traffic.answer]
      split
      · rename_i hstage
        exact Or.inr (.answer answer hstage)
      · exact Or.inl rfl
  | keep flight =>
      rw [step, keep]
      split
      · rename_i hstage
        exact Or.inr (.keep hstage)
      · exact Or.inl rfl
  | release flight =>
      rw [step, release]
      split
      · rename_i hstage
        exact Or.inr (.release hstage)
      · exact Or.inl rfl
  | deliver caller =>
      rw [step, deliver]
      split
      · rename_i hcaller
        split
        · rename_i hstage
          exact Or.inr (.deliver hcaller hstage)
        · exact Or.inl rfl
      · exact Or.inl rfl
  | evict hash => exact Or.inr (.evict hash)

/-- What every step keeps holds after every run. -/
theorem run_induction {p : Traffic → Prop} (h : p traffic)
    (hstep : ∀ {traffic event}, p traffic → p (traffic.step event)) (events : List Event) :
    p (traffic.run events) := by
  induction events generalizing traffic with
  | nil => exact h
  | cons event events ih => exact ih (hstep h)

/-- The steps of one load by itself, which gets some answer if it asks the store. -/
def alone (traffic : Traffic) (hash : Hash) (reply : Answer) : List Event :=
  [.call hash, .board traffic.callers.length, .depart traffic.callers.length,
    .answer traffic.fetches.length reply, .keep traffic.fetches.length,
    .release traffic.fetches.length, .deliver traffic.callers.length]

variable {σ : Type} [NodeStore σ] (store : σ) (hash : Hash)

/-- Where no flight is under way, the steps of one load one after the other are `Loader.load`: the
load ends in the same way and leaves the same loader. -/
theorem run_alone (hidle : traffic.loader.flights = [])
    (hcount : traffic.loader.installed = traffic.fetches.length) :
    ∃ caller, caller.outcome? = some (hash, (traffic.loader.load store hash).1) ∧
      (traffic.run (traffic.alone hash
        (NodeStore.answer (NodeStore.request store hash) hash))).callers =
          traffic.callers ++ [caller] ∧
      (traffic.run (traffic.alone hash
        (NodeStore.answer (NodeStore.request store hash) hash))).loader =
          (traffic.loader.load store hash).2.1 := by
  cases hfound : traffic.loader.lookUp hash with
  | some found =>
      obtain ⟨node, loader⟩ := found
      rw [(Loader.load_of_hit store hfound).1]
      refine ⟨.served hash node, rfl, ?_, ?_⟩ <;>
        simp [run, alone, step, call, board, depart, answer, keep, release, deliver, hfound]
  | none =>
      have hboard : traffic.loader.board hash =
          (.wait ⟨traffic.fetches.length, false⟩, { traffic.loader with
            flights := [(hash, ⟨traffic.fetches.length, false⟩)]
            installed := traffic.loader.installed + 1 }) := by
        rw [Loader.board, Loader.flight?, hidle, hfound, ← hcount]
        rfl
      rw [Loader.load, hfound, hboard]
      refine ⟨.handed hash traffic.fetches.length _, rfl, ?_, ?_⟩ <;>
        simp [run, alone, step, call, board, depart, answer, keep, release, deliver, progress,
          hfound, hboard, Loader.land]

end Traffic

end Patricia
