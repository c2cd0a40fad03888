import Patricia.Proofs.Loader.Accounting
import Patricia.Proofs.Walk.Outcome

/-!
# What a walk loads

`Walk.loads` lists the loads of a walk in their order: the hash that is asked for, what the store
answered unless the cache had the node, and what the load came to. While no flight is under way the
store is asked for the hashes among them that the cache had no node for, and for nothing else
(`Walk.run_idle`). So a walk ends in the same way over every store that answers these reads in the
same way (`Walk.run_congr`), and it ends after any number of loads that it does not exceed
(`Walk.runWithin_eq`).
-/

namespace Patricia

/-- A load: the hash that is asked for, what the store answered unless the cache had the node, and
what the load came to. -/
structure Load where
  hash : Hash
  heard : Option Answer
  outcome : Except TrieError Resolved

/-- The hashes that a store is asked for in the course of some loads. -/
def Load.reads (loads : List Load) : List Hash :=
  loads.filterMap fun load ↦ load.heard.map fun _ ↦ load.hash

/-- What a store answers to reads that follow one another. -/
def NodeStore.replies {σ : Type} [NodeStore σ] (store : σ) : List Hash → List Answer
  | [] => []
  | hash :: hashes =>
      NodeStore.answer (NodeStore.request store hash) hash ::
        replies (NodeStore.request store hash) hashes

variable {σ τ : Type} [NodeStore σ] [NodeStore τ] {α β : Type} {loader : Loader} {store : σ}

/-- A load that misses the cache while no flight is under way lands with the answer to a read of its
own, which is counted. It does so over any store. -/
theorem Loader.load_of_idle_miss {hash : Hash} (hidle : loader.flights = [])
    (hmiss : loader.lookUp hash = none) :
    ∃ waiting : Loader,
      (∀ answer, (waiting.land hash answer).2.flights = [] ∧
        (waiting.land hash answer).2.fetches = loader.fetches + 1) ∧
      ∀ (σ : Type) [NodeStore σ] (store : σ),
        loader.heard store hash = some (NodeStore.answer (NodeStore.request store hash) hash) ∧
        loader.load store hash =
          ((waiting.land hash (NodeStore.answer (NodeStore.request store hash) hash)).1,
            (waiting.land hash (NodeStore.answer (NodeStore.request store hash) hash)).2,
            NodeStore.request store hash) := by
  refine ⟨Loader.launch { loader with
      flights := [(hash, ⟨loader.installed, false⟩)]
      installed := loader.installed + 1 } hash, fun answer ↦ ⟨?_, ?_⟩, fun σ _ store ↦ ?_⟩
  · exact (land_flights _ hash answer).trans (by simp [launch])
  · exact congrArg Tally.fetches (tally_land _ hash answer)
  · rw [heard, load, hmiss, board_of_idle hidle hmiss]
    exact ⟨rfl, rfl⟩

namespace Walk

/-- The loads of a walk, one after the other. -/
def loads (loader : Loader) (store : σ) : Walk α → List Load
  | .done _ | .fail _ => []
  | .fresh next => loads loader.issue.2 store (next loader.issue.1)
  | .load home hash next =>
      if home = loader.owner then
        ⟨hash, loader.heard store hash, (loader.load store hash).1⟩ ::
          match loader.load store hash with
          | (.ok node, loader, store) => loads loader store (next node)
          | (.error _, _, _) => []
      else []

section Load

variable {home : Nat} {hash : Hash} {next : Resolved → Walk α} {node : Resolved}
  {error : TrieError} {later : Loader} {after : σ}

/-- A walk that is given a node goes on from it. -/
theorem run_load_ok (howner : home = loader.owner)
    (hload : loader.load store hash = (.ok node, later, after)) :
    run loader store (.load home hash next) = run later after (next node) := by
  rw [run, if_pos howner, hload]

/-- A walk that cannot be given a node fails. -/
theorem run_load_error (howner : home = loader.owner)
    (hload : loader.load store hash = (.error error, later, after)) :
    run loader store (.load home hash next) = (.error (.error error), later, after) := by
  rw [run, if_pos howner, hload]

/-- The loads of a walk that is given a node are that load and the ones that follow. -/
theorem loads_load_ok (howner : home = loader.owner)
    (hload : loader.load store hash = (.ok node, later, after)) :
    loads loader store (.load home hash next) =
      ⟨hash, loader.heard store hash, .ok node⟩ :: loads later after (next node) := by
  rw [loads, if_pos howner, hload]

/-- A load that fails is the last one. -/
theorem loads_load_error (howner : home = loader.owner)
    (hload : loader.load store hash = (.error error, later, after)) :
    loads loader store (.load home hash next) =
      [⟨hash, loader.heard store hash, .error error⟩] := by
  rw [loads, if_pos howner, hload]

end Load

/-- A sequence makes the loads of its second part after those of the first. -/
theorem loads_bind (loader : Loader) (store : σ) (walk : Walk α) (last : α → Walk β) :
    (walk >>= last).loads loader store = walk.loads loader store ++
      match walk.run loader store with
      | (.ok result, loader, store) => (last result).loads loader store
      | (.error _, _, _) => [] := by
  induction walk generalizing loader store with
  | done | fail => rfl
  | fresh next ih => exact ih _ _ _
  | load home hash next ih =>
      show loads loader store (.load home hash fun node ↦ next node >>= last) = _
      rw [loads, loads, run]
      split
      · generalize loader.load store hash = loaded
        obtain ⟨outcome, later, after⟩ := loaded
        cases outcome with
        | ok node => exact congrArg (List.cons _) (ih node later after)
        | error error => rfl
      · rfl

/-- A sequence makes the loads of its first part if the second one makes none. -/
theorem loads_bind_of_nil {walk : Walk α} {last : α → Walk β}
    (h : ∀ result later (after : σ), walk.run loader store = (.ok result, later, after) →
      (last result).loads later after = []) :
    (walk >>= last).loads loader store = walk.loads loader store := by
  rw [loads_bind]
  generalize walk.run loader store = ended at h
  obtain ⟨outcome, later, after⟩ := ended
  cases outcome with
  | ok result => exact (congrArg _ (h result later after rfl)).trans (List.append_nil _)
  | error failure => exact List.append_nil _

/-- A sequence ends with a result if its second part does after the first. -/
theorem run_bind_eq_ok {walk : Walk α} {last : α → Walk β} {result : β} :
    ((walk >>= last).run loader store).1 = .ok result ↔
      ∃ first later after, walk.run loader store = (.ok first, later, after) ∧
        ((last first).run later after).1 = .ok result := by
  rw [Walk.run_bind]
  rcases walk.run loader store with ⟨failure | first, later, after⟩
  · exact ⟨nofun, nofun⟩
  · refine ⟨fun hresult ↦ ⟨first, later, after, rfl, hresult⟩, ?_⟩
    rintro ⟨_, _, _, ⟨⟩, hresult⟩
    exact hresult

/-- While no flight is under way, a walk asks the store for the hashes that the cache has no node
for, one after the other, and each such read is counted. No flight is left. -/
theorem run_idle (hidle : loader.flights = []) (store : σ) (walk : Walk α) :
    (walk.run loader store).2.1.flights = [] ∧
      (walk.run loader store).2.1.fetches =
        loader.fetches + (Load.reads (walk.loads loader store)).length ∧
      (walk.run loader store).2.2 =
        (Load.reads (walk.loads loader store)).foldl NodeStore.request store := by
  induction walk generalizing loader store with
  | done | fail => exact ⟨hidle, rfl, rfl⟩
  | fresh next ih => exact ih loader.issue.1 (show loader.issue.2.flights = [] from hidle) store
  | load home hash next ih =>
      rw [run, loads]
      split
      swap
      · exact ⟨hidle, rfl, rfl⟩
      cases hfound : loader.lookUp hash with
      | some found =>
          obtain ⟨node, later⟩ := found
          obtain ⟨hload, hheard⟩ := Loader.load_of_hit store hfound
          have hfetches : later.fetches = loader.fetches :=
            congrArg Tally.fetches (Loader.tally_lookUp hfound)
          rw [hload, hheard, ← hfetches]
          exact ih node ((Loader.lookUp_entries hfound).2.2.1.trans hidle) store
      | none =>
          obtain ⟨waiting, hlands, hwaiting⟩ := Loader.load_of_idle_miss hidle hfound
          obtain ⟨hheard, hload⟩ := hwaiting σ store
          rw [hload, hheard]
          generalize NodeStore.answer (NodeStore.request store hash) hash = answer
          obtain ⟨hflights, hfetches⟩ := hlands answer
          generalize waiting.land hash answer = landed at hflights hfetches ⊢
          obtain ⟨outcome, later⟩ := landed
          cases outcome with
          | ok node =>
              obtain ⟨hlast, hcount, hafter⟩ := ih node hflights (NodeStore.request store hash)
              refine ⟨hlast, ?_, hafter⟩
              rw [hcount, hfetches, Nat.add_right_comm]
              rfl
          | error error => exact ⟨hflights, hfetches, rfl⟩

/-- While no flight is under way, a walk makes the same loads and ends in the same way over every
store that answers its reads in the same way. -/
theorem run_congr {other : τ} (hidle : loader.flights = []) (walk : Walk α)
    (h : NodeStore.replies other (Load.reads (walk.loads loader store)) =
      NodeStore.replies store (Load.reads (walk.loads loader store))) :
    walk.loads loader other = walk.loads loader store ∧
      (walk.run loader other).1 = (walk.run loader store).1 ∧
      (walk.run loader other).2.1 = (walk.run loader store).2.1 := by
  induction walk generalizing loader store other with
  | done | fail => exact ⟨rfl, rfl, rfl⟩
  | fresh next ih => exact ih loader.issue.1 (show loader.issue.2.flights = [] from hidle) h
  | load home hash next ih =>
      rw [loads] at h
      rw [run, run, loads, loads]
      split
      swap
      · exact ⟨rfl, rfl, rfl⟩
      rename_i howner
      rw [if_pos howner] at h
      cases hfound : loader.lookUp hash with
      | some found =>
          obtain ⟨node, later⟩ := found
          obtain ⟨hload, hheard⟩ := Loader.load_of_hit store hfound
          obtain ⟨hload', hheard'⟩ := Loader.load_of_hit other hfound
          rw [hload, hheard] at h
          rw [hload, hheard, hload', hheard']
          obtain ⟨hloads, hend⟩ :=
            ih node ((Loader.lookUp_entries hfound).2.2.1.trans hidle) h
          exact ⟨congrArg _ hloads, hend⟩
      | none =>
          obtain ⟨waiting, hlands, hwaiting⟩ := Loader.load_of_idle_miss hidle hfound
          obtain ⟨hheard, hload⟩ := hwaiting σ store
          obtain ⟨hheard', hload'⟩ := hwaiting τ other
          rw [hload, hheard] at h
          obtain ⟨hanswer, hrest⟩ := List.cons.inj h
          rw [hload, hheard, hload', hheard', hanswer]
          generalize NodeStore.answer (NodeStore.request store hash) hash = answer at hrest ⊢
          obtain ⟨hflights, -⟩ := hlands answer
          generalize waiting.land hash answer = landed at hflights hrest ⊢
          obtain ⟨outcome, later⟩ := landed
          cases outcome with
          | ok node =>
              obtain ⟨hloads, hend⟩ := ih node hflights hrest
              exact ⟨congrArg _ hloads, hend⟩
          | error error => exact ⟨rfl, rfl, rfl⟩

/-- The outcome of a walk that may make so many loads, if it makes no more. -/
def runWithin (limit : Nat) (loader : Loader) (store : σ) :
    Walk α → Option (Except Failure α × Loader × σ)
  | .done result => some (.ok result, loader, store)
  | .fail failure => some (.error failure, loader, store)
  | .fresh next => runWithin limit loader.issue.2 store (next loader.issue.1)
  | .load home hash next =>
      if home = loader.owner then
        if limit = 0 then none
        else
          match loader.load store hash with
          | (.ok node, loader, store) => runWithin (limit - 1) loader store (next node)
          | (.error error, loader, store) => some (.error (.error error), loader, store)
      else some (.error (.error (.loaderDropped hash)), loader, store)

/-- A walk that may make so many loads ends as it does if it makes no more. -/
theorem runWithin_eq {limit : Nat} {walk : Walk α}
    (hle : (walk.loads loader store).length ≤ limit) :
    walk.runWithin limit loader store = some (walk.run loader store) := by
  induction walk generalizing loader store limit with
  | done | fail => rfl
  | fresh next ih => exact ih _ hle
  | load home hash next ih =>
      rw [loads] at hle
      rw [runWithin, run]
      split
      · rename_i howner
        rw [if_pos howner, List.length_cons] at hle
        rw [if_neg (Nat.ne_of_gt (Nat.lt_of_lt_of_le (Nat.succ_pos _) hle))]
        have hrest := Nat.le_sub_of_add_le hle
        generalize loader.load store hash = loaded at hrest ⊢
        obtain ⟨outcome, later, after⟩ := loaded
        cases outcome with
        | ok node => exact ih node hrest
        | error error => rfl
      · rfl

end Walk

end Patricia
