import Patricia.Proofs.Loader.Resident

/-!
# What a loader counts

A loader counts the loads that its cache answers, the loads that join a flight, the flights that it
installs and the reads that it issues. Whatever the order in which the steps of loads that run at
once come, with nodes dropped from the cache and put into it at any time, each load that has got
past the look at the flights is counted once, each flight issues one read at most, and the cache
keeps its bound. Where loads come one after the other, none joins a flight, and each is answered by
the cache or by one read (`Traffic.run_accounted`).

The counts are natural numbers. Words of 64 bits that are counted up with them wrap around, so they
show the counts modulo `wordLimit`, and the equations hold of them modulo `wordLimit`.
-/

namespace Patricia

/-- What a loader counts, and how many nodes its cache has room for. -/
structure Tally where
  installed : Nat
  fetches : Nat
  hits : Nat
  joined : Nat
  capacity : Nat

namespace Loader

variable {loader later : Loader} {hash : Hash} {node : Resolved}

/-- The counts of the loader. -/
def tally (loader : Loader) : Tally :=
  ⟨loader.installed, loader.fetches, loader.hits, loader.joined, loader.cache.capacity⟩

/-- A look into the cache that finds a node is counted. -/
theorem tally_lookUp (h : loader.lookUp hash = some (node, later)) :
    later.tally = { loader.tally with hits := loader.hits + 1 } := by
  obtain ⟨-, rfl⟩ := lookUp_eq_some_iff.mp h
  rfl

/-- An answer is not counted. -/
theorem tally_receive (loader : Loader) (hash : Hash) (answer : Answer) :
    (loader.receive hash answer).2.tally = loader.tally := by
  rw [receive]
  cases judge hash answer with
  | error error => rfl
  | ok node => rfl

/-- The cache entry of a flight is not counted. -/
theorem tally_keep (loader : Loader) (hash : Hash) (outcome : Except TrieError Resolved) :
    (loader.keep hash outcome).tally = loader.tally := by
  cases outcome with
  | error error => rfl
  | ok node => rfl

/-- The end of a flight is not counted, from the answer on. -/
theorem tally_land (loader : Loader) (hash : Hash) (answer : Answer) :
    (loader.land hash answer).2.tally = loader.tally := by
  show ((loader.receive hash answer).2.keep hash _).tally = _
  rw [tally_keep, tally_receive]

/-- A node that is put into the cache is not counted. -/
theorem tally_preload {given : Node} (h : loader.preload hash given = .ok later) :
    later.tally = loader.tally ∧ later.flights = loader.flights := by
  rw [preload] at h
  split at h
  · cases h
    exact ⟨rfl, rfl⟩
  · cases h

end Loader

/-! ## Loads that run at once -/

/-- Whether a load has got past the look into the cache and at the flights. -/
def Caller.isDecided : Caller → Bool
  | .missed _ => false
  | .waiting _ _ | .served _ _ | .handed _ _ _ => true

namespace Traffic

/-- One step of the loads, of the store or of the cache, or a node at hand that is put into the
cache. -/
inductive Act where
  | event (event : Event)
  | prime (hash : Hash) (node : Node)

variable (traffic : Traffic)

/-- One step. What is refused as a node for the cache changes nothing. -/
def act : Act → Traffic
  | .event event => traffic.step event
  | .prime hash node =>
      match traffic.loader.preload hash node with
      | .ok loader => { traffic with loader }
      | .error _ => traffic

/-- Any number of steps. -/
def acts (acts : List Act) : Traffic :=
  acts.foldl act traffic

/-- The flight whose read a step issues: a load that waits for a planned flight departs. -/
def departure? : Act → Option Nat
  | .event (.depart caller) =>
      match traffic.callers[caller]? with
      | some (.waiting _ flight) =>
          match traffic.fetches[flight]? with
          | some ⟨_, .planned⟩ => some flight
          | _ => none
      | _ => none
  | _ => none

/-- The flights whose reads some steps issue, with an entry for each read. -/
def departures (traffic : Traffic) : List Act → List Nat
  | [] => []
  | act :: acts => (traffic.departure? act).toList ++ (traffic.act act).departures acts

variable {traffic}

/-- A load departs if it waits for a planned flight, and otherwise nothing happens. -/
theorem depart_cases (traffic : Traffic) (caller : Nat) :
    (traffic.departure? (.event (.depart caller)) = none ∧ traffic.depart caller = traffic) ∨
      ∃ flight hash, traffic.departure? (.event (.depart caller)) = some flight ∧
        traffic.fetches[flight]? = some ⟨hash, .planned⟩ ∧
        traffic.depart caller =
          { traffic.progress flight hash .reading with loader := traffic.loader.launch hash } := by
  rw [departure?, depart]
  cases traffic.callers[caller]? with
  | none => exact Or.inl ⟨rfl, rfl⟩
  | some found =>
      cases found with
      | missed | served | handed => exact Or.inl ⟨rfl, rfl⟩
      | waiting asked flight =>
          dsimp only
          cases hfetch : traffic.fetches[flight]? with
          | none => exact Or.inl ⟨rfl, rfl⟩
          | some fetch =>
              obtain ⟨hash, stage⟩ := fetch
              cases stage with
              | planned => exact Or.inr ⟨flight, hash, rfl, hfetch, rfl⟩
              | reading | answered | cached | ended => exact Or.inl ⟨rfl, rfl⟩

/-- Each load that is decided is counted once, as a hit, as one that joined a flight or as one that
installed one. Reads are counted as they are issued, and each flight issues one at most. -/
structure Accounted (capacity : Nat) (departures : List Nat) (traffic : Traffic) : Prop where
  decided : traffic.callers.countP Caller.isDecided =
    traffic.loader.hits + traffic.loader.joined + traffic.fetches.length
  installed : traffic.loader.installed = traffic.fetches.length
  fetches : traffic.loader.fetches = departures.length
  once : departures.Nodup
  issued : ∀ flight, flight ∈ departures ↔
    ∃ fetch, traffic.fetches[flight]? = some fetch ∧ fetch.stage.wasIssued = true
  capacity_eq : traffic.loader.cache.capacity = capacity

namespace Accounted

variable {capacity : Nat} {departures : List Nat} {later : Traffic} {hash : Hash}

/-- Before the first load nothing is counted. -/
theorem start (owner : Nat) (settings : Settings) :
    (Traffic.start owner settings).Accounted settings.cacheCapacity [] where
  decided := rfl
  installed := rfl
  fetches := rfl
  once := List.nodup_nil
  issued _ := ⟨nofun, nofun⟩
  capacity_eq := rfl

/-- Loads can be decided if each is counted, as a hit or as one that joined. -/
theorem decide (h : traffic.Accounted capacity departures) (hits joined : Nat)
    (htally : later.loader.tally = { traffic.loader.tally with
      hits := traffic.loader.hits + hits
      joined := traffic.loader.joined + joined })
    (hfetches : later.fetches = traffic.fetches)
    (hcount : later.callers.countP Caller.isDecided =
      traffic.callers.countP Caller.isDecided + hits + joined) :
    later.Accounted capacity departures := by
  simp only [Loader.tally, Tally.mk.injEq] at htally
  obtain ⟨hinstalled, hissued, hhits, hjoined, hcapacity⟩ := htally
  refine ⟨?_, ?_, hissued.trans h.fetches, h.once, ?_, hcapacity.trans h.capacity_eq⟩
  · rw [hcount, hhits, hjoined, hfetches, h.decided]
    omega
  · rw [hinstalled, hfetches, h.installed]
  · rw [hfetches]
    exact h.issued

/-- What is not counted changes no count. -/
theorem frame (h : traffic.Accounted capacity departures)
    (htally : later.loader.tally = traffic.loader.tally)
    (hfetches : later.fetches = traffic.fetches) (hcallers : later.callers = traffic.callers) :
    later.Accounted capacity departures :=
  h.decide 0 0 htally hfetches (congrArg _ hcallers)

/-- A flight whose read was issued can get further. -/
theorem progress (h : traffic.Accounted capacity departures) {flight : Nat} {stage : Stage}
    (next : Stage) (hstage : traffic.fetches[flight]? = some ⟨hash, stage⟩)
    (hissued : next.wasIssued = stage.wasIssued) :
    (traffic.progress flight hash next).Accounted capacity departures := by
  refine ⟨?_, h.installed.trans List.length_set.symm, h.fetches, h.once, fun number ↦ ?_,
    h.capacity_eq⟩
  · rw [Traffic.progress, List.length_set]
    exact h.decided
  · rw [h.issued, Traffic.progress]
    by_cases heq : flight = number
    · subst heq
      rw [List.getElem?_set_self (List.getElem?_eq_some_iff.mp hstage).1, hstage]
      simp [hissued]
    · rw [List.getElem?_set_ne heq]

/-- A load that missed the cache is decided when it joins a flight or installs one. -/
theorem countP_of_missed {caller : Nat} (decided : Caller)
    (hcaller : traffic.callers[caller]? = some (.missed hash))
    (hdecided : decided.isDecided = true) :
    (traffic.callers.set caller decided).countP Caller.isDecided =
      traffic.callers.countP Caller.isDecided + 1 := by
  have hset := countP_set_add (p := Caller.isDecided) hcaller decided
  rw [hdecided] at hset
  exact hset

/-- A flight can be installed by a load that is decided with it. -/
theorem install (h : traffic.Accounted capacity departures) {caller : Nat}
    (hcaller : traffic.callers[caller]? = some (.missed hash)) :
    Accounted capacity departures { traffic with
      loader := { traffic.loader with
        flights := (hash, ⟨traffic.loader.installed, false⟩) :: traffic.loader.flights
        installed := traffic.loader.installed + 1 }
      callers := traffic.callers.set caller (.waiting hash traffic.loader.installed)
      fetches := traffic.fetches ++ [⟨hash, .planned⟩] } := by
  refine ⟨?_, ?_, h.fetches, h.once, fun flight ↦ ?_, h.capacity_eq⟩
  · have hdecided := h.decided
    have hcount := countP_of_missed (.waiting hash traffic.loader.installed) hcaller rfl
    simp only [List.length_append, List.length_singleton]
    omega
  · simp [h.installed]
  · rw [h.issued]
    constructor
    · rintro ⟨fetch, hfetch, hissued⟩
      refine ⟨fetch, ?_, hissued⟩
      rwa [List.getElem?_append_left (List.getElem?_eq_some_iff.mp hfetch).1]
    · rintro ⟨fetch, hfetch, hissued⟩
      rw [List.getElem?_append] at hfetch
      split at hfetch
      · exact ⟨fetch, hfetch, hissued⟩
      · rw [List.mem_singleton.mp (List.mem_of_getElem? hfetch)] at hissued
        cases hissued

/-- The read of a planned flight is issued for the first time. -/
theorem depart (h : traffic.Accounted capacity departures) {flight : Nat}
    (hstage : traffic.fetches[flight]? = some ⟨hash, .planned⟩) :
    Accounted capacity (departures ++ [flight]) { traffic.progress flight hash .reading with
      loader := traffic.loader.launch hash } := by
  have hnew : flight ∉ departures := by
    rw [h.issued, hstage]
    rintro ⟨fetch, hfetch, hissued⟩
    cases hfetch
    cases hissued
  refine ⟨?_, h.installed.trans List.length_set.symm, ?_, ?_, fun number ↦ ?_, h.capacity_eq⟩
  · rw [Traffic.progress, List.length_set]
    exact h.decided
  · rw [List.length_append, List.length_singleton, ← h.fetches]
    rfl
  · rw [List.nodup_append]
    refine ⟨h.once, List.nodup_singleton flight, fun number hnumber other hother ↦ ?_⟩
    rw [List.mem_singleton.mp hother]
    rintro rfl
    exact hnew hnumber
  · rw [List.mem_append, List.mem_singleton, h.issued, Traffic.progress]
    by_cases heq : flight = number
    · subst heq
      rw [List.getElem?_set_self (List.getElem?_eq_some_iff.mp hstage).1]
      exact ⟨fun _ ↦ ⟨_, rfl, rfl⟩, fun _ ↦ Or.inr rfl⟩
    · rw [List.getElem?_set_ne heq, or_iff_left (Ne.symm heq)]

/-- Every step but a departure is counted as it should be. -/
theorem step (h : traffic.Accounted capacity departures) {event : Event}
    (hdepart : ∀ caller, event ≠ .depart caller) :
    (traffic.step event).Accounted capacity departures := by
  generalize hlater : traffic.step event = later
  rcases step_cases hlater with rfl | hmove
  · exact h
  · cases hmove with
    | hit hfound =>
        refine h.decide 1 0 (Loader.tally_lookUp hfound) rfl ?_
        rw [List.countP_append]
        rfl
    | miss =>
        refine h.decide 0 0 rfl rfl ?_
        rw [List.countP_append]
        rfl
    | join hcaller => exact h.decide 0 1 rfl rfl (countP_of_missed _ hcaller rfl)
    | find hcaller hflight hfound =>
        exact h.decide 1 0 (Loader.tally_lookUp hfound) rfl (countP_of_missed _ hcaller rfl)
    | install hcaller => exact h.install hcaller
    | depart => exact absurd rfl (hdepart _)
    | answer answer hstage =>
        exact (h.progress (.answered _) hstage rfl).frame (Loader.tally_receive _ _ answer) rfl rfl
    | keep hstage =>
        exact (h.progress (.cached _) hstage rfl).frame (Loader.tally_keep _ _ _) rfl rfl
    | release hstage => exact (h.progress (.ended _) hstage rfl).frame rfl rfl rfl
    | deliver hcaller hstage =>
        rename_i caller flight hash fetched outcome
        have hset := countP_set_add (p := Caller.isDecided) hcaller (.handed hash flight outcome)
        exact h.decide 0 0 rfl rfl (Nat.add_right_cancel hset)
    | evict => exact h.frame rfl rfl rfl

/-- Every step is counted as it should be, and so is the read that it issues. -/
theorem act (h : traffic.Accounted capacity departures) (act : Act) :
    (traffic.act act).Accounted capacity (departures ++ (traffic.departure? act).toList) := by
  have hnone : departures ++ (none : Option Nat).toList = departures := List.append_nil departures
  cases act with
  | prime hash node =>
      show Accounted capacity (departures ++ (none : Option Nat).toList) _
      rw [hnone, Traffic.act]
      split
      · rename_i hpreload
        exact h.frame (Loader.tally_preload hpreload).1 rfl rfl
      · exact h
  | event event =>
      by_cases hdepart : ∃ caller, event = .depart caller
      · obtain ⟨caller, rfl⟩ := hdepart
        show Accounted capacity _ (traffic.depart caller)
        rcases depart_cases traffic caller with
          ⟨hstay, hsame⟩ | ⟨flight, hash, hgo, hstage, hlater⟩
        · rw [hstay, hnone, hsame]
          exact h
        · rw [hgo, hlater]
          exact h.depart hstage
      · have hother := not_exists.mp hdepart
        have hstay : traffic.departure? (.event event) = none := by
          cases event with
          | depart caller => exact absurd rfl (hother caller)
          | call | board | answer | keep | release | deliver | evict => rfl
        rw [hstay, hnone]
        exact h.step hother

/-- Every run is counted as it should be, and so are the reads that it issues. -/
theorem run (h : traffic.Accounted capacity departures) (acts : List Act) :
    (traffic.acts acts).Accounted capacity (departures ++ traffic.departures acts) := by
  induction acts generalizing traffic departures with
  | nil =>
      rw [Traffic.departures, List.append_nil]
      exact h
  | cons act acts ih =>
      rw [Traffic.departures, ← List.append_assoc]
      exact ih (h.act act)

end Accounted

end Traffic

/-! ## Loads one after the other -/

/-- What is asked of a loader while nothing else runs. -/
inductive Errand where
  | load (hash : Hash)
  | evict (hash : Hash)
  | prime (hash : Hash) (node : Node)

/-- Whether a load is asked for. -/
def Errand.isLoad : Errand → Bool
  | .load _ => true
  | .evict _ | .prime _ _ => false

variable {σ : Type} [NodeStore σ]

namespace Loader

/-- The loader and the store after an errand. What is refused as a node for the cache changes
nothing. -/
def errand (state : Loader × σ) : Errand → Loader × σ
  | .load hash => (state.1.load state.2 hash).2
  | .evict hash => (state.1.evict hash, state.2)
  | .prime hash node =>
      match state.1.preload hash node with
      | .ok loader => (loader, state.2)
      | .error _ => state

/-- The loader and the store after any number of errands, one after the other. -/
def errands (state : Loader × σ) (errands : List Errand) : Loader × σ :=
  errands.foldl errand state

/-- Without flights under way, each load so far was answered by the cache or by one read of the
store, and none joined a flight. -/
structure Squared (capacity loads : Nat) (store : σ) (state : Loader × σ) : Prop where
  idle : state.1.flights = []
  loads : state.1.hits + state.1.fetches = loads
  joined : state.1.joined = 0
  asked : ∃ hashes : List Hash, hashes.length = state.1.fetches ∧
    state.2 = hashes.foldl NodeStore.request store
  capacity_eq : state.1.cache.capacity = capacity

/-- A load while no flight is under way is answered by the cache, or installs a flight and issues a
read. The flight is over after it. -/
theorem load_idle {loader : Loader} (hidle : loader.flights = []) (store : σ) (hash : Hash) :
    (loader.load store hash).2.1.flights = [] ∧
      ((loader.load store hash).2.1.tally = { loader.tally with hits := loader.hits + 1 } ∧
          (loader.load store hash).2.2 = store ∨
        (loader.load store hash).2.1.tally = { loader.tally with
            installed := loader.installed + 1
            fetches := loader.fetches + 1 } ∧
          (loader.load store hash).2.2 = NodeStore.request store hash) := by
  cases hfound : loader.lookUp hash with
  | some found =>
      obtain ⟨node, later⟩ := found
      rw [(load_of_hit store hfound).1]
      exact ⟨(lookUp_entries hfound).2.2.1.trans hidle, Or.inl ⟨tally_lookUp hfound, rfl⟩⟩
  | none =>
      rw [load, hfound, board_of_idle hidle hfound]
      refine ⟨?_, Or.inr ⟨?_, rfl⟩⟩
      · exact (land_flights _ hash _).trans (by simp [launch])
      · exact tally_land _ hash _

namespace Squared

variable {capacity loads : Nat} {store : σ} {state : Loader × σ}

/-- Before the first load nothing is counted. -/
theorem new (owner : Nat) (settings : Settings) (store : σ) :
    Squared settings.cacheCapacity 0 store
      (Loader.new owner settings.cacheCapacity settings.positive, store) where
  idle := rfl
  loads := rfl
  joined := rfl
  asked := ⟨[], rfl, rfl⟩
  capacity_eq := rfl

/-- What is not counted and asks the store for nothing changes no count. -/
theorem frame (h : Squared capacity loads store state) {later : Loader}
    (htally : later.tally = state.1.tally) (hflights : later.flights = []) :
    Squared capacity loads store (later, state.2) := by
  simp only [tally, Tally.mk.injEq] at htally
  obtain ⟨-, hissued, hhits, hjoined, hcapacity⟩ := htally
  refine ⟨hflights, ?_, hjoined.trans h.joined, ?_, hcapacity.trans h.capacity_eq⟩
  · rw [hhits, hissued]
    exact h.loads
  · rw [hissued]
    exact h.asked

/-- A load is counted once. -/
theorem load (h : Squared capacity loads store state) (hash : Hash) :
    Squared capacity (loads + 1) store (state.1.load state.2 hash).2 := by
  obtain ⟨hidle, hend⟩ := load_idle h.idle state.2 hash
  have hloads := h.loads
  obtain ⟨hashes, hlength, hstore⟩ := h.asked
  simp only [tally, Tally.mk.injEq] at hend
  rcases hend with ⟨⟨-, hissued, hhits, hjoined, hcapacity⟩, hafter⟩ |
      ⟨⟨-, hissued, hhits, hjoined, hcapacity⟩, hafter⟩
  · refine ⟨hidle, by omega, hjoined.trans h.joined, ⟨hashes, ?_, ?_⟩,
      hcapacity.trans h.capacity_eq⟩
    · rw [hissued, hlength]
    · rw [hafter, hstore]
  · refine ⟨hidle, by omega, hjoined.trans h.joined, ⟨hashes ++ [hash], ?_, ?_⟩,
      hcapacity.trans h.capacity_eq⟩
    · rw [hissued, ← hlength, List.length_append, List.length_singleton]
    · rw [hafter, hstore, List.foldl_append]
      rfl

/-- An errand is counted if it is a load. -/
theorem errand (h : Squared capacity loads store state) (errand : Errand) :
    Squared capacity (loads + if errand.isLoad then 1 else 0) store
      (Loader.errand state errand) := by
  cases errand with
  | load hash => exact h.load hash
  | evict hash => exact h.frame rfl h.idle
  | prime hash node =>
      show Squared capacity loads store _
      rw [Loader.errand]
      split
      · rename_i hpreload
        obtain ⟨htally, hflights⟩ := tally_preload hpreload
        exact h.frame htally (hflights.trans h.idle)
      · exact h

/-- The loads among any number of errands are counted. -/
theorem errands (h : Squared capacity loads store state) (errands : List Errand) :
    Squared capacity (loads + errands.countP Errand.isLoad) store
      (Loader.errands state errands) := by
  induction errands generalizing loads state with
  | nil => exact h
  | cons errand errands ih =>
      rw [List.countP_cons, Nat.add_comm (errands.countP _), ← Nat.add_assoc]
      exact ih (h.errand errand)

end Squared

end Loader

/-- A loader's counts are exact. At every point of every run of loads over a new loader, with nodes
dropped from the cache and put into it at any time, the loads that have got past the look at the
flights are as many as the hits, the loads that joined a flight and the flights that were installed
together; the reads that are counted are those that were issued, one at most for each flight; and
the cache is within its bound. Where loads come one after the other over any store, the loads are as
many as the hits and the reads together, which are those that the store was asked for, and no load
joins a flight. -/
theorem Traffic.run_accounted (owner : Nat) (settings : Settings) :
    (∀ acts : List Act,
      let traffic := (start owner settings).acts acts
      let departures := (start owner settings).departures acts
      traffic.callers.countP Caller.isDecided =
          traffic.loader.hits + traffic.loader.joined + traffic.fetches.length ∧
        traffic.loader.installed = traffic.fetches.length ∧
        traffic.loader.fetches = departures.length ∧
        departures.Nodup ∧
        (∀ flight, flight ∈ departures ↔
          ∃ fetch, traffic.fetches[flight]? = some fetch ∧ fetch.stage.wasIssued = true) ∧
        traffic.loader.cache.size ≤ settings.cacheCapacity) ∧
    ∀ (σ : Type) [NodeStore σ] (store : σ) (errands : List Errand),
      let state := Loader.errands
        (Loader.new owner settings.cacheCapacity settings.positive, store) errands
      state.1.hits + state.1.fetches = errands.countP Errand.isLoad ∧
        state.1.joined = 0 ∧
        (∃ hashes : List Hash, hashes.length = state.1.fetches ∧
          state.2 = hashes.foldl NodeStore.request store) ∧
        state.1.cache.size ≤ settings.cacheCapacity := by
  constructor
  · intro acts traffic departures
    have h : traffic.Accounted settings.cacheCapacity ([] ++ departures) :=
      (Accounted.start owner settings).run acts
    rw [List.nil_append] at h
    exact ⟨h.decided, h.installed, h.fetches, h.once, h.issued,
      h.capacity_eq ▸ traffic.loader.cache.bounded⟩
  · intro σ _ store errands state
    have h : Loader.Squared settings.cacheCapacity (0 + errands.countP Errand.isLoad) store state :=
      (Loader.Squared.new owner settings store).errands errands
    rw [Nat.zero_add] at h
    exact ⟨h.loads, h.joined, h.asked, h.capacity_eq ▸ state.1.cache.bounded⟩

end Patricia
