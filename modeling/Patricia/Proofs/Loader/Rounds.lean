import Patricia.Loader.Turns
import Patricia.Proofs.Loader.SingleFlight
import Patricia.Proofs.Update.Steps
import Patricia.Store.Memory
import Patricia.Trie.Access

/-!
# Walks that take turns

Walks that take turns over one loader go on by the steps of loads that run at once. Whatever a walk
does on its turn is a list of such steps (`Shared.Carried.turn`), and so is what any number of
walks do in any number of rounds (`Loader.runTurns_eq_run`). So what holds after every run of loads
holds of these walks: their loads share flights, and each node that a walk goes on with is what the
store answered a read with (`Loader.runTurns_singleFlight`).

This is about walks that only load nodes, as lookups do (`Node.reads_read`). What the walks share is
related to the traffic of loads by `Shared.Carried`. It counts the loads that wait, so that a walk
that is handed an outcome never takes that of another walk's load.
-/

namespace Patricia

variable {σ : Type} [NodeStore σ] {α β : Type}

/-! ## Walks that only load -/

namespace Walk

/-- The walk loads nodes and makes none. -/
def Reads : Walk α → Prop
  | .done _ | .fail _ => True
  | .fresh _ => False
  | .load _ _ next => ∀ node, (next node).Reads

/-- The walk that has come to its end. -/
def ended : Except Failure α → Walk α
  | .ok result => .done result
  | .error failure => .fail failure

/-- What is left of a walk after some of its loads, which may end as they are said to. -/
inductive Reaches (owner : Nat) (loaded : Hash → Except TrieError Resolved → Prop)
    (walk : Walk α) : Walk α → Prop where
  | start : Reaches owner loaded walk walk
  | found {hash : Hash} {node : Resolved} {next : Resolved → Walk α}
      (h : Reaches owner loaded walk (.load owner hash next)) (hloaded : loaded hash (.ok node)) :
      Reaches owner loaded walk (next node)
  | failed {hash : Hash} {error : TrieError} {next : Resolved → Walk α}
      (h : Reaches owner loaded walk (.load owner hash next))
      (hloaded : loaded hash (.error error)) :
      Reaches owner loaded walk (.fail (.error error))
  | dropped {home : Nat} {hash : Hash} {next : Resolved → Walk α} (hhome : home ≠ owner)
      (h : Reaches owner loaded walk (.load home hash next)) :
      Reaches owner loaded walk (.fail (.error (.loaderDropped hash)))

variable {owner : Nat} {loaded more : Hash → Except TrieError Resolved → Prop}
  {walk rest : Walk α}

/-- A walk gets as far if loads may end in more ways. -/
theorem Reaches.mono (h : walk.Reaches owner loaded rest)
    (hmore : ∀ hash outcome, loaded hash outcome → more hash outcome) :
    walk.Reaches owner more rest := by
  induction h with
  | start => exact .start
  | found _ hloaded ih => exact .found ih (hmore _ _ hloaded)
  | failed _ hloaded ih => exact .failed ih (hmore _ _ hloaded)
  | dropped hhome _ ih => exact .dropped hhome ih

/-- A sequence only loads if both parts do. -/
theorem Reads.bind {next : α → Walk β} (h : walk.Reads) (hnext : ∀ result, (next result).Reads) :
    (walk >>= next).Reads := by
  induction walk with
  | done result => exact hnext result
  | fail => trivial
  | fresh => exact h.elim
  | load home hash more ih => exact fun node ↦ ih node (h node)

end Walk

namespace Node

/-- A lookup only loads nodes. -/
theorem reads_find? (node : Node) (key : List Nibble) : (node.find? key).Reads := by
  induction node, key using Node.find?.induct with
  | case1 key =>
      rw [find?_null]
      trivial
  | case2 stamp path value key =>
      rw [find?_leaf]
      trivial
  | case3 stamp first lead child key hstrip =>
      rw [find?_extension, hstrip]
      trivial
  | case4 stamp first lead child key rest hstrip hlt ih =>
      rw [find?_extension, hstrip]
      exact ih
  | case5 stamp occupied slots value =>
      rw [find?_branch_nil]
      trivial
  | case6 stamp occupied slots value nibble rest ih =>
      rw [find?_branch_cons]
      exact ih
  | case7 stamp hash key ih =>
      rw [find?_stored]
      exact ih

/-- Reading the value of a key only loads nodes. -/
theorem reads_read [TrieValue α] (node : Node) (key : Bytes) :
    (node.read key : Walk (Option α)).Reads := by
  refine (node.reads_find? key.nibbles).bind fun found ↦ ?_
  cases found with
  | none => trivial
  | some bytes =>
      cases hdecode : (TrieValue.decode bytes : Except TrieError α) with
      | ok value =>
          simp only [hdecode]
          trivial
      | error error =>
          simp only [hdecode]
          trivial

end Node

/-! ## Loads that wait -/

/-- The hash and the flight that a load waits for. -/
def Caller.awaited? : Caller → Option (Hash × Nat)
  | .waiting hash flight => some (hash, flight)
  | .missed _ | .served _ _ | .handed _ _ _ => none

/-- The hash and the flight that a walk waits for between two turns. -/
def Turn.awaited? : Turn α → Option (Hash × Nat)
  | .waiting hash flight _ => some (hash, flight)
  | .ready _ | .finished _ => none

/-- What walks wait for is what the first one waits for and what the others do. -/
theorem Turn.filterMap_awaited_cons (turn : Turn α) (turns : List (Turn α)) :
    (turn :: turns).filterMap Turn.awaited? =
      turn.awaited?.toList ++ turns.filterMap Turn.awaited? := by
  cases turn <;> rfl

/-- Walks that have not begun wait for nothing. -/
theorem Turn.filterMap_awaited_ready (walks : List (Walk α)) :
    (walks.map Turn.ready).filterMap Turn.awaited? = [] := by
  rw [List.filterMap_map]
  exact List.filterMap_eq_nil_iff.mpr fun _ _ ↦ rfl

/-- The flight has an outcome but has not given up its slot. -/
def Stage.isLanding : Stage → Bool
  | .answered _ | .cached _ => true
  | .planned | .reading | .ended _ => false

/-- Landing counts no read and leaves the owner. -/
theorem Loader.land_frame (loader : Loader) (hash : Hash) (answer : Answer) :
    (loader.land hash answer).2.owner = loader.owner ∧
      (loader.land hash answer).2.fetches = loader.fetches := by
  rw [land, receive]
  cases judge hash answer <;> exact ⟨rfl, rfl⟩

namespace Traffic

variable {traffic later : Traffic} {event : Event} {hash : Hash} {flight : Nat}
  {outcome : Except TrieError Resolved}

/-- Steps after steps are steps. -/
theorem run_append (traffic : Traffic) (first second : List Event) :
    traffic.run (first ++ second) = (traffic.run first).run second :=
  List.foldl_append

/-- Once a flight is answered its node goes into the cache and its slot is given up. -/
theorem run_land (hreading : traffic.fetches[flight]? = some ⟨hash, .reading⟩) (answer : Answer) :
    traffic.run [.answer flight answer, .keep flight, .release flight] =
      { traffic.progress flight hash (.ended (traffic.loader.land hash answer).1) with
        loader := (traffic.loader.land hash answer).2
        answers := (hash, answer) :: traffic.answers } := by
  have hlt := (List.getElem?_eq_some_iff.mp hreading).1
  have hset : ∀ stage, (traffic.fetches.set flight ⟨hash, stage⟩)[flight]? = some ⟨hash, stage⟩ :=
    fun _ ↦ List.getElem?_set_self hlt
  simp only [run, List.foldl_cons, List.foldl_nil, step, Traffic.answer, hreading, keep, release,
    progress, hset, List.set_set]
  rfl

/-- A load of the hash has ended so. -/
def Loaded (traffic : Traffic) (hash : Hash) (outcome : Except TrieError Resolved) : Prop :=
  ∃ caller ∈ traffic.callers, caller.outcome? = some (hash, outcome)

/-- What a load that is not over comes to changes no other load. -/
theorem Loaded.set (h : traffic.Loaded hash outcome) {number : Nat} {caller : Caller}
    (hcaller : traffic.callers[number]? = some caller) (hopen : caller.outcome? = none)
    {next : Caller} (hcallers : later.callers = traffic.callers.set number next) :
    later.Loaded hash outcome := by
  obtain ⟨ended, hmem, houtcome⟩ := h
  obtain ⟨place, hplace⟩ := List.mem_iff_getElem?.mp hmem
  have hne : number ≠ place := by
    rintro rfl
    cases hcaller.symm.trans hplace
    cases hopen.symm.trans houtcome
  refine ⟨ended, ?_, houtcome⟩
  rw [hcallers]
  exact List.mem_of_getElem? ((List.getElem?_set_ne hne).trans hplace)

/-- A load that has ended stays so at every step. -/
theorem Loaded.step (h : traffic.Loaded hash outcome) :
    (traffic.step event).Loaded hash outcome := by
  have hmore : ∀ {later : Traffic} {callers : List Caller},
      later.callers = traffic.callers ++ callers → later.Loaded hash outcome := by
    intro later callers hcallers
    obtain ⟨caller, hmem, houtcome⟩ := h
    exact ⟨caller, hcallers ▸ List.mem_append_left _ hmem, houtcome⟩
  generalize hlater : traffic.step event = later
  rcases step_cases hlater with rfl | hmove
  · exact h
  · cases hmove with
    | hit | miss => exact hmore rfl
    | join hcaller | find hcaller | install hcaller | deliver hcaller => exact h.set hcaller rfl rfl
    | depart | answer | keep | release | evict => exact h

/-- A load that has ended stays so. -/
theorem Loaded.run (h : traffic.Loaded hash outcome) (events : List Event) :
    (traffic.run events).Loaded hash outcome :=
  run_induction (p := fun traffic ↦ traffic.Loaded hash outcome) h Loaded.step events

/-- The load with a number comes to an end: it waits no more, and all others are as they were. -/
theorem awaited_set {number : Nat} {caller : Caller} {entry : Hash × Nat} {callers : List Caller}
    (next : Caller) (hcaller : callers[number]? = some caller)
    (hwaits : caller.awaited? = some entry) (hnext : next.awaited? = none) :
    (callers.filterMap Caller.awaited?).Perm
      (entry :: (callers.set number next).filterMap Caller.awaited?) := by
  obtain ⟨hlt, rfl⟩ := List.getElem?_eq_some_iff.mp hcaller
  rw [List.set_eq_take_append_cons_drop, if_pos hlt]
  nth_rewrite 1 [← List.take_append_drop number callers]
  rw [List.drop_eq_getElem_cons hlt, List.filterMap_append, List.filterMap_append,
    List.filterMap_cons_some hwaits, List.filterMap_cons_none hnext]
  exact List.perm_middle

end Traffic

/-! ## What the walks share -/

namespace Shared

variable {traffic later last : Traffic} {shared after final : Shared σ} {owner flight : Nat}
  {hash : Hash} {awaited : List (Hash × Nat)} {node : Resolved} {loader : Loader}

/-- The flight is over and its outcome is at hand, or its read was issued. -/
def Pending (traffic : Traffic) (shared : Shared σ) (hash : Hash) (flight : Nat) : Prop :=
  traffic.fetches[flight]? = some ⟨hash, .reading⟩ ∨
    ∃ outcome, traffic.fetches[flight]? = some ⟨hash, .ended outcome⟩ ∧
      shared.settled.lookup flight = some outcome

omit [NodeStore σ] in
/-- What is pending still is when one flight gets further, if that flight still is. -/
theorem Pending.progress {key : Hash} {number : Nat} (h : Pending traffic shared key number)
    {stage next : Stage} (hstage : traffic.fetches[flight]? = some ⟨hash, stage⟩)
    (hfetches : later.fetches = traffic.fetches.set flight ⟨hash, next⟩)
    (hsettled : ∀ number, number ≠ flight →
      after.settled.lookup number = shared.settled.lookup number)
    (hself : Pending traffic shared hash flight → Pending later after hash flight) :
    Pending later after key number := by
  by_cases heq : flight = number
  · subst heq
    obtain rfl : hash = key := by
      rcases h with hreading | ⟨outcome, hended, -⟩
      · exact congrArg Fetch.hash (Option.some.inj (hstage.symm.trans hreading))
      · exact congrArg Fetch.hash (Option.some.inj (hstage.symm.trans hended))
    exact hself h
  · rw [Pending, hfetches, List.getElem?_set_ne heq, hsettled number (Ne.symm heq)]
    exact h

/-- What the walks share is the traffic of their loads, and these loads wait for flights: the
traffic has the loader, none of its flights is about to land, and the outcomes at hand are those of
flights that are over. -/
structure Carried (owner : Nat) (awaited : List (Hash × Nat)) (traffic : Traffic)
    (shared : Shared σ) : Prop where
  loader_eq : traffic.loader = shared.loader
  owner_eq : shared.loader.owner = owner
  slotted : traffic.Slotted
  landed : ∀ fetch ∈ traffic.fetches, fetch.stage.isLanding = false
  settled : ∀ flight outcome, shared.settled.lookup flight = some outcome →
    ∃ hash, traffic.fetches[flight]? = some ⟨hash, .ended outcome⟩
  waits : (traffic.callers.filterMap Caller.awaited?).Perm awaited

/-- The traffic goes on by some steps. What was pending still is. The store was asked as often as
reads were counted, and has given each answer in the meantime. -/
structure Passes (traffic : Traffic) (shared : Shared σ) (later : Traffic) (after : Shared σ) :
    Prop where
  run : ∃ events, later = traffic.run events
  pending : ∀ hash flight, Pending traffic shared hash flight → Pending later after hash flight
  asked : ∃ hashes : List Hash, after.store = hashes.foldl NodeStore.request shared.store ∧
    later.loader.fetches = traffic.loader.fetches + hashes.length
  heard : ∀ entry ∈ later.answers, entry ∈ traffic.answers ∨ ∃ hashes : List Hash,
    entry.2 = NodeStore.answer (hashes.foldl NodeStore.request shared.store) entry.1

namespace Passes

/-- Some steps may happen at which the store is not asked and answers nothing. -/
theorem of_run {events : List Event} (hrun : traffic.run events = later)
    (hpending : ∀ hash flight, Pending traffic shared hash flight →
      Pending later after hash flight)
    (hstore : after.store = shared.store)
    (hcount : later.loader.fetches = traffic.loader.fetches)
    (hanswers : later.answers = traffic.answers) : Passes traffic shared later after :=
  ⟨⟨events, hrun.symm⟩, hpending, ⟨[], hstore, hcount⟩, fun _ hentry ↦ Or.inl (hanswers ▸ hentry)⟩

/-- Nothing may happen. -/
theorem refl (traffic : Traffic) (shared : Shared σ) : Passes traffic shared traffic shared :=
  of_run (show traffic.run [] = traffic from rfl) (fun _ _ ↦ id) rfl rfl rfl

/-- Steps may follow steps. -/
theorem trans (h : Passes traffic shared later after) (h' : Passes later after last final) :
    Passes traffic shared last final := by
  obtain ⟨events, rfl⟩ := h.run
  obtain ⟨more, rfl⟩ := h'.run
  obtain ⟨hashes, hstore, hcount⟩ := h.asked
  obtain ⟨others, hfinal, hmore⟩ := h'.asked
  refine ⟨⟨events ++ more, (traffic.run_append events more).symm⟩,
    fun hash flight ↦ h'.pending hash flight ∘ h.pending hash flight, ⟨hashes ++ others, ?_, ?_⟩,
    fun entry hentry ↦ ?_⟩
  · rw [hfinal, hstore, List.foldl_append]
  · rw [hmore, hcount, List.length_append, Nat.add_assoc]
  · rcases h'.heard entry hentry with hold | ⟨asked, hanswer⟩
    · exact h.heard entry hold
    · refine Or.inr ⟨hashes ++ asked, ?_⟩
      rw [hanswer, hstore, List.foldl_append]

/-- Loads that ended still have. -/
theorem loaded (h : Passes traffic shared later after) {outcome : Except TrieError Resolved}
    (hloaded : traffic.Loaded hash outcome) : later.Loaded hash outcome := by
  obtain ⟨events, rfl⟩ := h.run
  exact hloaded.run events

end Passes

/-- What waiting for a flight comes to: the load waits on, or it has ended with an outcome. -/
def Waits (owner : Nat) (awaited : List (Hash × Nat)) (traffic : Traffic) (shared : Shared σ)
    (hash : Hash) (flight : Nat) : Option (Except TrieError Resolved) × Shared σ → Prop
  | (none, after) => ∃ later, Passes traffic shared later after ∧
      Carried owner ((hash, flight) :: awaited) later after ∧ Pending later after hash flight
  | (some outcome, after) => ∃ later, Passes traffic shared later after ∧
      Carried owner awaited later after ∧ later.Loaded hash outcome

namespace Carried

/-- A load is served by the cache. -/
theorem hit (h : Carried owner awaited traffic shared)
    (hfound : shared.loader.lookUp hash = some (node, loader)) :
    ∃ later, Passes traffic shared later { shared with loader } ∧
      Carried owner awaited later { shared with loader } ∧ later.Loaded hash (.ok node) := by
  have hlater : traffic.run [.call hash] =
      { traffic with loader, callers := traffic.callers ++ [.served hash node] } := by
    simp [Traffic.run, Traffic.step, Traffic.call, h.loader_eq, hfound]
  have hslotted := h.slotted.run [.call hash]
  rw [hlater] at hslotted
  obtain ⟨-, hloader⟩ := Loader.lookUp_eq_some_iff.mp hfound
  refine ⟨_, .of_run hlater (fun _ _ ↦ id) rfl ?_ rfl,
    ⟨rfl, ?_, hslotted, h.landed, h.settled, ?_⟩, .served hash node,
    List.mem_append_right _ (List.mem_singleton_self _), rfl⟩
  · rw [hloader, h.loader_eq]
  · rw [hloader]
    exact h.owner_eq
  · rw [List.filterMap_append, List.filterMap_cons_none rfl, List.filterMap_nil, List.append_nil]
    exact h.waits

/-- A load that misses the cache waits for a flight. -/
theorem board (h : Carried owner awaited traffic shared) {ticket : Flight}
    (hmiss : shared.loader.lookUp hash = none)
    (hboard : shared.loader.board hash = (.wait ticket, loader)) :
    ∃ later, Passes traffic shared later { shared with loader } ∧
      Carried owner ((hash, ticket.number) :: awaited) later { shared with loader } ∧
      (hash, ticket) ∈ loader.flights := by
  have hlater : traffic.run [.call hash, .board traffic.callers.length] =
      { traffic with
        loader
        callers := traffic.callers ++ [.waiting hash ticket.number]
        fetches := if loader.installed = traffic.loader.installed then traffic.fetches
          else traffic.fetches ++ [⟨hash, .planned⟩] } := by
    simp [Traffic.run, Traffic.step, Traffic.call, Traffic.board, h.loader_eq, hmiss, hboard]
  have hslotted := h.slotted.run [.call hash, .board traffic.callers.length]
  have hwaits : ((traffic.callers ++ [Caller.waiting hash ticket.number]).filterMap
      Caller.awaited?).Perm ((hash, ticket.number) :: awaited) := by
    rw [List.filterMap_append]
    exact (List.perm_append_singleton _ _).trans (h.waits.cons _)
  have hcount : shared.loader.fetches = traffic.loader.fetches :=
    congrArg Loader.fetches h.loader_eq.symm
  rw [hlater] at hslotted
  have hjoins := hboard
  rw [Loader.board] at hjoins
  cases hflight : shared.loader.flight? hash with
  | some flight =>
      rw [hflight] at hjoins
      cases hjoins
      rw [if_pos (congrArg Loader.installed h.loader_eq.symm)] at hlater hslotted
      exact ⟨_, .of_run hlater (fun _ _ ↦ id) rfl hcount rfl,
        ⟨rfl, h.owner_eq, hslotted, h.landed, h.settled, hwaits⟩, Loader.mem_of_flight? hflight⟩
  | none =>
      rw [hflight, hmiss] at hjoins
      cases hjoins
      have hinstalls : shared.loader.installed + 1 ≠ traffic.loader.installed := by
        rw [h.loader_eq]
        exact Nat.succ_ne_self _
      rw [if_neg hinstalls] at hlater hslotted
      have hold : ∀ {number : Nat} {fetch : Fetch}, traffic.fetches[number]? = some fetch →
          (traffic.fetches ++ [⟨hash, .planned⟩])[number]? = some fetch := by
        intro number fetch hfetch
        rw [List.getElem?_append_left (List.getElem?_eq_some_iff.mp hfetch).1, hfetch]
      refine ⟨_, .of_run hlater (fun key flight hpending ↦ ?_) rfl hcount rfl,
        ⟨rfl, h.owner_eq, hslotted, ?_, ?_, hwaits⟩, List.mem_cons_self⟩
      · rcases hpending with hreading | ⟨outcome, hended, hsettled⟩
        · exact Or.inl (hold hreading)
        · exact Or.inr ⟨outcome, hold hended, hsettled⟩
      · intro fetch hfetch
        rcases List.mem_append.mp hfetch with hfetch | hfetch
        · exact h.landed fetch hfetch
        · rw [List.mem_singleton.mp hfetch]
          rfl
      · intro flight outcome hsettled
        exact (h.settled flight outcome hsettled).imp fun _ ↦ hold

omit [NodeStore σ] in
/-- A flight that gets further, but not as far as to land, leaves no flight about to land. -/
theorem landed_progress (h : Carried owner awaited traffic shared) {stage : Stage}
    (hstage : stage.isLanding = false) :
    ∀ fetch ∈ (traffic.progress flight hash stage).fetches, fetch.stage.isLanding = false := by
  intro fetch hfetch
  rcases List.mem_or_eq_of_mem_set hfetch with hold | rfl
  · exact h.landed fetch hold
  · exact hstage

omit [NodeStore σ] in
/-- The load that is awaited first waits in the traffic. -/
theorem exists_waiting (h : Carried owner ((hash, flight) :: awaited) traffic shared) :
    ∃ caller : Nat, traffic.callers[caller]? = some (Caller.waiting hash flight) := by
  have hmem := h.waits.mem_iff.mpr List.mem_cons_self
  obtain ⟨caller, hcaller, hawaited⟩ := List.mem_filterMap.mp hmem
  obtain ⟨place, hplace⟩ := List.mem_iff_getElem?.mp hcaller
  cases caller with
  | waiting key number =>
      cases hawaited
      exact ⟨place, hplace⟩
  | missed | served | handed => cases hawaited

/-- A load that waits issues the read of its flight. -/
theorem launch (h : Carried owner ((hash, flight) :: awaited) traffic shared)
    (hslot : (hash, Flight.mk flight false) ∈ shared.loader.flights) :
    let after : Shared σ := { shared with
      loader := shared.loader.launch hash
      store := NodeStore.request shared.store hash
      recent := flight :: shared.recent }
    ∃ later, Passes traffic shared later after ∧
      Carried owner ((hash, flight) :: awaited) later after ∧ Pending later after hash flight := by
  intro after
  obtain ⟨caller, hcaller⟩ := h.exists_waiting
  have hplanned : traffic.fetches[flight]? = some ⟨hash, .planned⟩ := by
    obtain ⟨stage, hstage, hissued⟩ :=
      (h.slotted.mem_iff hash flight false).mp (h.loader_eq ▸ hslot)
    cases stage with
    | planned => exact hstage
    | reading | answered | cached | ended => cases hissued
  have hlater : traffic.run [.depart caller] =
      { traffic.progress flight hash .reading with loader := shared.loader.launch hash } := by
    simp [Traffic.run, Traffic.step, Traffic.depart, hcaller, hplanned, h.loader_eq]
  have hslotted := h.slotted.run [.depart caller]
  rw [hlater] at hslotted
  have hreading : (traffic.fetches.set flight ⟨hash, .reading⟩)[flight]? =
      some ⟨hash, .reading⟩ :=
    List.getElem?_set_self (List.getElem?_eq_some_iff.mp hplanned).1
  refine ⟨_, ⟨⟨_, hlater.symm⟩, fun key number hpending ↦ ?_, ⟨[hash], rfl, ?_⟩, fun _ ↦ Or.inl⟩,
    ⟨rfl, h.owner_eq, hslotted, ?_, fun number outcome hsettled ↦ ?_, h.waits⟩, Or.inl hreading⟩
  · exact hpending.progress hplanned rfl (fun _ _ ↦ rfl) fun _ ↦ Or.inl hreading
  · rw [h.loader_eq]
    rfl
  · exact h.landed_progress rfl
  · obtain ⟨key, hended⟩ := h.settled number outcome hsettled
    refine ⟨key, (List.getElem?_set_ne ?_).trans hended⟩
    rintro rfl
    cases hplanned.symm.trans hended

/-- The read of a flight is answered, and its node goes into the cache. -/
theorem settle (h : Carried owner awaited traffic shared)
    (hreading : traffic.fetches[flight]? = some ⟨hash, .reading⟩) :
    ∃ later, Passes traffic shared later (shared.settle hash flight).2 ∧
      Carried owner awaited later (shared.settle hash flight).2 ∧
      later.fetches[flight]? = some ⟨hash, .ended (shared.settle hash flight).1⟩ := by
  let answer := NodeStore.answer shared.store hash
  let landing := shared.loader.land hash answer
  have hlt := (List.getElem?_eq_some_iff.mp hreading).1
  have hlater := Traffic.run_land hreading answer
  have hslotted := h.slotted.run [.answer flight answer, .keep flight, .release flight]
  rw [h.loader_eq] at hlater
  rw [hlater] at hslotted
  obtain ⟨howner, hcount⟩ := shared.loader.land_frame hash answer
  have hended : (traffic.fetches.set flight ⟨hash, .ended landing.1⟩)[flight]? =
      some ⟨hash, .ended landing.1⟩ :=
    List.getElem?_set_self hlt
  have hself : ((flight, landing.1) :: shared.settled).lookup flight = some landing.1 :=
    List.lookup_cons_self
  have hother : ∀ number, number ≠ flight →
      ((flight, landing.1) :: shared.settled).lookup number = shared.settled.lookup number := by
    intro number hne
    rw [List.lookup_cons, beq_eq_false_iff_ne.mpr hne]
  refine ⟨_, ⟨⟨_, hlater.symm⟩, fun key number hpending ↦ ?_, ⟨[], rfl, ?_⟩, ?_⟩,
    ⟨rfl, ?_, hslotted, ?_, fun number outcome hsettled ↦ ?_, h.waits⟩, hended⟩
  · exact hpending.progress hreading rfl hother fun _ ↦ Or.inr ⟨_, hended, hself⟩
  · rw [h.loader_eq]
    exact hcount
  · rintro entry hentry
    rcases List.mem_cons.mp hentry with rfl | hold
    · exact Or.inr ⟨[], rfl⟩
    · exact Or.inl hold
  · exact howner.trans h.owner_eq
  · exact h.landed_progress rfl
  · by_cases heq : number = flight
    · subst heq
      cases hself.symm.trans hsettled
      exact ⟨hash, hended⟩
    · obtain ⟨key, hkey⟩ := h.settled number outcome ((hother number heq).symm.trans hsettled)
      exact ⟨key, (List.getElem?_set_ne (Ne.symm heq)).trans hkey⟩

/-- A load is handed the outcome of its flight. -/
theorem deliver (h : Carried owner ((hash, flight) :: awaited) traffic shared)
    {outcome : Except TrieError Resolved}
    (hended : traffic.fetches[flight]? = some ⟨hash, .ended outcome⟩) :
    ∃ later, Passes traffic shared later shared ∧ Carried owner awaited later shared ∧
      later.Loaded hash outcome := by
  obtain ⟨caller, hcaller⟩ := h.exists_waiting
  have hlater : traffic.run [.deliver caller] =
      { traffic with callers := traffic.callers.set caller (.handed hash flight outcome) } := by
    simp [Traffic.run, Traffic.step, Traffic.deliver, hcaller, hended]
  have hslotted := h.slotted.run [.deliver caller]
  rw [hlater] at hslotted
  have hwaits := Traffic.awaited_set (.handed hash flight outcome) hcaller rfl rfl
  refine ⟨_, .of_run hlater (fun _ _ ↦ id) rfl rfl rfl,
    ⟨h.loader_eq, h.owner_eq, hslotted, h.landed, h.settled,
      (hwaits.symm.trans h.waits).cons_inv⟩, .handed hash flight outcome, ?_, rfl⟩
  exact List.mem_set (List.getElem?_eq_some_iff.mp hcaller).1 _

/-- A load that waits for a pending flight waits on, or it is handed the outcome. -/
theorem collect (h : Carried owner ((hash, flight) :: awaited) traffic shared)
    (hpending : Pending traffic shared hash flight) :
    Waits owner awaited traffic shared hash flight (shared.collect hash flight) := by
  rw [Shared.collect]
  cases hfound : shared.settled.lookup flight with
  | some outcome =>
      rcases hpending with hreading | ⟨found, hended, hsettled⟩
      · obtain ⟨key, hended⟩ := h.settled flight outcome hfound
        cases hreading.symm.trans hended
      · cases hfound.symm.trans hsettled
        exact h.deliver hended
  | none =>
      rcases hpending with hreading | ⟨found, -, hsettled⟩
      · dsimp only
        split
        · exact ⟨traffic, .refl traffic shared, h, Or.inl hreading⟩
        · obtain ⟨later, hpasses, hcarried, hended⟩ := h.settle hreading
          obtain ⟨last, hdelivers, hlast, hloaded⟩ := hcarried.deliver hended
          exact ⟨last, hpasses.trans hdelivers, hlast, hloaded⟩
      · cases hfound.symm.trans hsettled

/-- A load that has begun to wait waits on, or it is handed the outcome. -/
theorem await {ticket : Flight}
    (h : Carried owner ((hash, ticket.number) :: awaited) traffic shared)
    (hslot : (hash, ticket) ∈ shared.loader.flights) :
    Waits owner awaited traffic shared hash ticket.number (shared.await hash ticket) := by
  obtain ⟨number, issued⟩ := ticket
  rw [Shared.await]
  cases issued with
  | false => exact h.launch hslot
  | true =>
      rw [if_pos rfl]
      obtain ⟨stage, hstage, hissued⟩ :=
        (h.slotted.mem_iff hash number true).mp (h.loader_eq ▸ hslot)
      have hlanded := h.landed _ (List.mem_of_getElem? hstage)
      refine h.collect ?_
      cases stage with
      | reading => exact Or.inl hstage
      | answered | cached => cases hlanded
      | planned | ended => cases hissued

end Carried

/-! ## Turns and rounds -/

/-- Where a walk stands between two turns: what is left of it is what it reaches by the loads that
have ended, and the flight that it waits for is pending. -/
def Stands (owner : Nat) (traffic : Traffic) (shared : Shared σ) (walk : Walk α) : Turn α → Prop
  | .ready rest => rest.Reads ∧ walk.Reaches owner traffic.Loaded rest
  | .waiting hash flight next => (∀ node, (next node).Reads) ∧
      walk.Reaches owner traffic.Loaded (.load owner hash next) ∧ Pending traffic shared hash flight
  | .finished outcome => walk.Reaches owner traffic.Loaded (.ended outcome)

/-- A walk stands where it did while others go on. -/
theorem Stands.mono {walk : Walk α} {turn : Turn α} (h : Stands owner traffic shared walk turn)
    (hpasses : Passes traffic shared later after) : Stands owner later after walk turn := by
  cases turn with
  | ready rest => exact ⟨h.1, h.2.mono fun _ _ ↦ hpasses.loaded⟩
  | waiting hash flight next =>
      exact ⟨h.1, h.2.1.mono fun _ _ ↦ hpasses.loaded, hpasses.pending hash flight h.2.2⟩
  | finished outcome => exact Walk.Reaches.mono h fun _ _ ↦ hpasses.loaded

/-- What a turn of a walk comes to: the traffic goes on by some steps, and the walk stands somewhere
else. -/
def Turns (owner : Nat) (awaited : List (Hash × Nat)) (traffic : Traffic) (shared : Shared σ)
    (walk : Walk α) : Turn α × Shared σ → Prop
  | (turn, after) => ∃ later, Passes traffic shared later after ∧
      Carried owner (turn.awaited?.toList ++ awaited) later after ∧
      Stands owner later after walk turn

/-- What turns of several walks come to. -/
def Rounds (owner : Nat) (awaited : List (Hash × Nat)) (traffic : Traffic) (shared : Shared σ)
    (walks : List (Walk α)) : List (Turn α) × Shared σ → Prop
  | (turns, after) => ∃ later, Passes traffic shared later after ∧
      Carried owner (turns.filterMap Turn.awaited? ++ awaited) later after ∧
      List.Forall₂ (Stands owner later after) walks turns

namespace Carried

variable {walk rest : Walk α}

/-- What a turn comes to after some steps it comes to from before them. -/
theorem turns_of_passes {turned : Turn α × Shared σ} (hpasses : Passes traffic shared later after)
    (h : Turns owner awaited later after walk turned) :
    Turns owner awaited traffic shared walk turned := by
  obtain ⟨last, hlast, hcarried, hstands⟩ := h
  exact ⟨last, hpasses.trans hlast, hcarried, hstands⟩

/-- A walk goes on until it has to wait or ends. -/
theorem advance (h : Carried owner awaited traffic shared) (hreads : rest.Reads)
    (hreaches : walk.Reaches owner traffic.Loaded rest) :
    Turns owner awaited traffic shared walk (shared.advance rest) := by
  induction rest generalizing traffic shared with
  | done result => exact ⟨traffic, .refl traffic shared, h, hreaches⟩
  | fail failure => exact ⟨traffic, .refl traffic shared, h, hreaches⟩
  | fresh => exact hreads.elim
  | load home hash next ih =>
      rw [Shared.advance]
      split
      · rename_i hhome
        obtain rfl : home = owner := hhome.trans h.owner_eq
        cases hfound : shared.loader.lookUp hash with
        | some found =>
            obtain ⟨later, hpasses, hcarried, hloaded⟩ := h.hit hfound
            refine turns_of_passes hpasses (ih _ hcarried (hreads _) (.found ?_ hloaded))
            exact hreaches.mono fun _ _ ↦ hpasses.loaded
        | none =>
            obtain ⟨ticket, loader, hboard, -, -⟩ := Loader.board_of_miss hfound
            obtain ⟨later, hpasses, hcarried, hslot⟩ := h.board hfound hboard
            have hwaits := hcarried.await hslot
            rw [hboard]
            dsimp only
            generalize Shared.await { shared with loader } hash ticket = awaits at hwaits ⊢
            obtain ⟨_ | error | node, after⟩ := awaits
            · obtain ⟨last, hlast, hcarried, hpending⟩ := hwaits
              refine ⟨last, hpasses.trans hlast, hcarried, hreads, ?_, hpending⟩
              exact hreaches.mono fun _ _ ↦ (hpasses.trans hlast).loaded
            · obtain ⟨last, hlast, hcarried, hloaded⟩ := hwaits
              have hgone := hreaches.mono fun _ _ ↦ (hpasses.trans hlast).loaded
              exact ⟨last, hpasses.trans hlast, hcarried, hgone.failed hloaded⟩
            · obtain ⟨last, hlast, hcarried, hloaded⟩ := hwaits
              refine turns_of_passes (hpasses.trans hlast)
                (ih node hcarried (hreads node) (.found ?_ hloaded))
              exact hreaches.mono fun _ _ ↦ (hpasses.trans hlast).loaded
      · rename_i hhome
        rw [h.owner_eq] at hhome
        exact ⟨traffic, .refl traffic shared, h, .dropped hhome hreaches⟩

/-- One turn of a walk. -/
theorem turn {turn : Turn α} (h : Carried owner (turn.awaited?.toList ++ awaited) traffic shared)
    (hstands : Stands owner traffic shared walk turn) :
    Turns owner awaited traffic shared walk (shared.turn turn) := by
  cases turn with
  | ready rest => exact h.advance hstands.1 hstands.2
  | finished outcome => exact ⟨traffic, .refl traffic shared, h, hstands⟩
  | waiting hash flight next =>
      obtain ⟨hreads, hreaches, hpending⟩ := hstands
      have hwaits : Waits owner awaited traffic shared hash flight (shared.collect hash flight) :=
        collect h hpending
      rw [Shared.turn]
      generalize shared.collect hash flight = collected at hwaits ⊢
      obtain ⟨_ | error | node, after⟩ := collected
      · obtain ⟨later, hpasses, hcarried, hpending⟩ := hwaits
        refine ⟨later, hpasses, hcarried, hreads, ?_, hpending⟩
        exact hreaches.mono fun _ _ ↦ hpasses.loaded
      · obtain ⟨later, hpasses, hcarried, hloaded⟩ := hwaits
        have hgone := hreaches.mono fun _ _ ↦ hpasses.loaded
        exact ⟨later, hpasses, hcarried, hgone.failed hloaded⟩
      · obtain ⟨later, hpasses, hcarried, hloaded⟩ := hwaits
        refine turns_of_passes hpasses (hcarried.advance (hreads node) (.found ?_ hloaded))
        exact hreaches.mono fun _ _ ↦ hpasses.loaded

omit [NodeStore σ] in
/-- The loads that wait count in any order. -/
theorem perm {others : List (Hash × Nat)} (h : Carried owner awaited traffic shared)
    (hperm : awaited.Perm others) : Carried owner others traffic shared :=
  { h with waits := h.waits.trans hperm }

/-- One turn of each walk. -/
theorem turns {walks : List (Walk α)} {turns : List (Turn α)}
    (h : Carried owner (turns.filterMap Turn.awaited? ++ awaited) traffic shared)
    (hstands : List.Forall₂ (Stands owner traffic shared) walks turns) :
    Rounds owner awaited traffic shared walks (shared.turns turns) := by
  induction turns generalizing traffic shared awaited walks with
  | nil =>
      cases hstands
      exact ⟨traffic, .refl traffic shared, h, .nil⟩
  | cons turn turns ih =>
      cases hstands with
      | @cons walk _ walks _ hfirst hrest =>
          rw [Turn.filterMap_awaited_cons, List.append_assoc] at h
          obtain ⟨later, hpasses, hcarried, hturned⟩ := h.turn hfirst
          -- The other walks stand where they did, and wait beside this one.
          obtain ⟨last, hlast, hcarried, hothers⟩ :=
            ih (hcarried.perm (List.perm_append_comm_assoc _ _ _))
              (hrest.imp fun _ _ hstands ↦ hstands.mono hpasses)
          refine ⟨last, hpasses.trans hlast, hcarried.perm ?_, .cons (hturned.mono hlast) hothers⟩
          rw [Turn.filterMap_awaited_cons, List.append_assoc]
          exact (List.perm_append_comm_assoc _ _ _)

/-- A number of rounds. -/
theorem rounds {walks : List (Walk α)} {turns : List (Turn α)}
    (h : Carried owner (turns.filterMap Turn.awaited? ++ awaited) traffic shared)
    (hstands : List.Forall₂ (Stands owner traffic shared) walks turns) (count : Nat) :
    Rounds owner awaited traffic shared walks (shared.rounds count turns) := by
  induction count generalizing traffic shared turns with
  | zero => exact ⟨traffic, .refl traffic shared, h, hstands⟩
  | succ count ih =>
      rw [Shared.rounds]
      split
      · exact ⟨traffic, .refl traffic shared, h, hstands⟩
      · -- That flights are no longer of this round is no step of the traffic.
        have hrenew : Passes traffic shared traffic { shared with recent := [] } :=
          .of_run (show traffic.run [] = traffic from rfl) (fun _ _ ↦ id) rfl rfl rfl
        have hcarried : Carried owner (turns.filterMap Turn.awaited? ++ awaited) traffic
            { shared with recent := [] } :=
          ⟨h.loader_eq, h.owner_eq, h.slotted, h.landed, h.settled, h.waits⟩
        obtain ⟨later, hpasses, hturned, hstood⟩ :=
          hcarried.turns (hstands.imp fun _ _ hstands ↦ hstands.mono hrenew)
        obtain ⟨last, hlast, hends, hstops⟩ := ih hturned hstood
        exact ⟨last, (hrenew.trans hpasses).trans hlast, hends, hstops⟩

end Carried

end Shared

/-! ## Any number of rounds -/

open Shared (Carried Stands)

/-- These steps are what walks have done that took turns, and that came to these outcomes with this
loader and store. -/
structure Traffic.Enacts (traffic : Traffic) (events : List Event) (store : σ)
    (walks : List (Walk α)) (ran : List (Option (Except Failure α)) × Loader × σ) : Prop where
  loader_eq : (traffic.run events).loader = ran.2.1
  /-- The store was asked once for each read that was counted. -/
  asked : ∃ hashes : List Hash, ran.2.2 = hashes.foldl NodeStore.request store ∧
    ran.2.1.fetches = traffic.loader.fetches + hashes.length
  /-- Each new answer is the store's, after some of these reads. -/
  heard : ∀ entry ∈ (traffic.run events).answers, entry ∈ traffic.answers ∨
    ∃ hashes : List Hash, entry.2 = NodeStore.answer (hashes.foldl NodeStore.request store) entry.1
  /-- A walk that has ended has ended as it does if its loads end as they did. -/
  ended : List.Forall₂ (fun walk outcome? ↦ ∀ outcome ∈ outcome?,
    walk.Reaches traffic.loader.owner (traffic.run events).Loaded (.ended outcome)) walks ran.1

namespace Loader

/-- What walks do that take turns, in any number of rounds, they do by steps of loads that run at
once. -/
theorem runTurns_eq_run {traffic : Traffic} (hslotted : traffic.Slotted)
    (hlanded : ∀ fetch ∈ traffic.fetches, fetch.stage.isLanding = false) (store : σ)
    {walks : List (Walk α)} (hreads : ∀ walk ∈ walks, walk.Reads) (count : Nat) :
    ∃ events, traffic.Enacts events store walks (traffic.loader.runTurns store count walks) := by
  let shared : Shared σ := ⟨traffic.loader, store, [], []⟩
  have hcarried : Carried traffic.loader.owner
      ((walks.map Turn.ready).filterMap Turn.awaited? ++ traffic.callers.filterMap Caller.awaited?)
      traffic shared := by
    rw [Turn.filterMap_awaited_ready, List.nil_append]
    exact ⟨rfl, rfl, hslotted, hlanded, fun _ _ hnone ↦ (nomatch hnone), .refl _⟩
  have hready : List.Forall₂ (Stands traffic.loader.owner traffic shared) walks
      (walks.map Turn.ready) := by
    rw [List.forall₂_map_right_iff, List.forall₂_same]
    exact fun walk hwalk ↦ ⟨hreads walk hwalk, .start⟩
  obtain ⟨later, hpasses, hend, hstands⟩ := hcarried.rounds hready count
  obtain ⟨events, rfl⟩ := hpasses.run
  obtain ⟨hashes, hstore, hcount⟩ := hpasses.asked
  refine ⟨events, hend.loader_eq, ⟨hashes, hstore, ?_⟩, hpasses.heard, ?_⟩
  · rw [← hcount, hend.loader_eq]
    rfl
  · refine List.forall₂_map_right_iff.mpr (hstands.imp fun walk turn hturn outcome houtcome ↦ ?_)
    cases turn with
    | ready | waiting => cases houtcome
    | finished =>
        cases houtcome
        exact hturn

/-- The loads of walks that take turns over a new loader share flights, and each node that one of
them goes on with is what the store answered a read with. -/
theorem runTurns_singleFlight (owner : Nat) (settings : Settings) (store : σ)
    {walks : List (Walk α)} (hreads : ∀ walk ∈ walks, walk.Reads) (count : Nat) :
    let traffic := Traffic.start owner settings
    ∃ events, (traffic.run events).SingleFlight ∧
      traffic.Enacts events store walks (traffic.loader.runTurns store count walks) := by
  intro traffic
  have hslotted : traffic.Slotted := .start owner settings
  have htruthful : traffic.Truthful := .start owner settings
  obtain ⟨events, henacts⟩ :=
    runTurns_eq_run hslotted (fun _ hnone ↦ nomatch hnone) store hreads count
  exact ⟨events, .of_slotted (hslotted.run events) (htruthful.run hslotted events), henacts⟩

/-- So it is with the lookups of several keys. -/
theorem lookups_singleFlight [TrieValue α] (owner : Nat) (settings : Settings) (store : σ)
    (root : Node) (keys : List Bytes) (count : Nat) :
    let traffic := Traffic.start owner settings
    let walks := keys.map fun key ↦ (root.read key : Walk (Option α))
    ∃ events, (traffic.run events).SingleFlight ∧
      traffic.Enacts events store walks (traffic.loader.runTurns store count walks) := by
  refine runTurns_singleFlight owner settings store (fun walk hwalk ↦ ?_) count
  obtain ⟨key, -, rfl⟩ := List.mem_map.mp hwalk
  exact root.reads_read key

/-- Two lookups of one key wait for one read, and both find the value in the second round. -/
example :
    let leaf := Node.leafForm (Bytes.nibbles [0x01]) [0x07]
    let store := MemoryStore.ofEntries [(keccak256 leaf, leaf)]
    let root := Node.stored ⟨0, 0, [], none⟩ (keccak256 leaf)
    let ran := (Loader.new 0 1 Nat.one_pos).runTurns store 2 [root.read [0x01], root.read [0x01]]
    ran.1 = [some (.ok (some ([0x07] : Bytes))), some (.ok (some [0x07]))] ∧
      ran.2.1.fetches = 1 ∧ ran.2.1.joined = 1 := by
  decide +kernel

end Loader

end Patricia
