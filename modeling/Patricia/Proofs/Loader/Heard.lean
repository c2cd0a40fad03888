import Patricia.Loader.Load
import Patricia.Proofs.Walk.Meets

/-!
# What a loader hears from a store

`Walk.heard` lists the answers that a walk takes from a store on its way, each with the hash that
was asked for. Nothing is supposed of the store here: it may answer the same read differently each
time. If the service may hand out every node that is in one of these answers, a walk that meets a
guarantee ends as guaranteed, or with the failure that such an answer comes to
(`Walk.run_concludes`). Since a node stays in the cache until the next load, a hash that is loaded
twice in a row gives one node.
-/

namespace Patricia

/-- What a read is answered with. -/
abbrev Answer := Except TrieError (Option Bytes)

namespace Loader

variable {hash : Hash} {answer : Answer}

/-- What is judged to be a node was read from bytes with the hash. -/
theorem judge_eq_ok {read : Resolved} (h : judge hash answer = .ok read) :
    ∃ bytes, answer = .ok (some bytes) ∧ keccak256 bytes = hash ∧ Node.decode bytes = .ok read := by
  rcases answer with error | _ | bytes
  · cases h
  · cases h
  · rw [judge] at h
    split at h
    · rename_i hhash
      cases hread : Node.decode bytes with
      | ok node =>
          rw [hread] at h
          cases h
          exact ⟨bytes, rfl, hhash, hread⟩
      | error cause =>
          rw [hread] at h
          cases h
    · cases h

end Loader

/-! ## The cache -/

namespace Recency

variable {cache : Recency} {hash : Hash} {node : Resolved} {entry : Hash × Resolved}

/-- What is found is an entry. -/
theorem mem_of_peek? (h : cache.peek? hash = some node) : (hash, node) ∈ cache.entries := by
  obtain ⟨before, after, heq, -⟩ := List.lookup_eq_some_iff.mp h
  rw [heq]
  exact List.mem_append_right _ List.mem_cons_self

/-- An entry after putting a node is the node or was one before. -/
theorem mem_put (h : entry ∈ (cache.put hash node).entries) :
    entry = (hash, node) ∨ entry ∈ cache.entries := by
  rcases List.mem_cons.mp (List.mem_of_mem_take h) with heq | hmem
  · exact Or.inl heq
  · exact Or.inr (List.mem_filter.mp hmem).1

/-- An entry after dropping a node was one before. -/
theorem mem_evict (h : entry ∈ (cache.evict hash).entries) : entry ∈ cache.entries :=
  (List.mem_filter.mp h).1

end Recency

/-- All nodes in a loader's cache were given out by its owner and may be handed out by a service. -/
structure Loader.Serves (loader : Loader) (service : Service) : Prop where
  owner_eq : loader.owner = service.owner
  issued : ∀ entry ∈ loader.cache.entries,
    entry.2.val.Issued loader.owner loader.mint.next
  served : ∀ entry ∈ loader.cache.entries, service.served entry.1 entry.2.val

/-- A service may hand out the node that is in an answer, if it is asked for the hash. -/
def Service.Takes (service : Service) (hash : Hash) (answer : Answer) : Prop :=
  ∀ {node}, service.asked hash → Loader.judge hash answer = .ok node →
    ∀ owner serial, service.served hash (node.issue owner serial).val

variable {σ : Type} [NodeStore σ] {α : Type} {service : Service} {loader : Loader} {store : σ}
  {hash : Hash}

namespace Loader

/-- A look into the cache gives the cached node, as its most recent one, and is counted. -/
theorem lookUp_eq_some_iff {node : Resolved} {later : Loader} :
    loader.lookUp hash = some (node, later) ↔ loader.cache.peek? hash = some node ∧
      later = { loader with cache := loader.cache.put hash node, hits := loader.hits + 1 } := by
  simp only [lookUp, Recency.touch, Option.map_map, Option.map_eq_some_iff, Function.comp_apply,
    Prod.mk.injEq]
  constructor
  · rintro ⟨found, hpeek, rfl, rfl⟩
    exact ⟨hpeek, rfl⟩
  · rintro ⟨hpeek, rfl⟩
    exact ⟨node, hpeek, rfl, rfl⟩

namespace Serves

/-- A loader with an empty cache serves its owner, whatever the service may be. -/
theorem new {owner capacity : Nat} {hpos : 0 < capacity} (howner : service.owner = owner) :
    (Loader.new owner capacity hpos).Serves service :=
  ⟨howner.symm, nofun, nofun⟩

/-- Stamps can be given out. -/
theorem advance (h : loader.Serves service) {later : Loader} (hcache : later.cache = loader.cache)
    (howner : later.owner = loader.owner) (hle : loader.mint.next ≤ later.mint.next) :
    later.Serves service := by
  refine ⟨howner.trans h.owner_eq, ?_, ?_⟩
  · rw [hcache, howner]
    exact fun entry hentry ↦ (h.issued entry hentry).mono hle
  · rw [hcache]
    exact h.served

/-- A node that may be handed out can be put into the cache. -/
theorem retain (h : loader.Serves service) {node : Resolved}
    (hissued : node.val.Issued loader.owner loader.mint.next)
    (hserved : service.served hash node.val) : (loader.retain hash node).Serves service := by
  refine ⟨h.owner_eq, fun entry hentry ↦ ?_, fun entry hentry ↦ ?_⟩
  · rcases Recency.mem_put hentry with rfl | hmem
    · exact hissued
    · exact h.issued entry hmem
  · rcases Recency.mem_put hentry with rfl | hmem
    · exact hserved
    · exact h.served entry hmem

/-- Nodes can be dropped from the cache. -/
theorem evict (h : loader.Serves service) (hash : Hash) : (loader.evict hash).Serves service :=
  ⟨h.owner_eq, fun entry hentry ↦ h.issued entry (Recency.mem_evict hentry),
    fun entry hentry ↦ h.served entry (Recency.mem_evict hentry)⟩

/-- What the cache answers may be handed out. -/
theorem lookUp (h : loader.Serves service) {node : Resolved} {later : Loader}
    (hfound : loader.lookUp hash = some (node, later)) :
    later.Serves service ∧ later.mint = loader.mint ∧
      node.val.Issued loader.owner loader.mint.next ∧ service.served hash node.val := by
  obtain ⟨hpeek, rfl⟩ := lookUp_eq_some_iff.mp hfound
  have hmem := Recency.mem_of_peek? hpeek
  have hissued := h.issued _ hmem
  have hserved := h.served _ hmem
  exact ⟨(h.retain hissued hserved).advance rfl rfl (Nat.le_refl _), rfl, hissued, hserved⟩

end Serves

/-- What a look into the cache gives is an entry, and all entries then were entries before. -/
theorem lookUp_entries {node : Resolved} {later : Loader}
    (h : loader.lookUp hash = some (node, later)) :
    (hash, node) ∈ loader.cache.entries ∧
      (∀ entry ∈ later.cache.entries, entry ∈ loader.cache.entries) ∧
      later.flights = loader.flights ∧ later.installed = loader.installed := by
  obtain ⟨hpeek, rfl⟩ := lookUp_eq_some_iff.mp h
  have hmem := Recency.mem_of_peek? hpeek
  refine ⟨hmem, fun entry hentry ↦ ?_, rfl, rfl⟩
  rcases Recency.mem_put hentry with rfl | hold
  · exact hmem
  · exact hold

/-- An answer touches neither the flights nor the cache. -/
theorem receive_frame (loader : Loader) (hash : Hash) (answer : Answer) :
    (loader.receive hash answer).2.flights = loader.flights ∧
      (loader.receive hash answer).2.installed = loader.installed ∧
      (loader.receive hash answer).2.cache = loader.cache := by
  rw [receive]
  cases judge hash answer with
  | error error => exact ⟨rfl, rfl, rfl⟩
  | ok node => exact ⟨rfl, rfl, rfl⟩

/-- The end of a flight reaches the cache before it reaches the flights. -/
theorem keep_frame (loader : Loader) (hash : Hash) (outcome : Except TrieError Resolved) :
    (loader.keep hash outcome).flights = loader.flights ∧
      (loader.keep hash outcome).installed = loader.installed := by
  cases outcome with
  | error error => exact ⟨rfl, rfl⟩
  | ok node => exact ⟨rfl, rfl⟩

/-- Landing takes the slot for the hash away and no other one. -/
theorem land_flights (loader : Loader) (hash : Hash) (answer : Answer) :
    (loader.land hash answer).2.flights = loader.flights.filter (·.1 ≠ hash) := by
  show ((loader.receive hash answer).2.keep hash _).flights.filter _ = _
  rw [(keep_frame _ _ _).1, (loader.receive_frame hash answer).1]

/-! ## One load -/

/-- The answer that a load takes from the store, if the cache has no node for it. -/
def heard (loader : Loader) (store : σ) (hash : Hash) : Option Answer :=
  match loader.lookUp hash with
  | some _ => none
  | none =>
      match loader.board hash with
      | (.found _, _) => none
      | (.wait flight, _) =>
          some (NodeStore.answer (if flight.issued then store else NodeStore.request store hash)
            hash)

/-- A load that misses the cache waits for a flight. -/
theorem board_of_miss (hmiss : loader.lookUp hash = none) :
    ∃ flight later, loader.board hash = (.wait flight, later) ∧
      later.cache = loader.cache ∧ later.mint = loader.mint := by
  rw [board]
  cases loader.flight? hash with
  | some flight => exact ⟨flight, _, rfl, rfl, rfl⟩
  | none =>
      rw [hmiss]
      exact ⟨⟨loader.installed, false⟩, _, rfl, rfl, rfl⟩

/-- A load that misses the cache while no flight is under way installs one. -/
theorem board_of_idle (hidle : loader.flights = []) (hmiss : loader.lookUp hash = none) :
    loader.board hash = (.wait ⟨loader.installed, false⟩, { loader with
      flights := [(hash, ⟨loader.installed, false⟩)]
      installed := loader.installed + 1 }) := by
  rw [board, flight?, hidle, hmiss]
  rfl

/-- A load that misses the cache hears an answer and lands with it. Whether its read was issued
before or is issued now makes no other difference. -/
theorem load_of_miss (store : σ) (hmiss : loader.lookUp hash = none) :
    ∃ waiting : Loader, ∃ after : σ, waiting.cache = loader.cache ∧ waiting.mint = loader.mint ∧
      (after = store ∨ after = NodeStore.request store hash) ∧
      loader.heard store hash = some (NodeStore.answer after hash) ∧
      loader.load store hash = ((waiting.land hash (NodeStore.answer after hash)).1,
        (waiting.land hash (NodeStore.answer after hash)).2, after) := by
  obtain ⟨flight, later, hboard, hcache, hmint⟩ := board_of_miss hmiss
  rw [heard, load, hmiss, hboard]
  cases hissued : flight.issued with
  | true => exact ⟨later, store, hcache, hmint, Or.inl rfl, by simp [hissued], by simp [hissued]⟩
  | false =>
      exact ⟨later.launch hash, NodeStore.request store hash, hcache, hmint, Or.inr rfl,
        by simp [hissued], by simp [hissued]⟩

/-- A load of a cached node gives that node and asks the store for nothing. -/
theorem load_of_hit {node : Resolved} {later : Loader} (store : σ)
    (hfound : loader.lookUp hash = some (node, later)) :
    loader.load store hash = (.ok node, later, store) ∧ loader.heard store hash = none := by
  rw [load, heard, hfound]
  exact ⟨rfl, rfl⟩

/-- How a load may end: with a node that may be handed out and that is now cached, or with the
failure that the answer comes to. The loader is as good as before. -/
def LoadsWell (service : Service) (bound : Nat) (hash : Hash) (heard : Option Answer) :
    Except TrieError Resolved × Loader → Prop
  | (outcome, loader) =>
      loader.Serves service ∧ bound ≤ loader.mint.next ∧
        match outcome with
        | .ok node => node.val.Issued service.owner loader.mint.next ∧
            service.served hash node.val ∧ loader.cache.peek? hash = some node
        | .error error => ∃ answer, heard = some answer ∧ judge hash answer = .error error

/-- Landing ends well, whatever the flights are. -/
theorem land_loadsWell {answer : Answer} (htakes : service.Takes hash answer)
    (hasked : service.asked hash) (h : loader.Serves service) :
    LoadsWell service loader.mint.next hash (some answer) (loader.land hash answer) := by
  simp only [land, receive]
  cases hjudge : judge hash answer with
  | error error => exact ⟨h.advance rfl rfl (Nat.le_refl _), Nat.le_refl _, answer, rfl, hjudge⟩
  | ok node =>
      have hissued : (node.issue loader.mint.owner loader.mint.next).val.Issued loader.owner
          (loader.mint.next + 1) := Node.issued_issue _ _ _
      have hserved := htakes hasked hjudge loader.mint.owner loader.mint.next
      have hnext : loader.issue.2.Serves service := h.advance rfl rfl (Nat.le_succ _)
      refine ⟨?_, Nat.le_succ _, ?_, hserved, Recency.peek?_put_self _ _ _⟩
      · exact (hnext.retain hissued hserved).advance rfl rfl (Nat.le_refl _)
      · rw [← h.owner_eq]
        exact hissued

/-- A load ends well if the service may hand out what the answer has. -/
theorem load_loadsWell
    (htakes : ∀ answer, loader.heard store hash = some answer → service.Takes hash answer)
    (hasked : service.asked hash) (h : loader.Serves service) :
    LoadsWell service loader.mint.next hash (loader.heard store hash)
      ((loader.load store hash).1, (loader.load store hash).2.1) := by
  cases hfound : loader.lookUp hash with
  | some found =>
      obtain ⟨node, later⟩ := found
      obtain ⟨hserves, hmint, hissued, hserved⟩ := h.lookUp hfound
      rw [(load_of_hit store hfound).1]
      refine ⟨hserves, Nat.le_of_eq (congrArg Mint.next hmint.symm), ?_, hserved, ?_⟩
      · rw [hmint, ← h.owner_eq]
        exact hissued
      · obtain ⟨-, rfl⟩ := lookUp_eq_some_iff.mp hfound
        exact Recency.peek?_put_self _ _ _
  | none =>
      obtain ⟨waiting, after, hcache, hmint, -, hheard, hload⟩ := load_of_miss store hfound
      have hwaiting : waiting.Serves service := h.advance hcache (congrArg Mint.owner hmint)
        (Nat.le_of_eq (congrArg Mint.next hmint.symm))
      rw [hload, hheard, ← hmint]
      exact land_loadsWell (htakes _ hheard) hasked hwaiting

/-- A load of a cached hash gives the cached node. -/
theorem load_of_cached {node : Resolved} (hcached : loader.cache.peek? hash = some node) :
    (loader.load store hash).1 = .ok node := by
  rw [(load_of_hit store (lookUp_eq_some_iff.mpr ⟨hcached, rfl⟩)).1]

end Loader

/-! ## Walks -/

namespace Walk

variable {post : Nat → α → Prop} {bound : Nat} {walk : Walk α}

/-- The answers that a walk takes from the store, with the hashes that were asked for. -/
def heard (loader : Loader) (store : σ) : Walk α → List (Hash × Answer)
  | .done _ | .fail _ => []
  | .fresh next => heard loader.issue.2 store (next loader.issue.1)
  | .load home hash next =>
      if home = loader.owner then
        (loader.heard store hash).toList.map (hash, ·) ++
          match loader.load store hash with
          | (.ok node, loader, store) => heard loader store (next node)
          | (.error _, _, _) => []
      else []

/-- How a walk may end: as guaranteed, or with the failure that an answer comes to. The loader is as
good as before. -/
def Concludes (service : Service) (post : Nat → α → Prop) (bound : Nat)
    (heard : List (Hash × Answer)) : Except Failure α × Loader → Prop
  | (outcome, loader) =>
      loader.Serves service ∧ bound ≤ loader.mint.next ∧
        match outcome with
        | .ok result => post loader.mint.next result
        | .error failure => ∃ entry ∈ heard, ∃ error, service.asked entry.1 ∧
            Loader.judge entry.1 entry.2 = .error error ∧ failure = .error error

omit [NodeStore σ] in
/-- An end that may be after more stamps and fewer answers may be after fewer stamps and more
answers. -/
theorem Concludes.mono {later : Nat} {heard more : List (Hash × Answer)}
    {ended : Except Failure α × Loader} (h : Concludes service post later heard ended)
    (hle : bound ≤ later) (hmore : heard ⊆ more) : Concludes service post bound more ended := by
  obtain ⟨outcome, loader⟩ := ended
  obtain ⟨hserves, hlater, houtcome⟩ := h
  refine ⟨hserves, Nat.le_trans hle hlater, ?_⟩
  cases outcome with
  | ok result => exact houtcome
  | error failure =>
      obtain ⟨entry, hmem, herror⟩ := houtcome
      exact ⟨entry, hmore hmem, herror⟩

/-- A walk that meets a guarantee after some node ends well if that node is cached, and the service
may hand out what the answers have. -/
theorem MeetsAfter.run_concludes {recent : Option (Hash × Resolved)}
    (h : walk.MeetsAfter service post recent loader.mint.next)
    (hserves : loader.Serves service)
    (hrecent : ∀ hash node, recent = some (hash, node) → loader.cache.peek? hash = some node)
    (htakes : ∀ entry ∈ walk.heard loader store, service.Takes entry.1 entry.2) :
    Concludes service post loader.mint.next (walk.heard loader store)
      ((walk.run loader store).1, (walk.run loader store).2.1) := by
  induction walk generalizing loader store recent with
  | done result => exact ⟨hserves, Nat.le_refl _, h⟩
  | fail failure => exact h.elim
  | fresh next ih =>
      rw [MeetsAfter, ← hserves.owner_eq] at h
      have hnext : loader.issue.2.Serves service := hserves.advance rfl rfl (Nat.le_succ _)
      exact (ih _ h hnext hrecent htakes).mono (Nat.le_succ _) (List.Subset.refl _)
  | load home hash next ih =>
      obtain ⟨hhome, hasked, hnext⟩ := h
      have hown : home = loader.owner := hhome.trans hserves.owner_eq.symm
      rw [heard, if_pos hown] at htakes ⊢
      rw [run, if_pos hown]
      have hmem : ∀ answer, loader.heard store hash = some answer →
          (hash, answer) ∈ (loader.heard store hash).toList.map (hash, ·) := by
        intro answer hanswer
        rw [hanswer]
        exact List.mem_singleton_self _
      have hload : Loader.LoadsWell service loader.mint.next hash (loader.heard store hash)
          ((loader.load store hash).1, (loader.load store hash).2.1) :=
        Loader.load_loadsWell
          (fun answer hanswer ↦ htakes _ (List.mem_append_left _ (hmem answer hanswer))) hasked
          hserves
      -- What was loaded last is cached, so it is what the load gives if it is asked for again.
      have hsame : ∀ known, recent = some (hash, known) →
          (loader.load store hash).1 = .ok known :=
        fun known hknown ↦ Loader.load_of_cached (hrecent hash known hknown)
      generalize loader.load store hash = loaded at hload hsame htakes ⊢
      obtain ⟨outcome, later, after⟩ := loaded
      obtain ⟨hlater, hle, houtcome⟩ := hload
      cases outcome with
      | ok node =>
          obtain ⟨hissued, hserved, hcached⟩ := houtcome
          have hmeets := hnext node _ hle hissued hserved fun known hknown ↦
            Except.ok.inj (hsame known hknown)
          refine (ih node hmeets hlater ?_ fun entry hentry ↦
            htakes entry (List.mem_append_right _ hentry)).mono hle
              (List.subset_append_right _ _)
          rintro _ _ ⟨⟩
          exact hcached
      | error error =>
          obtain ⟨answer, hanswer, hjudge⟩ := houtcome
          exact ⟨hlater, hle, (hash, answer), List.mem_append_left _ (hmem answer hanswer), error,
            hasked, hjudge, rfl⟩

/-- A walk that meets a guarantee ends as guaranteed or with the failure that an answer comes to, if
the service may hand out what the answers have. -/
theorem run_concludes (h : walk.Meets service post loader.mint.next)
    (hserves : loader.Serves service)
    (htakes : ∀ entry ∈ walk.heard loader store, service.Takes entry.1 entry.2) :
    Concludes service post loader.mint.next (walk.heard loader store)
      ((walk.run loader store).1, (walk.run loader store).2.1) :=
  MeetsAfter.run_concludes h hserves nofun htakes

end Walk

end Patricia
