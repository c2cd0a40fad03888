import Patricia.Proofs.Store.Fitful
import Patricia.Proofs.Trie.Authentic

/-!
# Tries over a store that fails at times

A trie over a store in memory receives requests while the store is in any moods: reads fail or find
nothing, and lists of entries go in only in part. The trie then still keeps the ledger of the
changes that succeeded (`BackedTrie.Endures`). A request that fails leaves the root as it is, and it
fails only if a tick during the request is a bad one. A request that succeeds is answered as by the
trie in memory that received the changes which succeeded, and what a commit gives can be read from
the store (`Session.after_recovers`).
-/

namespace Patricia

variable {α β : Type} [TrieValue α]

/-- The reply to a request that a map with the ledger's entries gives. -/
def Ledger.reply (ledger : Ledger α) : Request α → Reply α
  | .change _ | .unload _ | .unloadRoot => .done
  | .get key => .value (ledger.lookup key)
  | .commit | .reopen .. => .hash (keccak256 ledger.table.form)

/-- A trie in memory gives the reply of the ledger it keeps. -/
theorem MemoryTrie.Keeps.handle {memory : MemoryTrie} {ledger : Ledger α}
    (h : memory.Keeps ledger) (request : Request α) :
    ∃ later, memory.handle request = .ok (ledger.reply request, later) := by
  cases request with
  | change change =>
      obtain ⟨changed, hchange, -⟩ := h.change change
      rw [MemoryTrie.handle, hchange]
      exact ⟨changed, rfl⟩
  | get key =>
      rw [MemoryTrie.handle, h.find?_eq]
      exact ⟨memory, rfl⟩
  | commit | reopen =>
      rw [MemoryTrie.handle, h.rootHash_eq]
      exact ⟨memory, rfl⟩
  | unload | unloadRoot => exact ⟨memory, rfl⟩

namespace BackedTrie

variable {known : Bytes → Prop} {trie : BackedTrie} {store : FitfulStore} {ledger : Ledger α}

/-- A trie keeps a ledger over what a store that fails at times has. The entries there are genuine,
and the trie's loader has no flight under way. -/
structure Endures (known : Bytes → Prop) (trie : BackedTrie) (store : FitfulStore)
    (ledger : Ledger α) : Prop where
  keeps : trie.Keeps store.nodes.get? ledger
  authentic : store.nodes.Authentic known
  idle : trie.loader.flights = []

/-- A trie that is opened on the hash, over what is in the store, keeps the ledger. -/
def Reopens (ledger : Ledger α) (store : MemoryStore) (hash : Hash) : Prop :=
  ∀ owner (settings : Settings),
    (openAt (.new owner settings.cacheCapacity settings.positive) hash).Keeps store.get? ledger

/-- How a request may go. It leaves the ledger as it is, unless it is a change that succeeds. If it
succeeds the reply is that of the ledger, and a hash can be opened. It fails only if some tick in
between is a bad one, and then leaves the root as it is. -/
def Goes (known : Bytes → Prop) (trie : BackedTrie) (store : FitfulStore) (ledger : Ledger α)
    (request : Request α) : Except Failure (Reply α) × BackedTrie × FitfulStore → Prop
  | (outcome, later, after) =>
      later.Endures known after (Session.record ledger request outcome) ∧
        match outcome with
        | .ok reply => reply = ledger.reply request ∧
            ∀ hash, reply = .hash hash → Reopens ledger after.nodes hash
        | .error _ => later.root = trie.root ∧ ¬ store.WellUntil after.clock

namespace Endures

/-- A trie without entries over a store without entries keeps the empty ledger. -/
theorem empty (batches : Bool) (moods : Nat → Mood) (owner capacity : Nat) (hpos : 0 < capacity) :
    (BackedTrie.empty (.new owner capacity hpos)).Endures known (.empty batches moods)
      (∅ : Ledger α) :=
  ⟨.empty _ owner capacity hpos, MemoryStore.authentic_empty, rfl⟩

/-- Cached nodes can be dropped. -/
theorem unload (h : trie.Endures known store ledger) (node : Node) :
    (trie.unload node).Endures known store ledger :=
  ⟨h.keeps.unload node, h.authentic, unload_cases h.idle (fun _ ↦ h.idle) node⟩

/-- A walk leaves the trie as it is but for the loader. If it succeeds it ends as guaranteed, and it
fails only if some tick in between is a bad one. -/
theorem perform (h : trie.Endures known store ledger) {walk : Walk β} {post : Nat → β → Prop}
    (hmeets : walk.Meets (.holding store.nodes.get? trie.loader.owner) post
      trie.loader.mint.next) :
    ∃ outcome later clock,
      trie.perform store walk = (outcome, ⟨later, trie.root⟩, { store with clock }) ∧
      later.owner = trie.loader.owner ∧
      (⟨later, trie.root⟩ : BackedTrie).Endures known { store with clock } ledger ∧
      match outcome with
      | .ok result => post later.mint.next result
      | .error _ => ¬ store.WellUntil clock := by
  obtain ⟨outcome, later, clock, hrun, hidle, hserves, hbound, houtcome⟩ :=
    Walk.run_fitful_meets Service.holding_reads h.keeps.serves h.idle hmeets
  have howner : later.owner = trie.loader.owner := hserves.owner_eq
  rw [← howner] at hserves
  refine ⟨outcome, later, clock, by rw [BackedTrie.perform, hrun], howner,
    ⟨⟨howner ▸ h.keeps.issued.mono hbound, hserves, h.keeps.holds⟩, h.authentic, hidle⟩, ?_⟩
  cases outcome with
  | ok result => exact houtcome
  | error failure =>
      intro hwell
      -- On good ticks all that the walk hears is what the store holds, which is never refused.
      obtain ⟨moment, hash, error, hlt, hle, ⟨whole, hheld⟩, hjudge⟩ := houtcome
      rw [FitfulStore.reply_of_well (hwell moment hlt hle)] at hjudge
      obtain ⟨read, hread, -⟩ := hheld.judge_shows
      cases hjudge.symm.trans hread

/-- A commit leaves the ledger as it is. If it succeeds it gives the root hash, which can be opened.
It fails only if some tick in between is a bad one, and then leaves the root as it is. -/
theorem commit (h : trie.Endures known store ledger) (hwritable : Writable known)
    (hknown : ledger.table.tree.All fun node ↦ known node.encoding) :
    ∃ outcome later after, trie.commit store = (outcome, later, after) ∧
      later.Endures known after ledger ∧
      match outcome with
      | .ok hash => hash = keccak256 ledger.table.form ∧ Reopens ledger after.nodes hash
      | .error _ => later.root = trie.root ∧ ¬ store.WellUntil after.clock := by
  obtain ⟨later, grown, hcommit, hlater, hgrown, hmore, hheld⟩ :=
    h.keeps.commit hwritable h.authentic hknown
  have hopens : Reopens ledger grown trie.rootHash := fun owner settings ↦
    (h.keeps.mono hmore).openAt hwritable hknown hheld owner _ settings.positive
  cases hformed : trie.root.isFormed with
  | false =>
      rw [commit_of_not_formed store.nodes hformed] at hcommit
      cases hcommit
      exact ⟨_, trie, store, commit_of_not_formed store hformed, h, h.keeps.rootHash_eq, hopens⟩
  | true =>
      rw [commit_eq store.nodes hformed] at hcommit
      cases hcommit
      rw [commit_eq store hformed]
      have hputs := store.putAll_cases (trie.outgoing.1.map Outgoing.entry)
      generalize NodeStore.putAll store (trie.outgoing.1.map Outgoing.entry) = put at hputs
      obtain ⟨outcome, after⟩ := put
      obtain ⟨written, hwritten, -, hafter, houtcome⟩ := hputs
      have hnodes : after.nodes = store.nodes.insertAll written := by rw [hafter]
      cases outcome with
      | ok done =>
          obtain rfl := houtcome
          have hidle : trie.primed.flights = [] :=
            (Loader.flights_retainAll _ _).trans h.idle
          rw [← hnodes] at hlater hgrown hopens
          exact ⟨_, _, after, rfl, ⟨hlater, hgrown, hidle⟩, h.keeps.rootHash_eq, hopens⟩
      | error error =>
          obtain ⟨hshows, hnormal, hblank, -⟩ := h.keeps.root_shows
          have hwhole : ledger.table.tree.Whole :=
            ⟨hnormal, hblank, hknown.imp fun _ hnode ↦ hwritable.fits _ hnode⟩
          have hsincere := hshows.sincere hnormal hblank
          obtain ⟨-, -, hrest⟩ := outgoing_told hformed hsincere h.keeps.issued
          have hgenuine : ∀ entry ∈ written, MemoryStore.Genuine known entry := by
            intro entry hentry
            have hmem := hwritten.subset hentry
            rw [outgoing_entries hformed hsincere h.keeps.issued] at hmem
            exact committed_genuine hformed (h.keeps.committed_known hwhole hformed hknown) entry
              hmem
          obtain ⟨hgrown, hmore, -⟩ := h.authentic.insertAll hwritable.apart hgenuine
          -- What went in is a part of the tree, and the trie does not rely on it.
          have hkeeps := h.keeps.mono hmore
          refine ⟨_, trie.outgoing.2, after, rfl, ?_, by rw [hrest], houtcome⟩
          rw [hrest]
          refine ⟨?_, hnodes ▸ hgrown, h.idle⟩
          rw [hnodes]
          exact ⟨hkeeps.issued.mono (Nat.le_add_right _ 2),
            hkeeps.serves.advance rfl rfl (Nat.le_add_right _ 2), hkeeps.holds⟩

/-- Every request goes so. -/
theorem attempt (h : trie.Endures known store ledger) (hwritable : Writable known)
    (hknown : ledger.table.tree.All fun node ↦ known node.encoding) (request : Request α) :
    trie.Goes known store ledger request (trie.attempt store request) := by
  obtain ⟨content, hrecords, hholds⟩ := h.keeps.holds
  cases request with
  | change change =>
      obtain ⟨outcome, later, clock, hperform, howner, hlater, houtcome⟩ := h.perform
        (Node.change_content Service.holding_faithful change hholds h.keeps.issued)
      rw [attempt_change, update, hperform]
      cases outcome with
      | error failure => exact ⟨hlater, rfl, houtcome⟩
      | ok root =>
          obtain ⟨hissued, hroot⟩ := houtcome
          exact ⟨⟨⟨howner ▸ hissued, hlater.keeps.serves, content.record change,
            hrecords.record change, hroot⟩, hlater.authentic, hlater.idle⟩, rfl, by rintro _ ⟨⟩⟩
  | get key =>
      obtain ⟨outcome, later, clock, hperform, -, hlater, houtcome⟩ := h.perform
        (Node.read_content Service.holding_faithful key hholds h.keeps.issued hrecords)
      rw [BackedTrie.attempt, BackedTrie.find?, hperform]
      cases outcome with
      | error failure => exact ⟨hlater, rfl, houtcome⟩
      | ok found => exact ⟨hlater, congrArg Reply.value houtcome, by rintro _ ⟨⟩⟩
  | commit =>
      obtain ⟨outcome, later, after, hcommit, hlater, houtcome⟩ := h.commit hwritable hknown
      rw [BackedTrie.attempt, hcommit]
      cases outcome with
      | error failure => exact ⟨hlater, houtcome⟩
      | ok hash =>
          obtain ⟨rfl, hopens⟩ := houtcome
          refine ⟨hlater, rfl, ?_⟩
          rintro _ ⟨⟩
          exact hopens
  | unload node => exact ⟨h.unload node, rfl, by rintro _ ⟨⟩⟩
  | unloadRoot => exact ⟨h.unload trie.root, rfl, by rintro _ ⟨⟩⟩
  | reopen owner settings =>
      obtain ⟨outcome, later, after, hcommit, hlater, houtcome⟩ := h.commit hwritable hknown
      rw [BackedTrie.attempt, hcommit]
      cases outcome with
      | error failure => exact ⟨hlater, houtcome⟩
      | ok hash =>
          obtain ⟨rfl, hopens⟩ := houtcome
          refine ⟨⟨hopens owner settings, hlater.authentic, ?_⟩, rfl, ?_⟩
          · rw [openAt]
            split <;> rfl
          · rintro _ ⟨⟩
            exact hopens

end Endures

end BackedTrie

/-! ## Sessions -/

namespace Session

/-- The change that is made by a request, if it is one and succeeds. -/
def change? : Request α → Except Failure (Reply α) → Option (Change α)
  | .change change, .ok _ => some change
  | _, _ => none

/-- The changes among some requests that succeed. -/
def made {σ : Type} [NodeStore σ] (session : Session σ α) : List (Request α) → List (Change α)
  | [] => []
  | request :: requests =>
      (change? request (session.step request).1).toList ++ (session.step request).2.made requests

/-- The ledger records the changes that succeed. -/
theorem after_ledger {σ : Type} [NodeStore σ] (session : Session σ α)
    (requests : List (Request α)) :
    (session.after requests).ledger =
      (session.made requests).foldl Ledger.record session.ledger := by
  have hrecord : ∀ (ledger : Ledger α) request outcome, record ledger request outcome =
      (change? request outcome).toList.foldl Ledger.record ledger := by
    intro ledger request outcome
    cases request <;> cases outcome <;> rfl
  induction requests generalizing session with
  | nil => rfl
  | cons request requests ih =>
      show ((session.step request).2.after requests).ledger = _
      rw [ih, made, List.foldl_append, ← hrecord]
      rfl

/-- The session of a trie without entries over a store without entries, in any moods. -/
def exposed (α : Type) (owner : Nat) (settings : Settings) (batches : Bool) (moods : Nat → Mood) :
    Session FitfulStore α :=
  ⟨.empty (.new owner settings.cacheCapacity settings.positive), .empty batches moods, ∅⟩

variable {owner : Nat} {settings : Settings} {batches : Bool} {moods : Nat → Mood}
  {requests before : List (Request α)} {request : Request α}

/-- The forms of the canonical trees can be written together if no two of them have one hash and
their lengths fit in 64 bits. -/
theorem exposed_writable
    (hapart : Apart ((exposed α owner settings batches moods).Honest requests))
    (hfits : ∀ bytes, (exposed α owner settings batches moods).Honest requests bytes →
      bytes.length < 2 ^ 64) :
    Writable ((exposed α owner settings batches moods).Honest requests) :=
  ⟨hapart, hfits, [], List.nil_prefix, by
    show [0x80] ∈ (Table.tree []).encodings
    rw [Table.tree]
    exact List.mem_singleton_self _⟩

/-- At every point of a session the trie keeps the ledger. -/
theorem after_endures
    (hwritable : Writable ((exposed α owner settings batches moods).Honest requests))
    (hbefore : before <+: requests) :
    let session := (exposed α owner settings batches moods).after before
    session.trie.Endures ((exposed α owner settings batches moods).Honest requests) session.store
      session.ledger := by
  induction before using List.reverseRecOn with
  | nil => exact .empty batches moods owner settings.cacheCapacity settings.positive
  | append_singleton before request ih =>
      have hprefix : before <+: requests := (List.prefix_append before [request]).trans hbefore
      have hgoes := (ih hprefix).attempt hwritable (all_honest hprefix) request
      simp only [after_concat]
      exact hgoes.1

/-- A trie that begins without entries receives any requests over a store that is in any moods in
the meantime. A request that fails leaves the root as it is, and some tick during the request is a
bad one. A request that succeeds is answered as by the trie in memory that received the changes
which succeeded before it, and if it is a commit, a trie that is opened on the hash it gives finds
the same values in the store as that trie in memory. It is assumed that no two forms of nodes in
these tries have the same hash, and that the lengths of all fit in 64 bits. -/
theorem after_recovers (owner : Nat) (settings : Settings) (batches : Bool) (moods : Nat → Mood)
    (hapart : Apart ((exposed α owner settings batches moods).Honest requests))
    (hfits : ∀ bytes, (exposed α owner settings batches moods).Honest requests bytes →
      bytes.length < 2 ^ 64)
    (hbefore : before ++ [request] <+: requests) :
    let session := (exposed α owner settings batches moods).after before
    let later := (session.step request).2
    ∃ memory,
      MemoryTrie.run owner ((exposed α owner settings batches moods).made before) = .ok memory ∧
      session.trie.rootHash = memory.rootHash ∧
      (∀ reply, (session.step request).1 = .ok reply →
        (∃ shadow, memory.handle request = .ok (reply, shadow)) ∧
        ∀ hash, reply = .hash hash → hash = memory.rootHash ∧
          ∀ reader (cache : Settings) key,
            ((BackedTrie.openAt (.new reader cache.cacheCapacity cache.positive) hash).find?
              later.store.nodes key).1 = (memory.find? key : Except Failure (Option α))) ∧
      (∀ failure, (session.step request).1 = .error failure →
        later.trie.root = session.trie.root ∧
        ¬ session.store.WellUntil later.store.clock) := by
  intro session later
  have hprefix : before <+: requests := (List.prefix_append before [request]).trans hbefore
  have hwritable := exposed_writable hapart hfits
  have hendures : session.trie.Endures _ session.store session.ledger :=
    after_endures hwritable hprefix
  obtain ⟨memory, hrun, hkeeps⟩ := (MemoryTrie.Keeps.empty owner).changes
    ((exposed α owner settings batches moods).made before)
  have hledger : ((exposed α owner settings batches moods).made before).foldl Ledger.record ∅ =
      session.ledger := (after_ledger (exposed α owner settings batches moods) before).symm
  rw [hledger] at hkeeps
  refine ⟨memory, hrun, by rw [hendures.keeps.rootHash_eq, hkeeps.rootHash_eq], ?_⟩
  have hgoes := hendures.attempt hwritable (all_honest hprefix) request
  rcases hattempt : session.trie.attempt session.store request with ⟨outcome, trie, after⟩
  rw [hattempt] at hgoes
  have hstep : session.step request =
      (outcome, ⟨trie, after, record session.ledger request outcome⟩) := by
    rw [step, hattempt]
  obtain ⟨-, houtcome⟩ := hgoes
  simp only [later, hstep]
  refine ⟨?_, ?_⟩
  · rintro reply rfl
    obtain ⟨rfl, hopens⟩ := houtcome
    refine ⟨hkeeps.handle request, fun hash hhash ↦ ⟨?_, fun reader cache key ↦ ?_⟩⟩
    · cases request with
      | commit | reopen =>
          cases hhash
          exact hkeeps.rootHash_eq.symm
      | change | get | unload | unloadRoot => cases hhash
    · obtain ⟨last, hfind, -⟩ := (hopens hash hhash reader cache).find?_eq key
      rw [hfind, hkeeps.find?_eq]
  · rintro failure rfl
    exact houtcome

/-- A session over a store that refuses the second entry that it is given, and later fails to answer
one read and finds nothing for the next. The cache has room for one node. -/
def refusing : Session FitfulStore Bytes :=
  exposed Bytes 0 .narrow false fun moment ↦
    if moment = 2 ∨ moment = 6 then .failing (.store (.refused "disk unavailable"))
    else if moment = 7 then .blank else .well

/-- Three entries are put. -/
def entering : List (Request Bytes) :=
  threeEntries.map .change

/-- They are committed twice, and the root is unloaded. A key is looked up twice, and the value of
another one is replaced, below two branches that are read for it. -/
def retrying : List (Request Bytes) :=
  [.commit, .commit, .unloadRoot, .get [0x11], .get [0x11], .change (.put [0x12] [0x0a])]

set_option maxRecDepth 100000 in
/-- The first commit fails after one entry, and so do both lookups. The last commit succeeds with
the root hash of the trie in memory, and the store has all that this trie has. -/
theorem refusing_recovers :
    ((refusing.after entering).step .commit).1 =
        .error (.error (.store (.refused "disk unavailable"))) ∧
      ((refusing.after entering).step .commit).2.store.nodes.size = 1 ∧
      (refusing.after (entering ++ retrying)).store.clock = 9 ∧
      ∃ memory, MemoryTrie.run 0 (threeEntries ++ [.put [0x12] [0x0a]]) = .ok memory ∧
        ((refusing.after (entering ++ retrying)).step .commit).1 = .ok (.hash memory.rootHash) ∧
        ∀ reader (cache : Settings) key,
          ((BackedTrie.openAt (.new reader cache.cacheCapacity cache.positive)
            memory.rootHash).find?
              ((refusing.after (entering ++ retrying)).step .commit).2.store.nodes key).1 =
            (memory.find? key : Except Failure (Option Bytes)) := by
  obtain ⟨hnodup, hfits, hfirst, hsize, hclock, hmade, hlast⟩ :
      ((refusing.forms (entering ++ retrying ++ [.commit])).dedup.map keccak256).Nodup ∧
      (∀ bytes ∈ refusing.forms (entering ++ retrying ++ [.commit]), bytes.length < 2 ^ 64) ∧
      ((refusing.after entering).step .commit).1 =
        .error (.error (.store (.refused "disk unavailable"))) ∧
      ((refusing.after entering).step .commit).2.store.nodes.size = 1 ∧
      (refusing.after (entering ++ retrying)).store.clock = 9 ∧
      refusing.made (entering ++ retrying) = threeEntries ++ [.put [0x12] [0x0a]] ∧
      ((refusing.after (entering ++ retrying)).step .commit).1 =
        .ok (.hash (refusing.after (entering ++ retrying)).trie.rootHash) := by
    decide +kernel
  obtain ⟨memory, hrun, -, hsucceeds, -⟩ := after_recovers 0 .narrow false _
    ((Apart.of_nodup hnodup).mono fun _ ↦ Honest.mem_forms)
    (fun bytes hbytes ↦ hfits bytes hbytes.mem_forms) List.prefix_rfl
  obtain ⟨-, hopens⟩ := hsucceeds _ hlast
  obtain ⟨hhash, hreads⟩ := hopens _ rfl
  change MemoryTrie.run 0 (refusing.made (entering ++ retrying)) = .ok memory at hrun
  rw [hmade] at hrun
  rw [hhash] at hlast hreads
  exact ⟨hfirst, hsize, hclock, memory, hrun, hlast, hreads⟩

end Session

end Patricia
