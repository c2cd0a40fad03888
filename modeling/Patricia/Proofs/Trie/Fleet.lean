import Mathlib.Logic.Function.Basic
import Patricia.Proofs.Trie.Committed
import Patricia.Settings.Basic

/-!
# Tries over a store do as tries in memory

A `Fleet` is a store in memory and tries over it, named by numbers, all of which begin empty. Any
requests to the tries in any order, commits and reopenings among them, are answered as by tries in
memory that received the same changes (`Fleet.run_refines_memory`), unless two forms of nodes in
these tries have one hash.
-/

namespace Patricia

/-! ## Requests -/

/-- A request to a trie over a store. To reopen it is to commit it, to drop it, and to open the root
hash with a new owner and an empty cache. -/
inductive Request (α : Type) where
  | change (change : Change α)
  | get (key : Bytes)
  | commit
  | unload (node : Node)
  | unloadRoot
  | reopen (owner : Nat) (settings : Settings)

/-- What a request is answered with. -/
inductive Reply (α : Type) where
  | done
  | value (found : Option α)
  | hash (hash : Hash)
deriving DecidableEq

variable {α : Type} [TrieValue α]

/-- What a trie over a store makes of a request, if it does not fail. -/
def BackedTrie.handle (trie : BackedTrie) (store : MemoryStore) :
    Request α → Except Failure (Reply α × BackedTrie × MemoryStore)
  | .change change => do
      let (outcome, trie, store) := trie.change store change
      outcome
      return (.done, trie, store)
  | .get key => do
      let (outcome, trie, store) := trie.find? store key
      return (.value (← outcome), trie, store)
  | .commit => do
      let (outcome, trie, store) := trie.commit store
      return (.hash (← outcome), trie, store)
  | .unload node => return (.done, trie.unload node, store)
  | .unloadRoot => return (.done, trie.unloadRoot, store)
  | .reopen owner settings => do
      let (outcome, _, store) := trie.commit store
      let hash ← outcome
      return (.hash hash, .openAt (.new owner settings.cacheCapacity settings.positive) hash, store)

/-- What a trie in memory makes of a request, if it does not fail. A commit only asks for its root
hash, and there is nothing to unload. -/
def MemoryTrie.handle (trie : MemoryTrie) : Request α → Except Failure (Reply α × MemoryTrie)
  | .change change => return (.done, ← trie.change change)
  | .get key => return (.value (← trie.find? key), trie)
  | .commit | .reopen .. => return (.hash trie.rootHash, trie)
  | .unload _ | .unloadRoot => return (.done, trie)

/-- The replies to requests that are handled one after the other, if none of them fails. -/
def answerAll {σ : Type} (handle : σ → Nat → Request α → Except Failure (Reply α × σ)) (state : σ) :
    List (Nat × Request α) → Except Failure (List (Reply α) × σ)
  | [] => return ([], state)
  | (name, request) :: requests => do
      let (reply, state) ← handle state name request
      let (replies, state) ← answerAll handle state requests
      return (reply :: replies, state)

section AnswerAll

variable {σ : Type} {handle : σ → Nat → Request α → Except Failure (Reply α × σ)}
  {state next last : σ} {name : Nat} {request : Request α} {requests : List (Nat × Request α)}
  {reply : Reply α} {replies : List (Reply α)}

omit [TrieValue α]

/-- Requests are answered if the first is and the others are afterwards. -/
theorem answerAll_cons (h : handle state name request = .ok (reply, next))
    (hrest : answerAll handle next requests = .ok (replies, last)) :
    answerAll handle state ((name, request) :: requests) = .ok (reply :: replies, last) := by
  rw [answerAll, h]
  show (do let (replies, state) ← answerAll handle next requests; _) = _
  rw [hrest]
  rfl

/-- What leads from one state to another goes through the state after the first request. -/
theorem answerAll_cons_inv
    (h : answerAll handle state ((name, request) :: requests) = .ok (replies, last)) :
    ∃ reply next more, handle state name request = .ok (reply, next) ∧
      answerAll handle next requests = .ok (more, last) := by
  rw [answerAll] at h
  cases hfirst : handle state name request with
  | error failure =>
      rw [hfirst] at h
      cases h
  | ok answered =>
      obtain ⟨reply, next⟩ := answered
      rw [hfirst] at h
      change (do let (replies, state) ← answerAll handle next requests; _) = _ at h
      cases hrest : answerAll handle next requests with
      | error failure =>
          rw [hrest] at h
          cases h
      | ok rest =>
          obtain ⟨more, final⟩ := rest
          rw [hrest] at h
          cases h
          exact ⟨reply, next, more, rfl, hrest⟩

end AnswerAll

/-! ## Fleets -/

/-- A store and tries over it. -/
structure Fleet where
  store : MemoryStore
  tries : Nat → BackedTrie

/-- Empty tries over an empty store, with caches as the settings have them. -/
def Fleet.start (settings : Nat → Settings) : Fleet where
  store := .empty
  tries name := .empty (.new name (settings name).cacheCapacity (settings name).positive)

/-- What the trie of a name makes of a request. The store is shared. -/
def Fleet.handle (fleet : Fleet) (name : Nat) (request : Request α) :
    Except Failure (Reply α × Fleet) := do
  let (reply, trie, store) ← (fleet.tries name).handle fleet.store request
  return (reply, ⟨store, Function.update fleet.tries name trie⟩)

/-- Tries in memory, named by numbers. -/
abbrev Shadow := Nat → MemoryTrie

/-- Empty tries in memory. -/
def Shadow.start : Shadow :=
  fun name ↦ .empty name

/-- What the trie of a name makes of a request. -/
def Shadow.handle (shadow : Shadow) (name : Nat) (request : Request α) :
    Except Failure (Reply α × Shadow) := do
  let (reply, trie) ← (shadow name).handle request
  return (reply, Function.update shadow name trie)

/-- A request to one trie in memory leaves the others as they are. -/
theorem Shadow.handle_other {shadow later : Shadow} {name other : Nat} {request : Request α}
    {reply : Reply α} (h : shadow.handle name request = .ok (reply, later)) (hne : other ≠ name) :
    later other = shadow other := by
  rw [Shadow.handle] at h
  cases hhandle : (shadow name).handle request with
  | error failure =>
      rw [hhandle] at h
      cases h
  | ok handled =>
      rw [hhandle] at h
      cases h
      exact Function.update_of_ne hne _ _

/-- Requests to other tries in memory leave one as it is. -/
theorem Shadow.run_other {shadow later : Shadow} {requests : List (Nat × Request α)}
    {replies : List (Reply α)} {name : Nat} (hname : ∀ named ∈ requests, name ≠ named.1)
    (h : answerAll Shadow.handle shadow requests = .ok (replies, later)) :
    later name = shadow name := by
  induction requests generalizing replies shadow with
  | nil =>
      cases h
      rfl
  | cons named requests ih =>
      obtain ⟨reply, next, more, hfirst, hrest⟩ := answerAll_cons_inv h
      rw [ih (fun other hother ↦ hname other (List.mem_cons_of_mem _ hother)) hrest,
        Shadow.handle_other hfirst (hname named List.mem_cons_self)]

/-! ## The encodings of a run -/

/-- The encodings of all nodes of a tree in memory. -/
def Node.encodings (node : Node) : List Bytes :=
  match node with
  | .null | .leaf .. | .stored .. => [node.encoding]
  | .extension _ _ _ child => node.encoding :: child.encodings
  | .branch _ _ slots _ =>
      node.encoding :: (List.finRange 16).flatMap fun slot ↦ (slots slot).encodings

/-- The byte string is the encoding of a node that is in one of the tries in memory at some point
while requests are handled. -/
def Shadow.Encodes (requests : List (Nat × Request α)) (bytes : Bytes) : Prop :=
  ∃ before replies shadow name, before <+: requests ∧
    answerAll Shadow.handle Shadow.start before = .ok (replies, shadow) ∧
    bytes ∈ (shadow name).root.encodings

/-- The encodings of the nodes in the tries that receive requests, at each point in turn, and that
of the empty tree, which the other tries have. -/
def Shadow.forms (requests : List (Nat × Request α)) : List Bytes :=
  [0x80] :: requests.inits.flatMap fun before ↦
    (answerAll Shadow.handle Shadow.start before).toOption.toList.flatMap fun ended ↦
      (requests.map Prod.fst).dedup.flatMap fun name ↦ (ended.2 name).root.encodings

/-- The encodings can be listed. -/
theorem Shadow.Encodes.mem_forms {requests : List (Nat × Request α)} {bytes : Bytes}
    (h : Shadow.Encodes requests bytes) : bytes ∈ Shadow.forms requests := by
  obtain ⟨before, replies, shadow, name, hbefore, hrun, hmem⟩ := h
  by_cases hname : name ∈ requests.map Prod.fst
  · refine List.mem_cons_of_mem _ (List.mem_flatMap.mpr
      ⟨before, (List.mem_inits before requests).mpr hbefore, List.mem_flatMap.mpr
        ⟨(replies, shadow), ?_, List.mem_flatMap.mpr ⟨name, List.mem_dedup.mpr hname, hmem⟩⟩⟩)
    rw [hrun]
    exact List.mem_singleton_self _
  · have hstart : shadow name = Shadow.start name := by
      refine Shadow.run_other (fun named hnamed heq ↦ hname ?_) hrun
      rw [heq]
      exact List.mem_map_of_mem (hbefore.subset hnamed)
    rw [hstart] at hmem
    rw [List.mem_singleton.mp hmem]
    exact List.mem_cons_self

section Encodings

variable {known : Bytes → Prop} {node whole : Node}

/-- What is known of all encodings of a tree is known of each node's. -/
theorem Node.all_of_encodings (h : ∀ bytes ∈ node.encodings, known bytes) :
    node.All fun node ↦ known node.encoding := by
  induction node with
  | null | leaf | stored => exact h _ List.mem_cons_self
  | extension stamp first rest child ih =>
      exact ⟨h _ List.mem_cons_self, ih fun bytes hmem ↦ h bytes (List.mem_cons_of_mem _ hmem)⟩
  | branch stamp occupied slots value ih =>
      refine ⟨h _ List.mem_cons_self, fun slot ↦ ih slot fun bytes hmem ↦ ?_⟩
      have hslots : bytes ∈ (List.finRange 16).flatMap fun slot ↦ (slots slot).encodings :=
        List.mem_flatMap.mpr ⟨slot, List.mem_finRange slot, hmem⟩
      exact h bytes (List.mem_cons_of_mem _ hslots)

/-- A tree in memory has the encodings of the tree it shows. -/
theorem Node.Shows.all_encoding (h : node.Shows nowhere whole) (hnormal : whole.Normal)
    (hknown : node.All fun node ↦ known node.encoding) :
    whole.All fun node ↦ known node.encoding := by
  induction node generalizing whole with
  | null =>
      cases h
      exact hknown
  | leaf stamp path value =>
      have hself := hknown.self
      rw [h.encoding_eq hnormal rfl] at hself
      obtain ⟨rfl, -⟩ := h
      exact hself
  | extension stamp first rest child ih =>
      have hself := hknown.self
      rw [h.encoding_eq hnormal rfl] at hself
      obtain ⟨-, below, rfl, hshows, -⟩ := h
      exact ⟨hself, ih hshows hnormal.2 hknown.2⟩
  | branch stamp occupied slots value ih =>
      have hself := hknown.self
      rw [h.encoding_eq hnormal rfl] at hself
      obtain ⟨-, below, rfl, hslots⟩ := h
      exact ⟨hself, fun slot ↦ ih slot (hslots slot).1 (hnormal.2.2.2 slot) (hknown.2 slot)⟩
  | stored stamp hash => exact h.1.elim

end Encodings

/-! ## One request -/

section Handle

variable {trie : BackedTrie} {memory : MemoryTrie} {store : MemoryStore} {known : Bytes → Prop}
  {ledger : Ledger α}

/-- A trie over a store and one in memory keep the same ledger, and the store is authentic. -/
structure Alike (known : Bytes → Prop) (trie : BackedTrie) (store : MemoryStore)
    (memory : MemoryTrie) (ledger : Ledger α) : Prop where
  backed : trie.Keeps store.get? ledger
  memory : memory.Keeps ledger
  authentic : store.Authentic known

/-- Tries that keep the same ledger have the same root hash. -/
theorem Alike.rootHash_eq (h : Alike known trie store memory ledger) :
    trie.rootHash = memory.rootHash := by
  rw [h.backed.rootHash_eq, h.memory.rootHash_eq]

/-- Tries that keep the same ledger are empty together. -/
theorem Alike.isEmpty_eq (h : Alike known trie store memory ledger) :
    trie.isEmpty = memory.isEmpty := by
  rw [Bool.eq_iff_iff, h.backed.isEmpty_iff, h.memory.isEmpty_iff]

/-- Tries that keep the same ledger give the same reply to every request, and then keep the same
ledger again. The store overwrites nothing. -/
theorem Alike.handle (h : Alike known trie store memory ledger) (hwritable : Writable known)
    (hknown : ledger.table.tree.All fun node ↦ known node.encoding) (request : Request α) :
    ∃ reply later grown shadow, ∃ record : Ledger α,
      trie.handle store request = .ok (reply, later, grown) ∧
      memory.handle request = .ok (reply, shadow) ∧ Alike known later grown shadow record ∧
      ∀ hash bytes, store.get? hash = some bytes → grown.get? hash = some bytes := by
  obtain ⟨hbacked, hmemory, hauthentic⟩ := h
  cases request with
  | change change =>
      obtain ⟨changed, hchange, hkeeps⟩ := hbacked.change change
      obtain ⟨shadow, hshadow, hsame⟩ := hmemory.change change
      refine ⟨.done, changed, store, shadow, _, ?_, ?_, ⟨hkeeps, hsame, hauthentic⟩, fun _ _ ↦ id⟩
      · rw [BackedTrie.handle, hchange]
        rfl
      · rw [MemoryTrie.handle, hshadow]
        rfl
  | get key =>
      obtain ⟨later, hfind, hkeeps⟩ := hbacked.find?_eq key
      refine ⟨.value (ledger.lookup key), later, store, memory, ledger, ?_, ?_,
        ⟨hkeeps, hmemory, hauthentic⟩, fun _ _ ↦ id⟩
      · rw [BackedTrie.handle, hfind]
        rfl
      · rw [MemoryTrie.handle, hmemory.find?_eq]
        rfl
  | commit =>
      obtain ⟨later, grown, hcommit, hkeeps, hgrown, hmore, -⟩ :=
        hbacked.commit hwritable hauthentic hknown
      refine ⟨.hash trie.rootHash, later, grown, memory, ledger, ?_, ?_,
        ⟨hkeeps, hmemory, hgrown⟩, hmore⟩
      · rw [BackedTrie.handle, hcommit]
        rfl
      · rw [MemoryTrie.handle, hbacked.rootHash_eq, hmemory.rootHash_eq]
        rfl
  | unload node =>
      exact ⟨.done, _, store, memory, ledger, rfl, rfl, ⟨hbacked.unload node, hmemory, hauthentic⟩,
        fun _ _ ↦ id⟩
  | unloadRoot =>
      exact ⟨.done, _, store, memory, ledger, rfl, rfl,
        ⟨hbacked.unload trie.root, hmemory, hauthentic⟩, fun _ _ ↦ id⟩
  | reopen owner settings =>
      obtain ⟨later, grown, hcommit, -, hgrown, hmore, hheld⟩ :=
        hbacked.commit hwritable hauthentic hknown
      have hopened := (hbacked.mono hmore).openAt hwritable hknown hheld owner
        settings.cacheCapacity settings.positive
      refine ⟨.hash trie.rootHash, _, grown, memory, ledger, ?_, ?_, ⟨hopened, hmemory, hgrown⟩,
        hmore⟩
      · rw [BackedTrie.handle, hcommit]
        rfl
      · rw [MemoryTrie.handle, hbacked.rootHash_eq, hmemory.rootHash_eq]
        rfl

end Handle

/-! ## Runs -/

namespace Fleet

variable {fleet : Fleet} {shadow : Shadow} {known : Bytes → Prop} {ledgers : Nat → Ledger α}

/-- The tries of a fleet and the tries in memory of the same names keep the same ledgers. -/
def Follows (known : Bytes → Prop) (fleet : Fleet) (shadow : Shadow) (ledgers : Nat → Ledger α) :
    Prop :=
  ∀ name, Alike known (fleet.tries name) fleet.store (shadow name) (ledgers name)

/-- All tries begin without entries. -/
theorem start_follows (settings : Nat → Settings) :
    (start settings).Follows known Shadow.start fun _ ↦ (∅ : Ledger α) :=
  fun _ ↦ ⟨.empty _ _ _ _, .empty _, MemoryStore.authentic_empty⟩

/-- A request to one trie is answered alike, and leaves all tries alike. -/
theorem Follows.handle (h : fleet.Follows known shadow ledgers) (hwritable : Writable known)
    (name : Nat) (hknown : (shadow name).root.All fun node ↦ known node.encoding)
    (request : Request α) :
    ∃ reply later shadow', ∃ ledgers' : Nat → Ledger α,
      fleet.handle name request = .ok (reply, later) ∧
      shadow.handle name request = .ok (reply, shadow') ∧
      later.Follows known shadow' ledgers' := by
  obtain ⟨hshows, hnormal⟩ := (h name).memory.root_shows
  obtain ⟨reply, trie, store, memory, ledger, htrie, hmemory, halike, hmore⟩ :=
    (h name).handle hwritable (hshows.all_encoding hnormal hknown) request
  refine ⟨reply, ⟨store, Function.update fleet.tries name trie⟩,
    Function.update shadow name memory, Function.update ledgers name ledger, ?_, ?_, ?_⟩
  · rw [Fleet.handle, htrie]
    rfl
  · rw [Shadow.handle, hmemory]
    rfl
  -- The other tries are untouched, and the store they read from has grown.
  · intro other
    by_cases heq : other = name
    · subst heq
      simp only [Function.update_self]
      exact halike
    · simp only [Function.update_of_ne heq]
      exact ⟨(h other).backed.mono hmore, (h other).memory, halike.authentic⟩

/-- Requests are answered alike, and leave all tries alike. -/
theorem Follows.run (hwritable : Writable known) (requests : List (Nat × Request α))
    (h : fleet.Follows known shadow ledgers)
    (hknown : ∀ before replies later, before <+: requests →
      answerAll Shadow.handle shadow before = .ok (replies, later) →
      ∀ name, (later name).root.All fun node ↦ known node.encoding) :
    ∃ replies fleet' shadow', ∃ ledgers' : Nat → Ledger α,
      answerAll Fleet.handle fleet requests = .ok (replies, fleet') ∧
      answerAll Shadow.handle shadow requests = .ok (replies, shadow') ∧
      fleet'.Follows known shadow' ledgers' := by
  induction requests generalizing fleet shadow ledgers with
  | nil => exact ⟨[], fleet, shadow, ledgers, rfl, rfl, h⟩
  | cons named requests ih =>
      obtain ⟨name, request⟩ := named
      have hnow := hknown [] [] shadow List.nil_prefix rfl name
      obtain ⟨reply, fleet', shadow', ledgers', hfleet, hshadow, hfollows⟩ :=
        h.handle hwritable name hnow request
      -- What is known of all points of the run is known of those after the first request.
      have hlater : ∀ before replies later, before <+: requests →
          answerAll Shadow.handle shadow' before = .ok (replies, later) →
          ∀ name, (later name).root.All fun node ↦ known node.encoding := by
        intro before replies later hbefore hrun
        exact hknown ((name, request) :: before) (reply :: replies) later
          (List.cons_prefix_cons.mpr ⟨rfl, hbefore⟩) (answerAll_cons hshadow hrun)
      obtain ⟨replies, fleet'', shadow'', ledgers'', hfleet', hshadow', hfollows'⟩ :=
        ih hfollows hlater
      exact ⟨reply :: replies, fleet'', shadow'', ledgers'', answerAll_cons hfleet hfleet',
        answerAll_cons hshadow hshadow', hfollows'⟩

/-- Whatever requests tries over one store receive, in any order, with caches of any capacities,
none fails, each is answered as by a trie in memory that receives the same changes, and at every
point all tries have the root hashes of those in memory and are empty when those are. It is assumed
that no two encodings of nodes in these tries have the same hash, and that the lengths of all fit in
64 bits. -/
theorem run_refines_memory (settings : Nat → Settings) (requests : List (Nat × Request α))
    (hapart : Apart (Shadow.Encodes requests))
    (hfits : ∀ bytes, Shadow.Encodes requests bytes → bytes.length < 2 ^ 64)
    {before : List (Nat × Request α)} (hbefore : before <+: requests) :
    ∃ replies fleet shadow,
      answerAll Fleet.handle (start settings) before = .ok (replies, fleet) ∧
      answerAll Shadow.handle Shadow.start before = .ok (replies, shadow) ∧
      ∀ name, (fleet.tries name).rootHash = (shadow name).rootHash ∧
        (fleet.tries name).isEmpty = (shadow name).isEmpty := by
  have hempty : Shadow.Encodes requests [0x80] :=
    ⟨[], [], Shadow.start, 0, List.nil_prefix, rfl, List.mem_cons_self⟩
  have hstart : (start settings).Follows (Shadow.Encodes requests) Shadow.start
      fun _ ↦ (∅ : Ledger α) := start_follows settings
  obtain ⟨replies, fleet, shadow, ledgers, hfleet, hshadow, hfollows⟩ :=
    hstart.run ⟨hapart, hfits, hempty⟩ before
      fun first replies later hfirst hrun name ↦ Node.all_of_encodings fun bytes hmem ↦
        ⟨first, replies, later, name, hfirst.trans hbefore, hrun, hmem⟩
  exact ⟨replies, fleet, shadow, hfleet, hshadow, fun name ↦
    ⟨(hfollows name).rootHash_eq, (hfollows name).isEmpty_eq⟩⟩

/-- A visit to a fleet. One trie gets three entries and is reopened with a cache for one node. There
a lookup reads down to the long leaf, a value is replaced beside the reference to that leaf, and the
leaf is read again after a commit. Another trie gets an entry and is committed. -/
def visit : List (Nat × Request Bytes) :=
  threeEntries.map (fun change ↦ (0, .change change)) ++
    [(0, .reopen 2 .narrow), (0, .get [0x11]), (0, .change (.put [0x12] [0x0a])),
      (1, .change (.put [0x11] [0x07])), (0, .commit), (1, .commit), (0, .get [0x11])]

set_option maxRecDepth 100000 in
/-- On the visit nothing fails, and the tries over the store do as those in memory. -/
theorem visit_refines_memory :
    ∃ replies fleet shadow,
      answerAll Fleet.handle (start fun _ ↦ .standard) visit = .ok (replies, fleet) ∧
      answerAll Shadow.handle Shadow.start visit = .ok (replies, shadow) ∧
      replies[9]? = some (.value (some (List.replicate 32 0x07))) ∧
      ∀ name, (fleet.tries name).rootHash = (shadow name).rootHash ∧
        (fleet.tries name).isEmpty = (shadow name).isEmpty := by
  obtain ⟨hnodup, hfits, hreplies⟩ :
      ((Shadow.forms visit).dedup.map keccak256).Nodup ∧
        (∀ bytes ∈ Shadow.forms visit, bytes.length < 2 ^ 64) ∧
        ((answerAll Fleet.handle (start fun _ ↦ .standard) visit).toOption.bind
          fun ended ↦ ended.1[9]?) = some (.value (some (List.replicate 32 0x07))) := by
    decide +kernel
  obtain ⟨replies, fleet, shadow, hfleet, hshadow, hsame⟩ :=
    run_refines_memory (fun _ ↦ .standard) visit
      ((Apart.of_nodup hnodup).mono fun _ ↦ Shadow.Encodes.mem_forms)
      (fun bytes hbytes ↦ hfits bytes hbytes.mem_forms) List.prefix_rfl
  rw [hfleet] at hreplies
  exact ⟨replies, fleet, shadow, hfleet, hshadow, hreplies, hsame⟩

end Fleet

end Patricia
