import Patricia.Proofs.Loader.Heard
import Patricia.Proofs.Trie.Fleet

/-!
# Sessions of a trie over any store

A `Session` is a trie over a store of any kind, which receives requests one after the other. Each of
them may fail, and the session goes on with the trie and the store as they are then. The changes
that succeeded are recorded in a ledger, and `Session.Exchanged` are the byte strings that went
between the trie and the store.
-/

namespace Patricia

variable {σ : Type} [NodeStore σ] {α : Type} [TrieValue α]

namespace BackedTrie

variable {β : Type}

/-- The reply to a request, if what it asks for is done. -/
def answered (reply : β → Reply α) :
    Except Failure β × BackedTrie × σ → Except Failure (Reply α) × BackedTrie × σ
  | (outcome, trie, store) => (outcome.map reply, trie, store)

/-- What a trie makes of a request, and the trie and the store afterwards. -/
def attempt (trie : BackedTrie) (store : σ) :
    Request α → Except Failure (Reply α) × BackedTrie × σ
  | .change (.put key value) => answered (fun _ ↦ .done) (trie.insert store key value)
  | .change (.remove key) => answered (fun _ ↦ .done) (trie.erase store key)
  | .get key => answered .value (trie.find? store key)
  | .commit => answered .hash (trie.commit store)
  | .unload node => (.ok .done, trie.unload node, store)
  | .unloadRoot => (.ok .done, trie.unloadRoot, store)
  | .reopen owner settings =>
      match trie.commit store with
      | (.ok hash, _, store) =>
          (.ok (.hash hash), openAt (.new owner settings.cacheCapacity settings.positive) hash,
            store)
      | (.error failure, trie, store) => (.error failure, trie, store)

/-- A change is the update by the walk that makes it. -/
theorem attempt_change (trie : BackedTrie) (store : σ) (change : Change α) :
    trie.attempt store (.change change) =
      answered (fun _ ↦ .done) (trie.update store (trie.root.change change)) := by
  cases change <;> rfl

/-- A walk that meets a guarantee ends as guaranteed or with the failure that an answer comes to,
and the trie keeps its root. -/
theorem perform_concludes {service : Service} {trie : BackedTrie} (store : σ) {walk : Walk β}
    {post : Nat → β → Prop} (hmeets : walk.Meets service post trie.loader.mint.next)
    (hserves : trie.loader.Serves service)
    (htakes : ∀ entry ∈ walk.heard trie.loader store, service.Takes entry.1 entry.2) :
    ∃ outcome later after, trie.perform store walk = (outcome, ⟨later, trie.root⟩, after) ∧
      Walk.Concludes service post trie.loader.mint.next (walk.heard trie.loader store)
        (outcome, later) :=
  ⟨_, _, _, rfl, Walk.run_concludes hmeets hserves htakes⟩

/-- The byte strings that a store answers the reads of a walk with. -/
def received (trie : BackedTrie) (store : σ) (walk : Walk β) : List Bytes :=
  (walk.heard trie.loader store).filterMap fun entry ↦
    match entry.2 with
    | .ok found => found
    | .error _ => none

/-- The byte strings that go between the trie and the store on a request: what reads are answered
with, and what a commit gives the store to write. -/
def exchanged (trie : BackedTrie) (store : σ) : Request α → List Bytes
  | .change change => trie.received store (trie.root.change change)
  | .get key => trie.received store (trie.root.read key : Walk (Option α))
  | .commit | .reopen .. => if trie.root.isFormed then trie.outgoing.1.map Outgoing.rlp else []
  | .unload _ | .unloadRoot => []

/-- The store itself fails with the error on a request: it answers a read with it, or it does not
take what a commit writes. -/
def Reports (trie : BackedTrie) (store : σ) (request : Request α) (error : TrieError) : Prop :=
  match request with
  | .change change =>
      ∃ hash, (hash, .error error) ∈ (trie.root.change change).heard trie.loader store
  | .get key =>
      ∃ hash, (hash, .error error) ∈ (trie.root.find? key.nibbles).heard trie.loader store
  | .commit | .reopen .. => trie.root.isFormed = true ∧
      (NodeStore.putAll store (trie.outgoing.1.map Outgoing.entry)).1 = .error error
  | .unload _ | .unloadRoot => False

end BackedTrie

/-- A trie over a store and the ledger of the changes that it made. -/
structure Session (σ α : Type) where
  trie : BackedTrie
  store : σ
  ledger : Ledger α

namespace Session

/-- The ledger after a request. Changes that succeed are recorded. -/
def record (ledger : Ledger α) (request : Request α) (outcome : Except Failure (Reply α)) :
    Ledger α :=
  match request, outcome with
  | .change change, .ok _ => ledger.record change
  | _, _ => ledger

/-- The outcome of a request and the session afterwards. -/
def step (session : Session σ α) (request : Request α) :
    Except Failure (Reply α) × Session σ α :=
  let (outcome, trie, store) := session.trie.attempt session.store request
  (outcome, ⟨trie, store, record session.ledger request outcome⟩)

/-- The session after some requests. -/
def after (session : Session σ α) (requests : List (Request α)) : Session σ α :=
  requests.foldl (fun session request ↦ (session.step request).2) session

/-- One more request is the next step. -/
theorem after_concat (session : Session σ α) (requests : List (Request α)) (request : Request α) :
    session.after (requests ++ [request]) = ((session.after requests).step request).2 := by
  rw [after, List.foldl_append]
  rfl

/-- The byte string goes between the trie and the store at some point of the session. -/
def Exchanged (session : Session σ α) (requests : List (Request α)) (bytes : Bytes) : Prop :=
  ∃ before request, before ++ [request] <+: requests ∧
    bytes ∈ (session.after before).trie.exchanged (session.after before).store request

/-- What goes between the trie and the store, request by request. -/
def transcript (session : Session σ α) : List (Request α) → List Bytes
  | [] => []
  | request :: requests =>
      session.trie.exchanged session.store request ++ (session.step request).2.transcript requests

/-- All of it is listed. -/
theorem Exchanged.mem_transcript {session : Session σ α} {requests : List (Request α)}
    {bytes : Bytes} (h : session.Exchanged requests bytes) :
    bytes ∈ session.transcript requests := by
  obtain ⟨before, request, hbefore, hmem⟩ := h
  induction before generalizing session requests with
  | nil =>
      obtain ⟨rest, rfl⟩ := hbefore
      exact List.mem_append_left _ hmem
  | cons first before ih =>
      obtain ⟨rest, rfl⟩ := hbefore
      exact List.mem_append_right _ (ih (List.prefix_append _ rest) hmem)

end Session

end Patricia
