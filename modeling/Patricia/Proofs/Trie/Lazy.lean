import Patricia.Proofs.Trie.Commons
import Patricia.Proofs.Trie.Thinning
import Patricia.Store.Probed

/-!
# Loading touches only the way of a key

Tries without entries share a store of any kind, and anything is done with them. Then a lookup of a
key, and putting a value that has an encoding, load the references on the key's way and no others,
in their order and each once. Removing the key loads these, and the one node that is left in a
branch without a value, if that is a reference (`Commons.after_lazy`). The store is asked for
nothing else, so it does not matter what it would answer to any other read.
-/

namespace Patricia

variable {σ : Type} [NodeStore σ] {α : Type} [TrieValue α]

/-- The loads of a read are those of the lookup, and the read leaves the loader and the store as the
lookup does. -/
theorem Node.read_frame (node : Node) (loader : Loader) (store : σ) (key : Bytes) :
    (node.read key : Walk (Option α)).loads loader store =
        (node.find? key.nibbles).loads loader store ∧
      ((node.read key : Walk (Option α)).run loader store).2 =
        ((node.find? key.nibbles).run loader store).2 ∧
      ∀ value : Bytes, ((node.find? key.nibbles).run loader store).1 = .ok (some value) →
        ((node.read key : Walk (Option α)).run loader store).1 ≠ .ok none := by
  rw [read, Walk.loads_bind, Walk.run_bind]
  rcases (node.find? key.nibbles).run loader store with ⟨failure | _ | bytes, later, after⟩
  · refine ⟨List.append_nil _, rfl, ?_⟩
    rintro value ⟨⟩
  · refine ⟨List.append_nil _, rfl, ?_⟩
    rintro value ⟨⟩
  · cases hdecode : (TrieValue.decode bytes : Except TrieError α) with
    | ok value =>
        simp only [hdecode]
        refine ⟨List.append_nil _, rfl, ?_⟩
        rintro _ - ⟨⟩
    | error error =>
        simp only [hdecode]
        refine ⟨List.append_nil _, rfl, ?_⟩
        rintro _ - ⟨⟩

/-- The request is a lookup or a change. -/
def Request.isAccess : Request α → Bool
  | .change _ | .get _ => true
  | .commit | .unload _ | .unloadRoot | .reopen .. => false

namespace BackedTrie

variable {trie : BackedTrie}

/-- The loads that a request makes. Only lookups and changes make any. -/
def loads (trie : BackedTrie) (store : σ) : Request α → List Load
  | .change change => (trie.root.change change).loads trie.loader store
  | .get key => (trie.root.read key : Walk (Option α)).loads trie.loader store
  | .commit | .unload _ | .unloadRoot | .reopen .. => []

/-- The trie obeys the rules, and no flight of its loader is under way. -/
structure Ready (trie : BackedTrie) : Prop where
  lawful : trie.Lawful
  idle : trie.loader.flights = []

namespace Ready

/-- A trie that was just opened is ready. -/
theorem openAt (owner capacity : Nat) (hpos : 0 < capacity) (origin : Hash) :
    (BackedTrie.openAt (.new owner capacity hpos) origin).Ready := by
  refine ⟨.openAt owner capacity hpos origin, ?_⟩
  rw [BackedTrie.openAt]
  split <;> rfl

/-- A trie without entries is ready. -/
theorem fresh (owner : Nat) (settings : Settings) : (BackedTrie.fresh owner settings).Ready :=
  ⟨⟨.null fun _ _ _ ↦ trivial, .new rfl⟩, rfl⟩

/-- Cached nodes can be dropped. -/
theorem unload (h : trie.Ready) (node : Node) : (trie.unload node).Ready :=
  ⟨h.lawful.unload node, unload_cases h.idle (fun _ ↦ h.idle) node⟩

/-- A change leaves the trie ready. -/
theorem change (h : trie.Ready) (store : σ) (change : Change α) :
    (trie.update store (trie.root.change change)).2.1.Ready := by
  obtain ⟨outcome, later, after, hupdate, hlawful, -⟩ := h.lawful.change store change
  have hidle := (Walk.run_idle h.idle store (trie.root.change change)).1
  rw [update, perform] at hupdate ⊢
  generalize (trie.root.change change).run trie.loader store = ended at hupdate hidle ⊢
  obtain ⟨failure | root, last, other⟩ := ended <;> cases hupdate <;> exact ⟨hlawful, hidle⟩

/-- A lookup leaves the trie ready. -/
theorem find? (h : trie.Ready) (store : σ) (key : Bytes) :
    (trie.find? store key : Except Failure (Option α) × BackedTrie × σ).2.1.Ready := by
  have hmeets := Node.find?_standing Service.lawful_steady key.nibbles h.lawful.standing
  obtain ⟨found, later, after, hperform, -, hlawful, -⟩ := h.lawful.perform store hmeets
  have hlater : (⟨((trie.root.find? key.nibbles).run trie.loader store).2.1, trie.root⟩ :
      BackedTrie) = ⟨later, trie.root⟩ := congrArg (·.2.1) hperform
  have hidle := (Walk.run_idle h.idle store (trie.root.find? key.nibbles)).1
  obtain ⟨-, hrun, -⟩ := Node.read_frame (α := α) trie.root trie.loader store key
  show (⟨((trie.root.read key : Walk (Option α)).run trie.loader store).2.1, trie.root⟩ :
    BackedTrie).Ready
  rw [hrun]
  exact ⟨hlater ▸ hlawful, hidle⟩

/-- A commit leaves the trie ready. -/
theorem commit (h : trie.Ready) (store : σ) : (trie.commit store).2.1.Ready := by
  obtain ⟨outcome, later, after, hcommit, hlawful, -⟩ := h.lawful.commit store
  refine ⟨by rw [hcommit]; exact hlawful, ?_⟩
  cases hformed : trie.root.isFormed with
  | false =>
      rw [commit_of_not_formed store hformed]
      exact h.idle
  | true =>
      have hprimed : trie.primed.flights = [] := (Loader.flights_retainAll _ _).trans h.idle
      rw [commit_eq store hformed]
      rcases NodeStore.putAll store (trie.outgoing.1.map Outgoing.entry) with ⟨error | _, other⟩
      · exact h.idle
      · exact hprimed

/-- Any request leaves the trie ready. -/
theorem attempt (h : trie.Ready) (store : σ) (request : Request α) :
    (trie.attempt store request).2.1.Ready := by
  cases request with
  | change change =>
      rw [attempt_change]
      exact h.change store change
  | get key => exact h.find? store key
  | commit => exact h.commit store
  | unload node => exact h.unload node
  | unloadRoot => exact h.unload trie.root
  | reopen owner settings =>
      have hcommit := h.commit store
      rw [BackedTrie.attempt]
      rcases hends : trie.commit store with ⟨failure | hash, later, after⟩
      · rw [hends] at hcommit
        exact hcommit
      · exact openAt owner settings.cacheCapacity settings.positive hash

/-! ## What is loaded -/

/-- A lookup loads what lies on the way of the key. -/
theorem get_way (h : trie.Ready) (store : σ) (key : Bytes) :
    trie.root.Way key.nibbles (trie.loads store (.get key : Request α)) := by
  rw [loads, (Node.read_frame trie.root trie.loader store key).1]
  exact Node.find?_way h.lawful store key.nibbles

/-- Putting a value that has an encoding loads what a lookup of the key loads. -/
theorem loads_put (h : trie.Ready) (store : σ) (key : Bytes) {value : α}
    (hvalue : TrieValue.encode value ≠ []) :
    trie.loads store (.change (.put key value)) = trie.loads store (.get key : Request α) := by
  have hwrite : trie.root.write key value =
      trie.root.insert key.nibbles (TrieValue.encode value) := by
    rw [Node.write, if_neg (fun hempty ↦ hvalue (List.isEmpty_iff.mp hempty))]
  rw [loads, loads, (Node.read_frame trie.root trie.loader store key).1, Node.change, hwrite]
  exact Node.loads_insert h.lawful store key.nibbles _

/-- Removing a key loads what a lookup of it loads, and then what it has to beside. Nothing is
loaded beside if the key has no value. -/
theorem loads_remove (h : trie.Ready) (store : σ) (key : Bytes) :
    ∃ beside, trie.loads store (.change (.remove key) : Request α) =
        trie.loads store (.get key : Request α) ++ beside ∧
      trie.root.Beside key.nibbles (trie.loads store (.get key : Request α)) beside ∧
      ((trie.attempt store (.get key : Request α)).1 = .ok (.value none) → beside = []) := by
  obtain ⟨hway, -, hvalue⟩ := Node.read_frame (α := α) trie.root trie.loader store key
  obtain ⟨beside, hloads, hbeside⟩ := (Node.erases h.lawful store key.nibbles).loads
  rw [loads, loads, hway]
  refine ⟨beside, hloads, hbeside, fun habsent ↦ hbeside.nothing fun left hleft ↦ ?_⟩
  obtain ⟨bytes, hfound⟩ := Node.find?_of_thins (Or.inr ⟨left, hleft⟩)
  refine hvalue bytes hfound ?_
  rw [BackedTrie.attempt] at habsent
  change (((trie.root.read key : Walk (Option α)).run trie.loader store).1.map Reply.value) = _
    at habsent
  generalize ((trie.root.read key : Walk (Option α)).run trie.loader store).1 = outcome
    at habsent ⊢
  cases outcome <;> cases habsent
  rfl

/-- A lookup or a change asks the store for the hashes that the cache has no node for and for
nothing else. It does the same over every store that answers these reads in the same way. -/
theorem attempt_frame (h : trie.Ready) (store : σ) {request : Request α}
    (haccess : request.isAccess = true) :
    (trie.attempt store request).2.2 =
        (Load.reads (trie.loads store request)).foldl NodeStore.request store ∧
      ∀ (τ : Type) [NodeStore τ] (other : τ),
        NodeStore.replies other (Load.reads (trie.loads store request)) =
          NodeStore.replies store (Load.reads (trie.loads store request)) →
        (trie.attempt other request).1 = (trie.attempt store request).1 ∧
          (trie.attempt other request).2.1 = (trie.attempt store request).2.1 := by
  cases request with
  | commit | unload | unloadRoot | reopen => cases haccess
  | get key =>
      refine ⟨(Walk.run_idle h.idle store (trie.root.read key : Walk (Option α))).2.2, ?_⟩
      intro τ _ other hreplies
      obtain ⟨-, houtcome, hlater⟩ := Walk.run_congr h.idle (trie.root.read key) hreplies
      exact ⟨congrArg (Except.map Reply.value) houtcome,
        congrArg (BackedTrie.mk · trie.root) hlater⟩
  | change change =>
      obtain ⟨-, -, hasked⟩ := Walk.run_idle h.idle store (trie.root.change change)
      refine ⟨?_, fun τ _ other hreplies ↦ ?_⟩
      · rw [attempt_change, update, perform, loads]
        generalize (trie.root.change change).run trie.loader store = ended at hasked ⊢
        obtain ⟨failure | root, later, after⟩ := ended <;> exact hasked
      · obtain ⟨-, houtcome, hlater⟩ := Walk.run_congr h.idle (trie.root.change change) hreplies
        rw [attempt_change, attempt_change, update, update, perform, perform]
        generalize (trie.root.change change).run trie.loader store = ended at houtcome hlater ⊢
        generalize (trie.root.change change).run trie.loader other = ended' at houtcome hlater ⊢
        obtain ⟨outcome, later, after⟩ := ended
        obtain ⟨outcome', later', after'⟩ := ended'
        obtain rfl : outcome' = outcome := houtcome
        obtain rfl : later' = later := hlater
        cases outcome' <;> exact ⟨rfl, rfl⟩

end Ready

end BackedTrie

/-! ## Runs -/

namespace Commons

variable {commons : Commons σ α}

/-- An act leaves all tries ready. -/
theorem step_ready (h : ∀ name, (commons.tries name).Ready) (act : Act α) (name : Nat) :
    ((commons.step act).tries name).Ready := by
  cases act with
  | ask asked request =>
      exact (Function.forall_update_iff commons.tries fun _ trie ↦ trie.Ready).mpr
        ⟨(h asked).attempt commons.store request, fun other _ ↦ h other⟩ name
  | resume resumed version owner settings =>
      rw [step, resume]
      split
      · exact h name
      · exact (Function.forall_update_iff commons.tries fun _ trie ↦ trie.Ready).mpr
          ⟨.openAt owner _ settings.positive _, fun other _ ↦ h other⟩ name

/-- Tries that are ready are so after any acts. -/
theorem after_ready_of_ready (h : ∀ name, (commons.tries name).Ready) (acts : List (Act α)) :
    ∀ name, ((commons.after acts).tries name).Ready :=
  after_induction (motive := fun commons ↦ ∀ name, (commons.tries name).Ready) h
    (fun _ act _ hready ↦ step_ready hready act) List.prefix_rfl

/-- After any acts all tries are ready. -/
theorem after_ready (store : σ) (settings : Nat → Settings) (acts : List (Act α)) (name : Nat) :
    (((start store settings).after acts).tries name).Ready :=
  after_ready_of_ready (fun name ↦ .fresh name (settings name)) acts name

/-- Tries that begin without entries share a store of any kind, which may fail and change its
answers, and do anything. After that, a lookup of a key in one of them loads the references that lie
on the way of the key, from the top down and each once, and so does putting a value that has an
encoding. Removing the key loads these, and after them the node that is left alone in a branch
without a value when the key is taken away, if there is such a branch and the node is a reference.
This node is asked for twice and read from the store once at most. Nothing is loaded beside the way
if the key has no value. Each of these requests asks the store for the hashes among its loads that
the cache has no node for, and it does the same over every store that answers these reads in the
same way. -/
theorem after_lazy (store : σ) (settings : Nat → Settings) (acts : List (Act α)) (name : Nat)
    (key : Bytes) :
    let commons := (start store settings).after acts
    let trie := commons.tries name
    let way := trie.loads commons.store (.get key : Request α)
    trie.root.Way key.nibbles way ∧
    (∀ value : α, TrieValue.encode value ≠ [] →
      trie.loads commons.store (.change (.put key value)) = way) ∧
    (∃ beside,
      trie.loads commons.store (.change (.remove key) : Request α) = way ++ beside ∧
      trie.root.Beside key.nibbles way beside ∧
      (Load.reads beside).length ≤ 1 ∧
      ((trie.attempt commons.store (.get key : Request α)).1 = .ok (.value none) →
        beside = [])) ∧
    ∀ request : Request α, request.isAccess = true →
      let reads := Load.reads (trie.loads commons.store request)
      (trie.attempt commons.store request).2.2 = reads.foldl NodeStore.request commons.store ∧
      ∀ (τ : Type) [NodeStore τ] (other : τ),
        NodeStore.replies other reads = NodeStore.replies commons.store reads →
        (trie.attempt other request).1 = (trie.attempt commons.store request).1 ∧
          (trie.attempt other request).2.1 = (trie.attempt commons.store request).2.1 := by
  intro commons trie way
  have hready : trie.Ready := after_ready store settings acts name
  refine ⟨hready.get_way commons.store key,
    fun value hvalue ↦ hready.loads_put commons.store key hvalue, ?_,
    fun request haccess ↦ hready.attempt_frame commons.store haccess⟩
  obtain ⟨beside, hloads, hbeside, habsent⟩ := hready.loads_remove (α := α) commons.store key
  exact ⟨beside, hloads, hbeside, hbeside.length_le.2, habsent⟩

/-- Tries over a store that logs its reads. -/
def logged : Commons ProbedStore Bytes :=
  start (.empty true) fun _ ↦ .standard

/-- Two entries with long values, under keys that part at the first nibble, are committed, and the
trie is opened again. -/
def reopened : List (Act Bytes) :=
  [.ask 0 (.change (.put [0x10] (List.replicate 40 0x07))),
    .ask 0 (.change (.put [0x20] (List.replicate 40 0x08))), .ask 0 (.reopen 1 .standard)]

set_option maxRecDepth 100000 in
/-- Taking the first key away loads the branch and the key's leaf on the way, and the other leaf
twice but with one read, as it is the one that is left. A lookup and a new value load the branch and
the key's leaf, so that the lookup does the same where the other leaf is hidden. -/
theorem reopened_lazy :
    let commons := logged.after reopened
    let trie := commons.tries 0
    let leaf := keccak256 (Node.leafForm [0] (List.replicate 40 0x07))
    let other := keccak256 (Node.leafForm [0] (List.replicate 40 0x08))
    let get : Request Bytes := .get [0x10]
    (trie.loads commons.store get).map (·.hash) = [trie.rootHash, leaf] ∧
      trie.loads commons.store (.change (.put [0x10] [0x01]) : Request Bytes) =
        trie.loads commons.store get ∧
      (trie.loads commons.store (.change (.remove [0x10]) : Request Bytes)).map
          (fun load ↦ (load.hash, load.heard.isSome)) =
        [(trie.rootHash, true), (leaf, true), (other, true), (other, false)] ∧
      (trie.attempt { commons.store with hidden := [other] } get).1 =
        (trie.attempt commons.store get).1 ∧
      (trie.attempt commons.store get).1 = .ok (.value (some (List.replicate 40 0x07))) := by
  intro commons trie leaf other get
  obtain ⟨-, hput, -, hframe⟩ :=
    after_lazy (ProbedStore.empty true) (fun _ ↦ .standard) reopened 0 [0x10]
  have hruns : (trie.loads commons.store get).map (·.hash) = [trie.rootHash, leaf] ∧
      (trie.loads commons.store (.change (.remove [0x10]) : Request Bytes)).map
          (fun load ↦ (load.hash, load.heard.isSome)) =
        [(trie.rootHash, true), (leaf, true), (other, true), (other, false)] ∧
      NodeStore.replies { commons.store with hidden := [other] }
          (Load.reads (trie.loads commons.store get)) =
        NodeStore.replies commons.store (Load.reads (trie.loads commons.store get)) ∧
      (trie.attempt commons.store get).1 = .ok (.value (some (List.replicate 40 0x07))) := by
    decide +kernel
  obtain ⟨hget, hremove, hreplies, hvalue⟩ := hruns
  exact ⟨hget, hput [0x01] (by decide), hremove,
    ((hframe get rfl).2 ProbedStore { commons.store with hidden := [other] } hreplies).1, hvalue⟩

end Commons

end Patricia
