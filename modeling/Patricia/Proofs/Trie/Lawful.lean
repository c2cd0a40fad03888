import Patricia.Proofs.Trie.Opened
import Patricia.Proofs.Trie.Session

/-!
# A trie over any store obeys the rules

A trie is `Lawful` when all nodes in its tree and in its cache obey the rules for their kinds and
were given out by its own loader. Nothing is supposed of the store. What a store answers becomes a
node only if it was read as one, and everything that is read obeys the rules, so every request
leaves the trie lawful whether it succeeds or not. Such a trie fails only as its store makes it
fail, with an error of the store's own if there is one, or as the value codec does
(`BackedTrie.Lawful.attempt`).
-/

namespace Patricia

namespace Node

variable {full : Bytes → Prop} {q : Node → Prop} {owner bound later : Nat} {node : Node}
  {made reference : Stamp}

/-! ## What a commit gathers -/

/-- What is gathered is in good standing: the form that a tree takes in its parent, and the nodes to
be written, none of which is empty. -/
structure GatheredStanding (full : Bytes → Prop) (q : Node → Prop) (owner later : Nat)
    (gathered : Node × List Outgoing) : Prop where
  form : gathered.1.Standing full q owner later
  below : ∀ outgoing ∈ gathered.2, outgoing.node.val.Standing full q owner later ∧
    outgoing.node.val.isNull = false

/-- A node in good standing stays with its parent or leaves a reference. -/
theorem post_standing (hq : Native q) (hreference : reference.Fresh owner bound later)
    {node : Resolved} {below : List Outgoing} (hnode : node.val.Standing full q owner later)
    (hnull : node.val.isNull = false)
    (hbelow : ∀ outgoing ∈ below, outgoing.node.val.Standing full q owner later ∧
      outgoing.node.val.isNull = false) :
    GatheredStanding full q owner later (post reference node below) := by
  rw [post]
  split
  · exact ⟨hnode, hbelow⟩
  · refine ⟨⟨trivial, hq _ hreference.source_eq,
      fun _ ↦ hreference.issued⟩, ?_⟩
    intro outgoing hmem
    rcases List.mem_append.mp hmem with hmem | hmem
    · exact hbelow outgoing hmem
    · rw [List.mem_singleton] at hmem
      subst hmem
      exact ⟨hnode, hnull⟩

/-- What is gathered of a tree in good standing is so. -/
theorem gather_standing (hq : Native q) (hmade : made.Fresh owner bound later)
    (hreference : reference.Fresh owner bound later) (h : node.Standing full q owner bound)
    (position : List Nat) :
    GatheredStanding full q owner later (node.gather made reference position) := by
  have hle := hmade.le
  induction node generalizing position with
  | null => exact ⟨.null hq.inherent, List.forall_mem_nil _⟩
  | stored stamp hash => exact ⟨h.mono hle, List.forall_mem_nil _⟩
  | leaf stamp path value =>
      exact post_standing hq (hreference.at_position position) (h.mono hle) rfl
        (List.forall_mem_nil _)
  | extension stamp first rest child ih =>
      obtain ⟨hform, hbelow⟩ := ih h.child (position ++ [0])
      have hnull := isNull_gather made reference (position ++ [0]) child
      refine post_standing hq (hreference.at_position position) ?_ ?_ hbelow
      · split
        · exact h.mono hle
        · exact ⟨⟨hnull.trans h.proper.1, hform.proper⟩, ⟨hq _ hmade.source_eq, hform.kept⟩,
            ⟨fun _ ↦ hmade.issued, hform.issued⟩⟩
      · split <;> rfl
  | branch stamp occupied slots value ih =>
      have hslots := fun slot : Nibble ↦ ih slot (h.slot slot) (position ++ [slot.val])
      rw [gather_branch made reference stamp position occupied slots value _ fun _ ↦ rfl]
      refine post_standing hq (hreference.at_position position) ?_ ?_ ?_
      · split
        · exact h.mono hle
        · obtain ⟨hsound, hforked, hvalue⟩ := h.proper.1
          have hnull := fun slot : Nibble ↦
            isNull_gather made reference (position ++ [slot.val]) (slots slot)
          refine ⟨⟨⟨?_, ?_, hvalue⟩, fun slot ↦ (hslots slot).form.proper⟩,
            ⟨hq _ hmade.source_eq, fun slot ↦ (hslots slot).form.kept⟩,
            ⟨fun _ ↦ hmade.issued, fun slot ↦ (hslots slot).form.issued⟩⟩
          · simpa only [Slots.Sound, hnull] using hsound
          · simpa only [Slots.Forked, hnull] using hforked
      · split <;> rfl
      · intro outgoing hmem
        obtain ⟨slot, -, hmem⟩ := List.mem_flatMap.mp hmem
        exact (hslots slot).below outgoing hmem

/-! ## Lookups -/

/-- A lookup in a standing tree does not fail by itself. -/
theorem find?_standing {service : Service} (hservice : service.Steady full q) (key : List Nibble)
    (h : node.Standing full q service.owner bound) :
    (node.find? key).Meets service.unbarred (fun _ _ ↦ True) bound := by
  induction node, key using Node.find?.induct generalizing bound with
  | case1 key =>
      rw [find?_null]
      trivial
  | case2 stamp path value key =>
      rw [find?_leaf]
      trivial
  | case3 stamp first lead child key hstrip =>
      rw [find?_extension, hstrip]
      trivial
  | case4 stamp first lead child key rest hstrip hlt ih =>
      rw [find?_extension, hstrip]
      exact ih h.child
  | case5 stamp occupied slots value =>
      rw [find?_branch_nil]
      trivial
  | case6 stamp occupied slots value nibble rest ih =>
      rw [find?_branch_cons]
      exact ih (h.slot nibble)
  | case7 stamp hash key ih =>
      rw [find?_stored]
      exact h.meets_load hservice fun node later _ hnode _ ↦ ih node hnode

end Node

/-! ## Failures -/

/-- The failure is one of reading from a store: there is no node, or what is there is none, or the
store fails. -/
def TrieError.isReading : TrieError → Bool
  | .notFound _ | .decode _ | .store _ => true
  | .unsupported _ | .invalidValue _ | .loaderDropped _ => false

/-- What is judged to be no node is a failure of reading, unless it is an error that the store
answers with. -/
theorem Loader.isReading_of_judge {hash : Hash} {answer : Answer} {error : TrieError}
    (h : judge hash answer = .error error) : error.isReading = true ∨ answer = .error error := by
  rcases answer with error | _ | bytes
  · cases h
    exact Or.inr rfl
  · cases h
    exact Or.inl rfl
  · rw [judge] at h
    split at h
    · split at h <;> cases h
      exact Or.inl rfl
    · cases h
      exact Or.inl rfl

/-- The codec of a type refuses bytes only as an invalid value. -/
def TrieValue.Refuses (α : Type) [TrieValue α] : Prop :=
  ∀ bytes error, (TrieValue.decode bytes : Except TrieError α) = .error error →
    ∃ fault, error = .invalidValue fault

/-- The codecs of byte strings, byte arrays and text do. -/
theorem ValueKind.refuses (kind : ValueKind) : TrieValue.Refuses kind.Carrier := by
  intro bytes error h
  cases kind with
  | bytes | array => cases h
  | text =>
      simp only [TrieValue.decode] at h
      split at h <;> cases h
      exact ⟨_, rfl⟩

/-- A request may fail as reading from the store does, and a lookup also if the value codec refuses
the bytes that were found. -/
def Request.Expects {α : Type} [TrieValue α] (request : Request α) : Failure → Prop
  | .error (.notFound _) | .error (.decode _) | .error (.store _) => True
  | .error (.invalidValue fault) => ∃ key bytes, request = .get key ∧
      (TrieValue.decode bytes : Except TrieError α) = .error (.invalidValue fault)
  | .error (.unsupported _) | .error (.loaderDropped _) | .breach _ => False

/-- A request may fail as reading does. -/
theorem Request.expects_of_isReading {α : Type} [TrieValue α] (request : Request α)
    {error : TrieError} (h : error.isReading = true) : request.Expects (.error error) := by
  cases error with
  | notFound | decode | store => trivial
  | unsupported | invalidValue | loaderDropped => cases h

/-- A reply that is made of a result fails as the result does. -/
theorem fails_of_map {β γ : Type} {outcome : Except Failure β} {reply : β → γ}
    {expects : Failure → Prop} (h : ∀ failure, outcome = .error failure → expects failure) :
    ∀ failure, outcome.map reply = .error failure → expects failure := by
  cases outcome with
  | ok result => nofun
  | error failure =>
      rintro _ ⟨⟩
      exact h failure rfl

/-! ## The trie -/

namespace Service

variable {owner : Nat}

/-- The service that hands out any node that obeys the rules and is not empty. -/
def lawful (owner : Nat) : Service where
  owner := owner
  asked _ := True
  served _ node := node.WellFormed ∧ node.isNull = false

/-- What is handed out so is steady. -/
theorem lawful_steady : (lawful owner).Steady (fun _ ↦ True) fun _ ↦ True where
  inherent _ _ _ := trivial
  proper hserved := hserved.1
  kept hserved := hserved.1.imp fun _ _ ↦ trivial
  present hserved := hserved.2

/-- Whatever an answer is read as may be handed out. -/
theorem lawful_takes (hash : Hash) (answer : Answer) : (lawful owner).Takes hash answer := by
  intro read _ hjudge owner' serial
  obtain ⟨bytes, -, -, hread⟩ := Loader.judge_eq_ok hjudge
  obtain ⟨hformed, hnull⟩ := Node.decode_wellFormed hread
  have hplain := Node.plain_issue owner' serial read.val
  refine ⟨Node.proper_of_plain hplain hformed, ?_⟩
  show (read.val.issue owner' serial).isNull = false
  rw [← Node.isNull_plain, hplain, Node.isNull_plain]
  exact hnull

end Service

namespace BackedTrie

variable {σ : Type} [NodeStore σ] {α β : Type} [TrieValue α] {trie : BackedTrie}

/-- A sequence performs its second part after the first. -/
theorem perform_bind {γ : Type} (trie : BackedTrie) (store : σ) (walk : Walk β)
    (last : β → Walk γ) :
    trie.perform store (walk >>= last) =
      match trie.perform store walk with
      | (.ok result, trie, store) => trie.perform store (last result)
      | (.error failure, trie, store) => (.error failure, trie, store) := by
  rw [perform, perform, Walk.run_bind]
  generalize walk.run trie.loader store = ended
  obtain ⟨_ | _, later, after⟩ := ended <;> rfl

/-- A request may fail so over a store: as is expected of it, or with an error that the store itself
fails with. -/
def MayFail (trie : BackedTrie) (store : σ) (request : Request α) (failure : Failure) : Prop :=
  request.Expects failure ∨ ∃ error, failure = .error error ∧ trie.Reports store request error

/-- A request may fail as reading does, or with an error that a read on it is answered with. -/
theorem mayFail_of_read {store : σ} {request : Request α} {error : TrieError} {heard : Prop}
    (h : error.isReading = true ∨ heard) (hheard : heard → trie.Reports store request error) :
    trie.MayFail store request (.error error) := by
  rcases h with hreading | h
  · exact Or.inl (Request.expects_of_isReading request hreading)
  · exact Or.inr ⟨error, rfl, hheard h⟩

/-- All nodes in the tree and in the cache of a trie obey the rules and are its own. -/
def Lawful (trie : BackedTrie) : Prop :=
  trie.Upheld (.lawful trie.loader.owner) (fun _ ↦ True) fun _ ↦ True

namespace Lawful

/-- A trie that was just opened is lawful. -/
theorem openAt (owner capacity : Nat) (hpos : 0 < capacity) (origin : Hash) :
    (BackedTrie.openAt (.new owner capacity hpos) origin).Lawful := by
  have howner : (BackedTrie.openAt (.new owner capacity hpos) origin).loader.owner = owner := by
    rw [BackedTrie.openAt]
    split <;> rfl
  exact Upheld.openAt (fun _ _ ↦ trivial) howner hpos origin

/-- Cached nodes can be dropped. -/
theorem unload (h : trie.Lawful) (node : Node) : (trie.unload node).Lawful :=
  unload_cases h (fun hash ↦ ⟨h.standing, h.serves.evict hash⟩) node

/-- A walk that ends as guaranteed does so over any store, or it fails as reading does or with an
error that the store answers with. The trie stays lawful. -/
theorem perform (h : trie.Lawful) (store : σ) {walk : Walk β} {post : Nat → β → Prop}
    (hmeets : walk.Meets (.lawful trie.loader.owner) post trie.loader.mint.next) :
    ∃ outcome later after, trie.perform store walk = (outcome, ⟨later, trie.root⟩, after) ∧
      later.owner = trie.loader.owner ∧ (⟨later, trie.root⟩ : BackedTrie).Lawful ∧
      (∀ result, outcome = .ok result → post later.mint.next result) ∧
      ∀ failure, outcome = .error failure → ∃ error, failure = .error error ∧
        (error.isReading = true ∨ ∃ hash, (hash, .error error) ∈ walk.heard trie.loader store) := by
  obtain ⟨outcome, later, after, hperform, hlater, hle, houtcome⟩ :=
    perform_concludes store hmeets h.serves fun _ _ ↦ Service.lawful_takes _ _
  have howner : later.owner = trie.loader.owner := hlater.owner_eq
  refine ⟨outcome, later, after, hperform, howner, ⟨?_, ?_⟩, ?_, ?_⟩
  · rw [howner]
    exact h.standing.mono hle
  · rw [howner]
    exact hlater
  · rintro result rfl
    exact houtcome
  · rintro failure rfl
    obtain ⟨⟨hash, answer⟩, hheard, error, -, hjudge, rfl⟩ := houtcome
    rcases Loader.isReading_of_judge hjudge with hreading | hanswer
    · exact ⟨error, rfl, Or.inl hreading⟩
    · obtain rfl : answer = .error error := hanswer
      exact ⟨error, rfl, Or.inr ⟨hash, hheard⟩⟩

/-- A lookup leaves the trie lawful and fails only as it may. -/
theorem find? (h : trie.Lawful) (hcodec : TrieValue.Refuses α) (store : σ) (key : Bytes) :
    ∃ (outcome : Except Failure (Option α)) (later : BackedTrie) (after : σ),
      trie.find? store key = (outcome, later, after) ∧ later.Lawful ∧
        ∀ failure, outcome = .error failure →
          trie.MayFail store (.get key : Request α) failure := by
  have hmeets := Node.find?_standing Service.lawful_steady key.nibbles h.standing
  obtain ⟨found, later, after, hperform, -, hlater, -, hfails⟩ := h.perform store hmeets
  rw [BackedTrie.find?, Node.read, perform_bind, hperform]
  cases found with
  | error failure =>
      obtain ⟨error, rfl, hread⟩ := hfails failure rfl
      refine ⟨_, _, _, rfl, hlater, ?_⟩
      rintro _ ⟨⟩
      exact mayFail_of_read hread id
  | ok found =>
      cases found with
      | none => exact ⟨.ok none, _, after, rfl, hlater, by rintro _ ⟨⟩⟩
      | some bytes =>
          cases hdecode : (TrieValue.decode bytes : Except TrieError α) with
          | ok value =>
              refine ⟨.ok (some value), ⟨later, trie.root⟩, after, ?_, hlater, by rintro _ ⟨⟩⟩
              simp only [hdecode]
              rfl
          | error error =>
              obtain ⟨fault, rfl⟩ := hcodec bytes error hdecode
              refine ⟨.error (.error (.invalidValue fault)), ⟨later, trie.root⟩, after, ?_, hlater,
                ?_⟩
              · simp only [hdecode]
                rfl
              · rintro _ ⟨⟩
                exact Or.inl ⟨key, bytes, rfl, hdecode⟩

/-- A change leaves the trie lawful and fails only as it may. -/
theorem change (h : trie.Lawful) (store : σ) (change : Change α) :
    ∃ outcome later after,
      trie.update store (trie.root.change change) = (outcome, later, after) ∧ later.Lawful ∧
        ∀ failure, outcome = .error failure → trie.MayFail store (.change change) failure := by
  have hmeets := Node.change_standing Service.lawful_steady (fun _ _ ↦ trivial) change h.standing
  obtain ⟨outcome, later, after, hperform, howner, hlater, hchanged, hfails⟩ :=
    h.perform store hmeets
  rw [update, hperform]
  cases outcome with
  | error failure =>
      obtain ⟨error, rfl, hread⟩ := hfails failure rfl
      refine ⟨_, _, after, rfl, hlater, ?_⟩
      rintro _ ⟨⟩
      exact mayFail_of_read hread id
  | ok root =>
      refine ⟨.ok (), ⟨later, root⟩, after, rfl, ⟨?_, hlater.serves⟩, by rintro _ ⟨⟩⟩
      rw [howner]
      exact (hchanged root rfl).1

/-- The nodes that a commit puts into the cache obey the rules. Two stamps are given out for them.
-/
theorem primed (h : trie.Lawful) (hformed : trie.root.isFormed = true) :
    trie.primed.Serves (.lawful trie.loader.owner) ∧
      trie.outgoing.2 = ⟨trie.loader.issue.2.issue.2, trie.root⟩ := by
  obtain ⟨hmade, hreference⟩ := trie.loader.fresh_issue
  have hgathers := Node.gather_standing (fun _ _ ↦ trivial) hmade hreference h.standing []
  have hnull := Node.isNull_gather trie.loader.issue.1 trie.loader.issue.2.issue.1 [] trie.root
  have hrest : trie.outgoing.2 = ⟨trie.loader.issue.2.issue.2, trie.root⟩ := rfl
  have houtgoing : ∀ outgoing ∈ trie.outgoing.1,
      outgoing.node.val.Standing (fun _ ↦ True) (fun _ ↦ True) trie.loader.owner
          (trie.loader.mint.next + 2) ∧ outgoing.node.val.isNull = false := by
    rw [outgoing]
    show ∀ outgoing ∈ dite _ _ _, _
    generalize trie.root.gather trie.loader.issue.1 trie.loader.issue.2.issue.1 [] = gathered
      at hgathers hnull ⊢
    obtain ⟨form, below⟩ := gathered
    split
    · intro outgoing hmem
      rcases List.mem_append.mp hmem with hmem | hmem
      · exact hgathers.below outgoing hmem
      · rw [List.mem_singleton] at hmem
        subst hmem
        exact ⟨hgathers.form, hnull.trans (Node.isNull_of_formed hformed)⟩
    · exact hgathers.below
  have hadvanced : trie.loader.issue.2.issue.2.Serves (.lawful trie.loader.owner) :=
    h.serves.advance rfl rfl (Nat.le_add_right _ 2)
  refine ⟨?_, hrest⟩
  rw [BackedTrie.primed, hrest]
  refine hadvanced.retainAll (fun node hnode ↦ (houtgoing node hnode).1.issued) fun node hnode ↦ ?_
  exact ⟨(houtgoing node hnode).1.proper, (houtgoing node hnode).2⟩

/-- A commit leaves the trie lawful and fails only with the error that the store does. -/
theorem commit (h : trie.Lawful) (store : σ) :
    ∃ outcome later after, trie.commit store = (outcome, later, after) ∧ later.Lawful ∧
      ∀ failure, outcome = .error failure → ∃ error, failure = .error error ∧
        trie.root.isFormed = true ∧
        (NodeStore.putAll store (trie.outgoing.1.map Outgoing.entry)).1 = .error error := by
  cases hformed : trie.root.isFormed with
  | false => exact ⟨_, trie, store, commit_of_not_formed store hformed, h, nofun⟩
  | true =>
      obtain ⟨hprimed, hrest⟩ := h.primed hformed
      rw [commit_eq store hformed]
      generalize NodeStore.putAll store (trie.outgoing.1.map Outgoing.entry) = written
      obtain ⟨error | _, after⟩ := written
      · refine ⟨_, trie.outgoing.2, after, rfl, ?_, ?_⟩
        · rw [hrest]
          exact ⟨h.standing.mono (Nat.le_add_right _ 2),
            h.serves.advance rfl rfl (Nat.le_add_right _ 2)⟩
        · rintro _ ⟨⟩
          exact ⟨error, rfl, rfl, rfl⟩
      · have howner : trie.primed.owner = trie.loader.owner := hprimed.owner_eq
        rw [← howner] at hprimed
        exact ⟨_, _, after, rfl, ⟨⟨trivial, trivial, fun _ ↦ ⟨rfl, Nat.lt_succ_self _⟩⟩,
          hprimed.advance rfl rfl (Nat.le_succ _)⟩, nofun⟩

/-- A request leaves the trie lawful and fails only as it may. -/
theorem attempt (h : trie.Lawful) (hcodec : TrieValue.Refuses α) (store : σ)
    (request : Request α) :
    ∃ outcome later after, trie.attempt store request = (outcome, later, after) ∧ later.Lawful ∧
      ∀ failure, outcome = .error failure → trie.MayFail store request failure := by
  cases request with
  | change change =>
      obtain ⟨outcome, later, after, hchange, hlater, hfails⟩ := h.change store change
      rw [attempt_change, hchange]
      exact ⟨_, later, after, rfl, hlater, fails_of_map hfails⟩
  | get key =>
      obtain ⟨outcome, later, after, hfind, hlater, hfails⟩ := h.find? hcodec store key
      rw [BackedTrie.attempt, hfind]
      exact ⟨_, later, after, rfl, hlater, fails_of_map hfails⟩
  | commit =>
      obtain ⟨outcome, later, after, hcommit, hlater, hfails⟩ := h.commit store
      rw [BackedTrie.attempt, hcommit]
      exact ⟨_, later, after, rfl, hlater,
        fails_of_map fun failure hfailure ↦ Or.inr (hfails failure hfailure)⟩
  | unload node => exact ⟨.ok .done, trie.unload node, store, rfl, h.unload node, nofun⟩
  | unloadRoot => exact ⟨.ok .done, trie.unloadRoot, store, rfl, h.unload trie.root, nofun⟩
  | reopen owner settings =>
      obtain ⟨outcome, later, after, hcommit, hlater, hfails⟩ := h.commit store
      rw [BackedTrie.attempt, hcommit]
      cases outcome with
      | ok hash =>
          have hopened := openAt owner settings.cacheCapacity settings.positive hash
          exact ⟨_, _, after, rfl, hopened, nofun⟩
      | error failure =>
          refine ⟨_, later, after, rfl, hlater, ?_⟩
          rintro _ ⟨⟩
          exact Or.inr (hfails failure rfl)

end Lawful

end BackedTrie

end Patricia
