import Patricia.Proofs.Store.Fitful
import Patricia.Proofs.Store.Linked
import Patricia.Proofs.Trie.Commons
import Patricia.Proofs.Trie.Lawful

/-!
# Commits that are interrupted

Tries share a store that is written by their commits only, and that fails at times. At no point does
the store have a dangling reference, wherever a commit was interrupted
(`Commons.interrupted_closed`): the nodes of a tree are written children before parents, and what a
tree in memory refers to is in the store. So if the hash of a root is there, everything below it is.
Nothing is supposed of hashes.
-/

namespace Patricia

namespace Service

variable {contents more : Contents} {owner : Nat}

/-- The service that hands out nodes that obey the rules, hold no empty values, are written as they
would be anew, and have entries for their references. -/
def linked (contents : Contents) (owner : Nat) : Service :=
  (lawful owner).restrict (· ≠ []) fun node ↦ node.Sincere ∧ node.Linked contents

/-- What is handed out so is steady. -/
theorem linked_steady : (linked contents owner).Steady (· ≠ []) fun node ↦
    node.Sincere ∧ node.Linked contents :=
  lawful_steady.narrow Node.inherent_linked

/-- A node may be handed out if it has the content of one that obeys the rules and is linked. -/
theorem linked_served {hash : Hash} {node other : Node} (hplain : node.plain = other.plain)
    (hnull : other.isNull = false) (hproper : other.All (Node.Proper (· ≠ [])))
    (hlinked : other.All (Node.Linked contents)) (hsincere : node.All Node.Sincere) :
    (linked contents owner).served hash node := by
  have hnode := Node.proper_of_plain hplain hproper
  refine ⟨⟨hnode.wellFormed, ?_⟩, hnode, hsincere.and (.linked_of_plain hplain hlinked)⟩
  rw [← Node.isNull_plain, hplain, Node.isNull_plain, hnull]

/-- What is read from an orderly store may be handed out. -/
theorem linked_reads (h : Orderly contents) : (linked contents owner).Reads contents := by
  intro hash read _ hjudge owner' serial
  obtain ⟨hproper, hsincere⟩ := h.clean hash read hjudge
  obtain ⟨bytes, hbytes, -, hread⟩ := decode_of_judge hjudge
  obtain ⟨other, hother, hlinked⟩ := h.closed hash bytes hbytes
  cases hread.symm.trans hother
  exact linked_served (Node.plain_issue owner' serial read.val) (Node.decode_wellFormed hread).2
    hproper (Node.all_linked_iff.mpr hlinked) (Node.Sincere.issue hsincere owner' serial)

end Service

namespace BackedTrie

variable {α β : Type} [TrieValue α] {contents more : Contents} {trie : BackedTrie}
  {store : FitfulStore} {hash : Hash}

/-- All nodes in the tree and in the cache of a trie hold no empty values, are written as they would
be anew, and have entries for their references. No flight is under way. -/
structure Moored (contents : Contents) (trie : BackedTrie) : Prop
    extends trie.Upheld (.linked contents trie.loader.owner) (· ≠ [])
      (fun node ↦ node.Sincere ∧ node.Linked contents) where
  idle : trie.loader.flights = []

/-- The hash can be opened: it is that of the empty tree, or there is an entry for it. -/
def Anchored (contents : Contents) (hash : Hash) : Prop :=
  hash = emptyRoot ∨ (contents hash).isSome = true

namespace Moored

/-- A trie stays moored when the store has more. -/
theorem mono (h : trie.Moored contents)
    (hmore : ∀ hash, (contents hash).isSome = true → (more hash).isSome = true) :
    trie.Moored more := by
  have hkept : ∀ {node : Node}, node.All (fun node ↦ node.Sincere ∧ node.Linked contents) →
      node.All fun node ↦ node.Sincere ∧ node.Linked more := fun hnode ↦
    hnode.imp fun _ hboth ↦ ⟨hboth.1, fun stamp hash heq ↦ hmore hash (hboth.2 stamp hash heq)⟩
  refine ⟨⟨⟨h.standing.proper, hkept h.standing.kept, h.standing.issued⟩, rfl, h.serves.issued,
    fun entry hentry ↦ ?_⟩, h.idle⟩
  obtain ⟨hlawful, hproper, hnode⟩ := h.serves.served entry hentry
  exact ⟨hlawful, hproper, hkept hnode⟩

/-- A trie that was just opened on a hash for which there is an entry is moored. -/
theorem openAt (h : Anchored contents hash) (owner capacity : Nat) (hpos : 0 < capacity) :
    (BackedTrie.openAt (.new owner capacity hpos) hash).Moored contents := by
  have hserves : (Loader.new owner capacity hpos).Serves (.linked contents owner) := .new rfl
  rw [BackedTrie.openAt]
  split
  · exact ⟨⟨.null Node.inherent_linked, hserves⟩, rfl⟩
  · rename_i hne
    have hentry := h.resolve_left hne
    refine ⟨⟨⟨trivial, ⟨rfl, ?_⟩, fun _ ↦ ⟨rfl, Nat.lt_succ_self _⟩⟩,
      hserves.advance rfl rfl (Nat.le_succ _)⟩, rfl⟩
    rintro _ _ ⟨⟩
    exact hentry

/-- A trie without entries is moored. -/
theorem empty (owner capacity : Nat) (hpos : 0 < capacity) :
    (BackedTrie.empty (.new owner capacity hpos)).Moored contents :=
  ⟨⟨.null Node.inherent_linked, .new rfl⟩, rfl⟩

/-- Cached nodes can be dropped. -/
theorem unload (h : trie.Moored contents) (node : Node) : (trie.unload node).Moored contents :=
  unload_cases h (fun hash ↦ ⟨⟨h.standing, h.serves.evict hash⟩, h.idle⟩) node

/-- A walk leaves the trie moored. If it succeeds it ends as guaranteed. -/
theorem perform (h : trie.Moored store.nodes.get?) (hstore : Orderly store.nodes.get?)
    {walk : Walk β} {post : Nat → β → Prop}
    (hmeets : walk.Meets (.linked store.nodes.get? trie.loader.owner) post
      trie.loader.mint.next) :
    ∃ outcome later clock,
      trie.perform store walk = (outcome, ⟨later, trie.root⟩, { store with clock }) ∧
      later.owner = trie.loader.owner ∧
      (⟨later, trie.root⟩ : BackedTrie).Moored store.nodes.get? ∧
      ∀ result, outcome = .ok result → post later.mint.next result := by
  obtain ⟨outcome, later, clock, hrun, hidle, hserves, hle, houtcome⟩ :=
    Walk.run_fitful_meets (Service.linked_reads hstore) h.serves h.idle hmeets
  have howner : later.owner = trie.loader.owner := hserves.owner_eq
  refine ⟨outcome, later, clock, by rw [BackedTrie.perform, hrun], howner, ⟨⟨?_, ?_⟩, hidle⟩, ?_⟩
  · rw [howner]
    exact h.standing.mono hle
  · rw [howner]
    exact hserves
  · rintro result rfl
    exact houtcome

variable (α) in
/-- A lookup leaves the trie moored. -/
theorem find? (h : trie.Moored store.nodes.get?) (hstore : Orderly store.nodes.get?)
    (key : Bytes) :
    ∃ (outcome : Except Failure (Option α)) (later : BackedTrie) (clock : Nat),
      trie.find? store key = (outcome, later, { store with clock }) ∧
        later.Moored store.nodes.get? := by
  have hmeets := Node.find?_standing Service.linked_steady key.nibbles h.standing
  obtain ⟨found, later, clock, hperform, -, hlater, -⟩ := h.perform hstore hmeets
  rw [BackedTrie.find?, Node.read, perform_bind, hperform]
  -- What is made of the bytes asks the store for nothing.
  rcases found with failure | _ | bytes
  · exact ⟨_, _, clock, rfl, hlater⟩
  · exact ⟨_, _, clock, rfl, hlater⟩
  · cases hdecode : (TrieValue.decode bytes : Except TrieError α) with
    | ok value =>
        refine ⟨.ok (some value), ⟨later, trie.root⟩, clock, ?_, hlater⟩
        simp only [hdecode]
        rfl
    | error error =>
        refine ⟨.error (.error error), ⟨later, trie.root⟩, clock, ?_, hlater⟩
        simp only [hdecode]
        rfl

/-- A change leaves the trie moored. -/
theorem change (h : trie.Moored store.nodes.get?) (hstore : Orderly store.nodes.get?)
    (change : Change α) :
    ∃ outcome later clock,
      trie.update store (trie.root.change change) = (outcome, later, { store with clock }) ∧
        later.Moored store.nodes.get? := by
  have hmeets := Node.change_standing Service.linked_steady (fun _ ↦ id) change h.standing
  obtain ⟨outcome, later, clock, hperform, howner, hlater, hchanged⟩ := h.perform hstore hmeets
  rw [update, hperform]
  cases outcome with
  | error failure => exact ⟨_, _, clock, rfl, hlater⟩
  | ok root =>
      refine ⟨.ok (), ⟨later, root⟩, clock, rfl, ⟨⟨?_, hlater.serves⟩, hlater.idle⟩⟩
      rw [howner]
      exact (hchanged root rfl).1

/-! ## Commits -/

omit [TrieValue α] in
/-- A commit writes the nodes that it takes, each under its hash. -/
theorem writes_eq (h : trie.Moored contents) (hformed : trie.root.isFormed = true) :
    trie.writes (.commit : Request α) =
      trie.root.committed.map fun part ↦ (part.hash, part.encoding) := by
  rw [writes, if_pos hformed]
  exact outgoing_entries hformed (h.standing.kept.imp fun _ hnode ↦ hnode.1) h.standing.issued

omit [TrieValue α] in
/-- The nodes that a commit takes may be written. -/
theorem due (h : trie.Moored contents) (hformed : trie.root.isFormed = true)
    (hfits : ∀ entry ∈ trie.writes (.commit : Request α), entry.2.length < 2 ^ 64) :
    ∀ part ∈ trie.root.committed, part.Due contents := by
  intro part hpart
  obtain ⟨hpartFormed, hof⟩ := Node.committed_partOf hformed hpart
  refine ⟨hpartFormed, hof _ h.standing.proper, hof _ (h.standing.kept.imp fun _ hnode ↦ hnode.1),
    hof _ (h.standing.kept.imp fun _ hnode ↦ hnode.2), hfits (part.hash, part.encoding) ?_⟩
  rw [h.writes_eq hformed]
  exact List.mem_map_of_mem hpart

omit [TrieValue α] in
/-- The store stays orderly wherever a commit is interrupted. -/
theorem written_orderly {nodes : MemoryStore} (h : trie.Moored nodes.get?)
    (hnodes : Orderly nodes.get?)
    (hfits : ∀ entry ∈ trie.writes (.commit : Request α), entry.2.length < 2 ^ 64)
    {written : List Entry} (hwritten : written <+: trie.writes (.commit : Request α)) :
    Orderly (nodes.insertAll written).get? := by
  cases hformed : trie.root.isFormed with
  | false =>
      rw [writes, hformed] at hwritten
      obtain rfl := List.prefix_nil.mp hwritten
      exact hnodes
  | true =>
      rw [h.writes_eq hformed] at hwritten
      obtain ⟨parts, hparts, rfl⟩ := List.prefix_map_iff.mp hwritten
      obtain ⟨rest, hrest⟩ := hparts
      have hgrounded := Node.grounded_committed hformed
      rw [← hrest] at hgrounded
      exact hnodes.insertAll (Node.grounded_append.mp hgrounded).1 (List.forall_mem_nil _)
        fun part hpart ↦ h.due hformed hfits part (hrest ▸ List.mem_append_left rest hpart)

omit [TrieValue α] in
/-- Once the nodes that a commit takes have entries, they may be handed out. -/
theorem hands (h : trie.Moored contents) (hformed : trie.root.isFormed = true)
    (hfits : ∀ entry ∈ trie.writes (.commit : Request α), entry.2.length < 2 ^ 64)
    (hmore : ∀ hash, (contents hash).isSome = true → (more hash).isSome = true)
    (hwritten : ∀ part ∈ trie.root.committed, (more part.hash).isSome = true) :
    trie.Hands (.linked more trie.loader.owner) := by
  intro part hpart node _ hplain hsincere
  have hdue := h.due hformed hfits part hpart
  have hcontent : node.plain = part.abridged.plain := by
    rw [hplain, (Node.blank_abridged part).plain_eq]
  have hnull : part.abridged.isNull = false := by
    have hpartNull := Node.isNull_of_formed hdue.formed
    cases part with
    | null => cases hpartNull
    | leaf | extension | branch | stored => rfl
  refine Service.linked_served hcontent hnull hdue.proper.proper_abridged
    ((hdue.linked.linked_mono hmore).linked_abridged fun below hbelow ↦ hwritten below ?_) hsincere
  exact ((Node.grounded_committed hformed).mem hpart hbelow).resolve_left List.not_mem_nil

/-- The root hash can be opened if there is an entry for it or the root has no form. -/
theorem anchored (h : trie.Moored contents)
    (hentry : trie.root.isFormed = true → (contents trie.rootHash).isSome = true) :
    Anchored contents trie.rootHash := by
  have hkept := h.standing.kept
  rw [rootHash] at hentry ⊢
  cases hroot : trie.root with
  | null => exact Or.inl rfl
  | stored stamp hash =>
      rw [hroot] at hkept
      exact Or.inr (hkept.2 stamp hash rfl)
  | leaf | extension | branch =>
      rw [hroot] at hentry
      exact Or.inr (hentry rfl)

omit [TrieValue α] in
/-- A commit, which may fail halfway, leaves the trie moored and the store orderly. If it succeeds
the hash that it gives can be opened. -/
theorem commit (h : trie.Moored store.nodes.get?) (hstore : Orderly store.nodes.get?)
    (hfits : ∀ entry ∈ trie.writes (.commit : Request α), entry.2.length < 2 ^ 64) :
    ∃ outcome later after, trie.commit store = (outcome, later, after) ∧
      later.Moored after.nodes.get? ∧ Orderly after.nodes.get? ∧
      (∀ hash, (store.nodes.get? hash).isSome = true → (after.nodes.get? hash).isSome = true) ∧
      ∀ hash, outcome = .ok hash → Anchored after.nodes.get? hash := by
  cases hformed : trie.root.isFormed with
  | false =>
      refine ⟨_, trie, store, commit_of_not_formed store hformed, h, hstore, fun _ ↦ id, ?_⟩
      rintro _ ⟨⟩
      exact h.anchored fun hroot ↦ absurd (hformed.symm.trans hroot) Bool.false_ne_true
  | true =>
      have hsincere : trie.root.All Node.Sincere := h.standing.kept.imp fun _ hnode ↦ hnode.1
      have hputs := store.putAll_cases (trie.writes (.commit : Request α))
      rw [commit_puts α trie store hformed]
      generalize NodeStore.putAll store (trie.writes (.commit : Request α)) = put at hputs
      obtain ⟨outcome, after⟩ := put
      obtain ⟨written, hwritten, -, hafter, houtcome⟩ := hputs
      have hnodes : after.nodes = store.nodes.insertAll written := by rw [hafter]
      have hmore : ∀ hash, (store.nodes.get? hash).isSome = true →
          (after.nodes.get? hash).isSome = true := by
        intro hash hentry
        rw [hnodes]
        exact MemoryStore.isSome_insertAll (Or.inl hentry)
      have horderly : Orderly after.nodes.get? := by
        rw [hnodes]
        exact h.written_orderly hstore hfits hwritten
      cases outcome with
      | error error =>
          have hrest : trie.outgoing.2 = ⟨trie.loader.issue.2.issue.2, trie.root⟩ := rfl
          refine ⟨_, trie.outgoing.2, after, rfl, ?_, horderly, hmore, nofun⟩
          rw [hrest]
          have hlater := h.mono hmore
          exact ⟨⟨hlater.standing.mono (Nat.le_add_right _ 2),
            hlater.serves.advance rfl rfl (Nat.le_add_right _ 2)⟩, h.idle⟩
      | ok done =>
          obtain rfl : written = trie.writes (.commit : Request α) := houtcome
          have hparts : ∀ part ∈ trie.root.committed,
              (after.nodes.get? part.hash).isSome = true := by
            intro part hpart
            rw [hnodes]
            refine MemoryStore.isSome_insertAll (Or.inr ⟨(part.hash, part.encoding), ?_, rfl⟩)
            rw [h.writes_eq hformed]
            exact List.mem_map_of_mem hpart
          have hroot : (after.nodes.get? trie.rootHash).isSome = true :=
            hparts trie.root (Node.mem_committed hformed)
          have hprimed := primed_serves hformed hsincere h.standing.issued (h.mono hmore).serves
            (h.hands hformed hfits hmore hparts)
          have howner : trie.primed.owner = trie.loader.owner := hprimed.owner_eq
          have hidle : trie.primed.flights = [] := (Loader.flights_retainAll _ _).trans h.idle
          rw [← howner] at hprimed
          refine ⟨_, _, after, rfl, ⟨⟨⟨trivial, ⟨rfl, ?_⟩, fun _ ↦ ⟨rfl, Nat.lt_succ_self _⟩⟩,
            hprimed.advance rfl rfl (Nat.le_succ _)⟩, hidle⟩, horderly, hmore, ?_⟩
          · rintro _ _ ⟨⟩
            exact hroot
          · rintro _ ⟨⟩
            exact Or.inr hroot

/-- A request, which may fail, leaves the trie moored and the store orderly. If it is a commit that
succeeds, the hash that it gives can be opened. -/
theorem attempt (h : trie.Moored store.nodes.get?) (hstore : Orderly store.nodes.get?)
    (request : Request α) (hfits : ∀ entry ∈ trie.writes request, entry.2.length < 2 ^ 64) :
    ∃ outcome later after, trie.attempt store request = (outcome, later, after) ∧
      later.Moored after.nodes.get? ∧ Orderly after.nodes.get? ∧
      (∀ hash, (store.nodes.get? hash).isSome = true → (after.nodes.get? hash).isSome = true) ∧
      ∀ hash, outcome = .ok (.hash hash) → Anchored after.nodes.get? hash := by
  cases request with
  | change change =>
      obtain ⟨outcome, later, clock, hchange, hlater⟩ := h.change hstore change
      rw [attempt_change, hchange]
      refine ⟨_, later, _, rfl, hlater, hstore, fun _ ↦ id, fun hash hreply ↦ ?_⟩
      cases outcome <;> cases hreply
  | get key =>
      obtain ⟨outcome, later, clock, hfind, hlater⟩ := h.find? α hstore key
      rw [BackedTrie.attempt, hfind]
      refine ⟨_, later, _, rfl, hlater, hstore, fun _ ↦ id, fun hash hreply ↦ ?_⟩
      cases outcome <;> cases hreply
  | commit =>
      obtain ⟨outcome, later, after, hcommit, hlater, horderly, hmore, hanchored⟩ :=
        h.commit hstore hfits
      rw [BackedTrie.attempt, hcommit]
      refine ⟨_, later, after, rfl, hlater, horderly, hmore, fun hash hreply ↦ ?_⟩
      cases outcome with
      | error failure => cases hreply
      | ok given =>
          cases hreply
          exact hanchored hash rfl
  | unload node => exact ⟨_, _, store, rfl, h.unload node, hstore, fun _ ↦ id, by rintro _ ⟨⟩⟩
  | unloadRoot => exact ⟨_, _, store, rfl, h.unload trie.root, hstore, fun _ ↦ id, by rintro _ ⟨⟩⟩
  | reopen owner settings =>
      obtain ⟨outcome, later, after, hcommit, hlater, horderly, hmore, hanchored⟩ :=
        h.commit hstore
          (show ∀ entry ∈ trie.writes (.commit : Request α), entry.2.length < 2 ^ 64 from hfits)
      rw [BackedTrie.attempt, hcommit]
      cases outcome with
      | error failure => exact ⟨_, later, after, rfl, hlater, horderly, hmore, by rintro _ ⟨⟩⟩
      | ok given =>
          have hgiven := hanchored given rfl
          refine ⟨_, _, after, rfl, openAt hgiven owner settings.cacheCapacity settings.positive,
            horderly, hmore, ?_⟩
          rintro _ ⟨⟩
          exact hgiven

end Moored

end BackedTrie

/-! ## Runs -/

namespace Commons

open BackedTrie (Anchored)

variable {α : Type} [TrieValue α] {commons : Commons FitfulStore α} {acts before : List (Act α)}

/-- The store is orderly, all tries are moored, and every version can be opened. -/
structure Secure (commons : Commons FitfulStore α) : Prop where
  orderly : Orderly commons.store.nodes.get?
  moored : ∀ name, (commons.tries name).Moored commons.store.nodes.get?
  anchored : ∀ version ∈ commons.versions, Anchored commons.store.nodes.get? version.1

namespace Secure

omit [TrieValue α] in
/-- Tries without entries over a store without entries are secure. -/
theorem start (batches : Bool) (moods : Nat → Mood) (settings : Nat → Settings) :
    (start (FitfulStore.empty batches moods) settings : Commons FitfulStore α).Secure :=
  ⟨.empty, fun _ ↦ .empty _ _ _, nofun⟩

/-- A trie may be given the name if it is moored. -/
theorem update {contents : Contents} {tries : Nat → BackedTrie}
    (h : ∀ name, (tries name).Moored contents) {trie : BackedTrie} (htrie : trie.Moored contents)
    (name : Nat) : ∀ other, (Function.update tries name trie other).Moored contents :=
  (Function.forall_update_iff tries fun _ other ↦ other.Moored contents).mpr
    ⟨htrie, fun other _ ↦ h other⟩

/-- A request leaves all tries and the store secure. -/
theorem ask (h : commons.Secure) (name : Nat) (request : Request α)
    (hfits : ∀ entry ∈ (commons.tries name).writes request, entry.2.length < 2 ^ 64) :
    (commons.ask name request).2.Secure := by
  obtain ⟨outcome, later, after, hattempt, hlater, horderly, hmore, hanchored⟩ :=
    (h.moored name).attempt h.orderly request hfits
  rw [Commons.ask, hattempt]
  refine ⟨horderly, update (fun other ↦ (h.moored other).mono hmore) hlater name, ?_⟩
  intro version hversion
  rcases List.mem_append.mp hversion with hold | hnew
  · exact (h.anchored version hold).imp id (hmore version.1)
  · rcases outcome with failure | _ | _ | hash
    · cases hnew
    · cases hnew
    · cases hnew
    · obtain rfl := List.mem_singleton.mp hnew
      exact hanchored hash rfl

omit [TrieValue α] in
/-- Any version may be resumed. -/
theorem resume (h : commons.Secure) (name version owner : Nat) (settings : Settings) :
    (commons.resume name version owner settings).Secure := by
  rw [Commons.resume]
  split
  · exact h
  · rename_i hash ledger hversion
    have hanchored := h.anchored _ (List.mem_of_getElem? hversion)
    exact ⟨h.orderly, update h.moored (.openAt hanchored owner _ settings.positive) name,
      h.anchored⟩

/-- Acts leave all tries and the store secure, if no form that is written is too long. -/
theorem after (h : commons.Secure)
    (hfits : ∀ bytes, commons.Written acts bytes → bytes.length < 2 ^ 64)
    (hbefore : before <+: acts) : (commons.after before).Secure := by
  refine after_induction h (fun first act hfirst hsecure ↦ ?_) hbefore
  cases act with
  | ask name request =>
      exact hsecure.ask name request fun entry hentry ↦
        hfits _ ⟨first, name, request, hfirst, entry, hentry, rfl⟩
  | resume name version owner settings => exact hsecure.resume name version owner settings

end Secure

/-- Tries that begin without entries share a store without entries, which fails at any times, and do
anything. When one of them commits and only some of the first entries are written, each entry of the
store is read as a node, and there is an entry for each reference in it, also in what is written in
place. So if there is an entry for the hash of the root, there are entries for all that is below it.
It is assumed that the lengths of all forms that are written fit in 64 bits. -/
theorem interrupted_closed (batches : Bool) (moods : Nat → Mood) (settings : Nat → Settings)
    {name : Nat} {written : List Entry}
    (hfits : ∀ bytes, (start (FitfulStore.empty batches moods) settings).Written acts bytes →
      bytes.length < 2 ^ 64)
    (hbefore : before ++ [.ask name .commit] <+: acts) :
    let commons : Commons FitfulStore α :=
      (start (FitfulStore.empty batches moods) settings).after before
    written <+: (commons.tries name).writes (.commit : Request α) →
    let contents := (commons.store.nodes.insertAll written).get?
    Closed contents ∧
      ((contents (commons.tries name).rootHash).isSome = true →
        ∀ hash, Below contents (commons.tries name).rootHash hash →
          ∃ bytes read, contents hash = some bytes ∧ Node.decode bytes = .ok read) := by
  intro commons hwritten contents
  have hsecure : commons.Secure := (Secure.start batches moods settings).after hfits
    ((List.prefix_append before _).trans hbefore)
  have horderly : Orderly contents := (hsecure.moored name).written_orderly hsecure.orderly
    (fun entry hentry ↦ hfits _ ⟨before, name, .commit, hbefore, entry, hentry, rfl⟩) hwritten
  exact ⟨horderly.closed, fun hroot hash hbelow ↦ horderly.closed.below hroot hbelow⟩

/-- Tries without entries over a store that fails at the third tick, and writes one entry at a tick.
-/
def failing : Commons FitfulStore Bytes :=
  start (.empty false fun moment ↦
      if moment = 3 then .failing (.store (.refused "disk full")) else .well)
    fun _ ↦ .standard

/-- Two entries with long values are put whose keys part at the first nibble. -/
def parting : List (Act Bytes) :=
  [.ask 0 (.change (.put [0x01] (List.replicate 40 0x07))),
    .ask 0 (.change (.put [0x11] (List.replicate 40 0x08)))]

/-- The entries are committed, and committed again. -/
def repeated : List (Act Bytes) :=
  parting ++ [.ask 0 .commit, .ask 0 .commit]

set_option maxRecDepth 100000 in
/-- No form that is written is too long. -/
theorem failing_fits {bytes : Bytes} (h : failing.Written repeated bytes) :
    bytes.length < 2 ^ 64 := by
  have hforms : ∀ bytes ∈ failing.transcript repeated, bytes.length < 2 ^ 64 := by
    decide +kernel
  exact hforms bytes (written_iff.mp h)

set_option maxRecDepth 100000 in
/-- The two leaves and the branch above them are to be written. The store has two entries when the
first commit fails, and no dangling reference wherever the second one is interrupted. -/
theorem failing_interrupted :
    ((failing.after parting).ask 0 .commit).1 =
        .error (.error (.store (.refused "disk full"))) ∧
      (failing.after (parting ++ [.ask 0 .commit])).store.nodes.size = 2 ∧
      ∀ count, Closed ((failing.after (parting ++ [.ask 0 .commit])).store.nodes.insertAll
        ((((failing.after (parting ++ [.ask 0 .commit])).tries 0).writes
          (.commit : Request Bytes)).take count)).get? := by
  refine ⟨by decide +kernel, by decide +kernel, fun count ↦ ?_⟩
  exact (interrupted_closed false _ (fun _ ↦ .standard) (fun _ ↦ failing_fits) List.prefix_rfl
    (List.take_prefix count _)).1

end Commons

end Patricia
