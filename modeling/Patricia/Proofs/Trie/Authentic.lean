import Mathlib.Data.List.Infix
import Patricia.Proofs.Store.Vouched
import Patricia.Proofs.Trie.Session

/-!
# A root hash authenticates what a store answers

A trie is opened on the root hash of a map, over a store of which nothing is known: it may answer a
read with any bytes, with nothing or with an error, and differently each time. Whatever requests the
trie receives, a lookup that succeeds gives the value that the map has after the changes that
succeeded, and the root hash is the canonical one of that map (`Session.after_authentic`).

The only exception is a collision: two byte strings with one hash, one of them an encoding of a node
in the canonical trees of these maps, and the other one answered by the store, written by a commit,
or the form of the empty tree. The last two count like answers, since a commit puts what it writes
into the cache, and the hash of the empty tree is never asked for.
-/

namespace Patricia

variable {σ : Type} [NodeStore σ] {α β : Type} [TrieValue α]

namespace BackedTrie

variable {honest : Bytes → Prop} {trie : BackedTrie} {store : σ} {ledger : Ledger α}

/-- The trie's owner gave out all of its nodes, and the trie holds the content of a ledger where
hashes vouch for the trees behind references. Its cache has only nodes that show the trees with
their hashes. -/
structure Trusts (honest : Bytes → Prop) (trie : BackedTrie) (ledger : Ledger α) : Prop where
  issued : trie.root.Issued trie.loader.owner trie.loader.mint.next
  serves : trie.loader.Serves (.vouching honest trie.loader.owner)
  holds : ∃ content, ledger.Records content ∧ trie.root.Holds (Vouched honest) content

namespace Trusts

/-- The root shows the tree of the ledger's entries, which has the ledger's content. -/
theorem root_shows (h : trie.Trusts honest ledger) :
    trie.root.Shows (Vouched honest) ledger.table.tree ∧ ledger.table.tree.Normal ∧
      ledger.table.tree.Blank ∧ ledger.Records ledger.table.tree.content := by
  obtain ⟨content, hrecords, hholds⟩ := h.holds
  exact hholds.shows_tree hrecords fun _ _ hvouched ↦ hvouched.isWhole.blank

/-- The root's hash is that of the composed form of the ledger's entries. -/
theorem rootHash_eq (h : trie.Trusts honest ledger) :
    trie.rootHash = keccak256 ledger.table.form := by
  obtain ⟨hshows, hnormal, -, -⟩ := h.root_shows
  exact hshows.hash_eq_form hnormal

/-- The tree of the ledger's entries is whole if its encodings are honest and such encodings fit. -/
theorem whole (h : trie.Trusts honest ledger)
    (hhonest : ledger.table.tree.All fun node ↦ honest node.encoding)
    (hfits : ∀ bytes, honest bytes → bytes.length < 2 ^ 64) : ledger.table.tree.Whole :=
  ⟨h.root_shows.2.1, h.root_shows.2.2.1, hhonest.imp fun _ hnode ↦ hfits _ hnode⟩

/-- Cached nodes can be dropped. -/
theorem unload (h : trie.Trusts honest ledger) (node : Node) :
    (trie.unload node).Trusts honest ledger :=
  unload_cases h (fun hash ↦ ⟨h.issued, h.serves.evict hash, h.holds⟩) node

/-- A trie that is opened on the hash of a ledger's tree holds what the ledger does. -/
theorem openAt (hrecords : ledger.Records ledger.table.tree.content)
    (hwhole : ledger.table.tree.Whole)
    (hhonest : ledger.table.tree.All fun node ↦ honest node.encoding)
    (hempty : Unforged honest [0x80]) (owner capacity : Nat) (hpos : 0 < capacity) :
    (BackedTrie.openAt (.new owner capacity hpos) (keccak256 ledger.table.form)).Trusts honest
      ledger := by
  have hserves : (Loader.new owner capacity hpos).Serves (.vouching honest owner) := .new rfl
  have hhash : ledger.table.tree.hash = keccak256 ledger.table.form := by
    rw [Node.hash_eq_keccak256 hwhole.normal.isStored_eq, Table.encoding_tree]
  rw [← hhash, BackedTrie.openAt]
  split
  -- The tree is written like the empty one, which only the empty tree is.
  · rename_i heq
    rw [Node.hash_eq_keccak256 hwhole.normal.isStored_eq] at heq
    have hnull := hwhole.isNull_of_encoding (hempty _ hhonest.self heq.symm).symm
    have htree : ledger.table.tree = .null := by
      cases htree : ledger.table.tree with
      | null => rfl
      | leaf | extension | branch | stored =>
          rw [htree] at hnull
          cases hnull
    refine ⟨Node.issued_null, hserves, _, hrecords, ?_⟩
    rw [htree]
    exact Node.holds_null
  · rename_i hne
    have hnull : ledger.table.tree.isNull = false := by
      cases htree : ledger.table.tree with
      | null =>
          rw [htree] at hne
          exact absurd rfl hne
      | leaf | extension | branch | stored => rfl
    exact ⟨fun _ ↦ ⟨rfl, Nat.lt_succ_self _⟩, hserves.advance rfl rfl (Nat.le_succ _), _, hrecords,
      _, ⟨⟨hwhole, rfl, hnull, hhonest⟩, rfl, hnull⟩, hwhole.normal, rfl⟩

/-! ## Walks -/

/-- A walk leaves the loader as good as before, and ends as guaranteed if it does not fail. -/
theorem perform (h : trie.Trusts honest ledger) {walk : Walk β} {post : Nat → β → Prop}
    (hmeets : walk.Meets (.vouching honest trie.loader.owner) post trie.loader.mint.next)
    (hunforged : ∀ bytes ∈ trie.received store walk, Unforged honest bytes) :
    ∃ outcome later after, trie.perform store walk = (outcome, ⟨later, trie.root⟩, after) ∧
      later.owner = trie.loader.owner ∧
      (⟨later, trie.root⟩ : BackedTrie).Trusts honest ledger ∧
      ∀ result, outcome = .ok result → post later.mint.next result := by
  have htakes : ∀ entry ∈ walk.heard trie.loader store,
      (Service.vouching honest trie.loader.owner).Takes entry.1 entry.2 := by
    intro entry hentry
    refine Service.vouching_takes fun bytes hbytes ↦ hunforged bytes ?_
    exact List.mem_filterMap.mpr ⟨entry, hentry, by rw [hbytes]⟩
  obtain ⟨outcome, later, after, hperform, hlater, hle, houtcome⟩ :=
    perform_concludes store hmeets h.serves htakes
  have howner : later.owner = trie.loader.owner := hlater.owner_eq
  refine ⟨outcome, later, after, hperform, howner, ⟨?_, ?_, h.holds⟩, ?_⟩
  · rw [howner]
    exact h.issued.mono hle
  · rw [howner]
    exact hlater
  · rintro result rfl
    exact houtcome

/-- A lookup that succeeds gives what the ledger has. -/
theorem find? (h : trie.Trusts honest ledger) (key : Bytes)
    (hunforged : ∀ bytes ∈ trie.received store (trie.root.read key : Walk (Option α)),
      Unforged honest bytes) :
    ∃ (outcome : Except Failure (Option α)) (later : BackedTrie) (after : σ),
      trie.find? store key = (outcome, later, after) ∧ later.Trusts honest ledger ∧
        ∀ found, outcome = .ok found → found = ledger.lookup key := by
  obtain ⟨content, hrecords, hholds⟩ := h.holds
  obtain ⟨outcome, later, after, hperform, -, hlater, hfound⟩ := h.perform
    (Node.read_content Service.vouching_faithful key hholds h.issued hrecords) hunforged
  exact ⟨outcome, ⟨later, trie.root⟩, after, hperform, hlater, hfound⟩

/-- A change that succeeds leads to a trie that holds what the changed ledger does, and one that
fails leaves the ledger as it is. -/
theorem change (h : trie.Trusts honest ledger) (change : Change α)
    (hunforged : ∀ bytes ∈ trie.received store (trie.root.change change), Unforged honest bytes) :
    ∃ outcome later after,
      trie.update store (trie.root.change change) = (outcome, later, after) ∧
      (outcome = .ok () ∧ later.Trusts honest (ledger.record change) ∨
        ∃ failure, outcome = .error failure ∧ later.Trusts honest ledger) := by
  obtain ⟨content, hrecords, hholds⟩ := h.holds
  obtain ⟨outcome, later, after, hperform, howner, hlater, hchanged⟩ := h.perform
    (Node.change_content Service.vouching_faithful change hholds h.issued) hunforged
  rw [update, hperform]
  cases outcome with
  | error failure => exact ⟨.error failure, _, after, rfl, Or.inr ⟨failure, rfl, hlater⟩⟩
  | ok root =>
      obtain ⟨hissued, hroot⟩ := hchanged root rfl
      refine ⟨.ok (), ⟨later, root⟩, after, rfl, Or.inl ⟨rfl, ?_, hlater.serves,
        content.record change, hrecords.record change, hroot⟩⟩
      rw [howner]
      exact hissued

/-! ## Commits -/

/-- The nodes that a commit puts into the cache show every tree with their hashes. -/
theorem hands (h : trie.Trusts honest ledger) (hwhole : ledger.table.tree.Whole)
    (hhonest : ledger.table.tree.All fun node ↦ honest node.encoding)
    (hformed : trie.root.isFormed = true)
    (hunforged : ∀ part ∈ trie.root.committed, Unforged honest part.encoding) :
    trie.Hands (.vouching honest trie.loader.owner) := by
  intro part hpart node hstored hplain hsincere
  obtain ⟨hpartFormed, below, hbelow, hbelowWhole, hof⟩ :=
    h.root_shows.1.committed hwhole hformed hpart
  have hthere := Node.isStored_of_formed hpartFormed
  have hvouched : Vouched honest part.hash below :=
    ⟨hbelowWhole, (hbelow.hash_eq hbelowWhole.normal).symm,
      hbelow.isNull_eq.symm.trans (Node.isNull_of_formed hpartFormed), hof _ hhonest⟩
  refine ⟨hstored, ⟨below, hvouched⟩, fun other hother ↦ ?_⟩
  -- Every tree with the hash has the form that is written, and so is told of like the node.
  have hhash := (Node.hash_eq_keccak256 hthere).symm
  have hencoding : below.encoding = other.encoding :=
    (hvouched.eq_encoding (hunforged part hpart) hhash).symm.trans
      (hother.eq_encoding (hunforged part hpart) hhash)
  have hother_plain : node.plain = other.abridged := by
    rw [hplain, hbelow.abridged_eq hbelowWhole.normal hthere,
      hbelowWhole.abridged_eq hother.isWhole hencoding]
  have hshows := hother.abridged_shows
  rw [← hother_plain] at hshows
  exact hshows.of_plain hother.isWhole.normal hother.isWhole.blank hsincere

/-- A commit leaves the ledger as it is. If it succeeds it gives the root hash. -/
theorem commit (h : trie.Trusts honest ledger) (store : σ)
    (hhonest : ledger.table.tree.All fun node ↦ honest node.encoding)
    (hfits : ∀ bytes, honest bytes → bytes.length < 2 ^ 64)
    (hunforged : trie.root.isFormed = true →
      ∀ bytes ∈ trie.outgoing.1.map Outgoing.rlp, Unforged honest bytes) :
    ∃ outcome later after, trie.commit store = (outcome, later, after) ∧
      later.Trusts honest ledger ∧
      ∀ hash, outcome = .ok hash → hash = keccak256 ledger.table.form := by
  have hok : ∀ {hash : Hash}, (.ok trie.rootHash : Except Failure Hash) = .ok hash →
      hash = keccak256 ledger.table.form := by
    rintro hash ⟨⟩
    exact h.rootHash_eq
  cases hformed : trie.root.isFormed with
  | false => exact ⟨_, trie, store, commit_of_not_formed store hformed, h, fun _ ↦ hok⟩
  | true =>
      have hwhole := h.whole hhonest hfits
      have hshows := h.root_shows.1
      have hsincere := hshows.sincere hwhole.normal hwhole.blank
      rw [commit_eq store hformed]
      generalize NodeStore.putAll store (trie.outgoing.1.map Outgoing.entry) = written
      obtain ⟨_ | _, after⟩ := written
      · obtain ⟨-, -, hrest⟩ := outgoing_told hformed hsincere h.issued
        refine ⟨_, trie.outgoing.2, after, rfl, ?_, nofun⟩
        rw [hrest]
        exact ⟨h.issued.mono (Nat.le_add_right _ 2),
          h.serves.advance rfl rfl (Nat.le_add_right _ 2), h.holds⟩
      · have hparts : ∀ part ∈ trie.root.committed, Unforged honest part.encoding := by
          intro part hpart
          refine hunforged hformed _ ?_
          rw [outgoing_rlp hformed hsincere h.issued]
          exact List.mem_map_of_mem hpart
        have hprimed := primed_serves hformed hsincere h.issued h.serves
          (h.hands hwhole hhonest hformed hparts)
        have howner : trie.primed.owner = trie.loader.owner := hprimed.owner_eq
        rw [← howner] at hprimed
        have hnull : ledger.table.tree.isNull = false :=
          hshows.isNull_eq.symm.trans (Node.isNull_of_formed hformed)
        have hhash : ledger.table.tree.hash = trie.rootHash :=
          (hshows.hash_eq hwhole.normal).symm
        exact ⟨_, _, after, rfl, ⟨fun _ ↦ ⟨rfl, Nat.lt_succ_self _⟩,
          hprimed.advance rfl rfl (Nat.le_succ _), _, h.root_shows.2.2.2, _,
          ⟨⟨hwhole, hhash, hnull, hhonest⟩, hhash, hnull⟩, hwhole.normal, rfl⟩, fun _ ↦ hok⟩

/-! ## Requests -/

/-- A request that is no change leaves the ledger as it is, and a change is recorded if it succeeds.
A lookup that succeeds gives what the ledger has. -/
theorem attempt (h : trie.Trusts honest ledger) (request : Request α)
    (hhonest : ledger.table.tree.All fun node ↦ honest node.encoding)
    (hfits : ∀ bytes, honest bytes → bytes.length < 2 ^ 64) (hempty : Unforged honest [0x80])
    (hunforged : ∀ bytes ∈ trie.exchanged store request, Unforged honest bytes) :
    ∃ outcome later after, trie.attempt store request = (outcome, later, after) ∧
      later.Trusts honest (Session.record ledger request outcome) ∧
      ∀ key found, request = .get key → outcome = .ok (.value found) →
        found = ledger.lookup key := by
  cases request with
  | change change =>
      obtain ⟨outcome, later, after, hchange, hcases⟩ := h.change change hunforged
      rw [attempt_change, hchange]
      refine ⟨_, later, after, rfl, ?_, nofun⟩
      rcases hcases with ⟨rfl, hlater⟩ | ⟨failure, rfl, hlater⟩
      · exact hlater
      · exact hlater
  | get key =>
      obtain ⟨outcome, later, after, hfind, hlater, hfound⟩ := h.find? key hunforged
      rw [BackedTrie.attempt, hfind]
      refine ⟨_, later, after, rfl, hlater, ?_⟩
      rintro _ found ⟨⟩ hvalue
      cases outcome with
      | error failure => cases hvalue
      | ok known =>
          cases hvalue
          exact hfound _ rfl
  | commit =>
      have hwritten : trie.root.isFormed = true →
          ∀ bytes ∈ trie.outgoing.1.map Outgoing.rlp, Unforged honest bytes := by
        intro hformed
        rwa [exchanged, if_pos hformed] at hunforged
      obtain ⟨outcome, later, after, hcommit, hlater, -⟩ := h.commit store hhonest hfits hwritten
      rw [BackedTrie.attempt, hcommit]
      exact ⟨_, later, after, rfl, hlater, nofun⟩
  | unload node => exact ⟨.ok .done, trie.unload node, store, rfl, h.unload node, nofun⟩
  | unloadRoot => exact ⟨.ok .done, trie.unloadRoot, store, rfl, h.unload trie.root, nofun⟩
  | reopen owner settings =>
      have hwritten : trie.root.isFormed = true →
          ∀ bytes ∈ trie.outgoing.1.map Outgoing.rlp, Unforged honest bytes := by
        intro hformed
        rwa [exchanged, if_pos hformed] at hunforged
      obtain ⟨outcome, later, after, hcommit, hlater, hhash⟩ :=
        h.commit store hhonest hfits hwritten
      rw [BackedTrie.attempt, hcommit]
      cases outcome with
      | error failure => exact ⟨_, later, after, rfl, hlater, nofun⟩
      | ok hash =>
          obtain rfl := hhash hash rfl
          exact ⟨_, _, after, rfl, openAt h.root_shows.2.2.2 (h.whole hhonest hfits) hhonest hempty
            owner settings.cacheCapacity settings.positive, nofun⟩

end Trusts

end BackedTrie

/-! ## Sessions -/

namespace Session

/-- A session of a trie that is opened on the root hash of the map that some changes lead to. -/
def opened (changes : List (Change α)) (store : σ) (owner capacity : Nat) (hpos : 0 < capacity) :
    Session σ α :=
  let ledger : Ledger α := changes.foldl Ledger.record ∅
  ⟨.openAt (.new owner capacity hpos) (keccak256 ledger.table.form), store, ledger⟩

/-- The byte string is the encoding of a node in the canonical tree of the ledger at some point of
the session. -/
def Honest (session : Session σ α) (requests : List (Request α)) (bytes : Bytes) : Prop :=
  ∃ before, before <+: requests ∧ bytes ∈ (session.after before).ledger.table.tree.encodings

/-- All these encodings, for each point of the session in turn. -/
def forms (session : Session σ α) : List (Request α) → List Bytes
  | [] => session.ledger.table.tree.encodings
  | request :: requests =>
      session.ledger.table.tree.encodings ++ (session.step request).2.forms requests

variable {session : Session σ α} {requests before : List (Request α)} {request : Request α}

/-- All of them are listed. -/
theorem Honest.mem_forms {bytes : Bytes} (h : session.Honest requests bytes) :
    bytes ∈ session.forms requests := by
  obtain ⟨before, hbefore, hmem⟩ := h
  induction before generalizing session requests with
  | nil =>
      cases requests with
      | nil => exact hmem
      | cons => exact List.mem_append_left _ hmem
  | cons first before ih =>
      obtain ⟨rest, rfl⟩ := hbefore
      exact List.mem_append_right _ (ih (List.prefix_append _ rest) hmem)

/-- Nothing that is exchanged is forged, nor is the form of the empty tree, if none of the hashes of
all these byte strings is listed twice. -/
theorem unforged_of_nodup (h : (([0x80] :: session.transcript requests ++
      session.forms requests).dedup.map keccak256).Nodup) (bytes : Bytes)
    (hbytes : session.Exchanged requests bytes ∨ bytes = [0x80]) :
    Unforged (session.Honest requests) bytes := by
  intro form hform heq
  refine Apart.of_nodup h bytes form ?_ (List.mem_append_right _ hform.mem_forms) heq
  refine List.mem_append_left _ ?_
  rcases hbytes with hexchanged | rfl
  · exact List.mem_cons_of_mem _ hexchanged.mem_transcript
  · exact List.mem_cons_self

/-- All encodings of the canonical tree at any point are honest. -/
theorem all_honest (hbefore : before <+: requests) :
    (session.after before).ledger.table.tree.All fun node ↦
      session.Honest requests node.encoding :=
  Node.all_of_encodings fun _ hmem ↦ ⟨before, hbefore, hmem⟩

/-- The tree of the entries that some changes lead to is normal, has blank stamps, and has the
content of the entries. -/
theorem folded_tree (changes : List (Change α)) :
    (changes.foldl Ledger.record (∅ : Ledger α)).table.tree.Normal ∧
      (changes.foldl Ledger.record (∅ : Ledger α)).table.tree.Blank ∧
      Ledger.Records (changes.foldl Ledger.record (∅ : Ledger α))
        (changes.foldl Ledger.record (∅ : Ledger α)).table.tree.content := by
  obtain ⟨trie, -, hkeeps⟩ := (MemoryTrie.Keeps.empty 0).changes changes
  obtain ⟨content, hrecords, hholds⟩ := hkeeps.holds
  exact (hholds.shows_tree hrecords fun _ _ ↦ False.elim).2

/-- At every point of a session the trie holds what the ledger does, as far as hashes vouch for it.
-/
theorem after_trusts (changes : List (Change α)) (store : σ) (owner capacity : Nat)
    (hpos : 0 < capacity)
    (hunforged : ∀ bytes,
      (opened changes store owner capacity hpos).Exchanged requests bytes ∨ bytes = [0x80] →
        Unforged ((opened changes store owner capacity hpos).Honest requests) bytes)
    (hfits : ∀ bytes, (opened changes store owner capacity hpos).Honest requests bytes →
      bytes.length < 2 ^ 64)
    (hbefore : before <+: requests) :
    ((opened changes store owner capacity hpos).after before).trie.Trusts
      ((opened changes store owner capacity hpos).Honest requests)
      ((opened changes store owner capacity hpos).after before).ledger := by
  have hempty := hunforged [0x80] (Or.inr rfl)
  induction before using List.reverseRecOn with
  | nil =>
      obtain ⟨hnormal, hblank, hrecords⟩ := folded_tree changes
      have hhonest : (changes.foldl Ledger.record (∅ : Ledger α)).table.tree.All fun node ↦
          (opened changes store owner capacity hpos).Honest requests node.encoding :=
        all_honest hbefore
      have hwhole := hhonest.imp fun _ hnode ↦ hfits _ hnode
      exact .openAt hrecords ⟨hnormal, hblank, hwhole⟩ hhonest hempty owner capacity hpos
  | append_singleton before request ih =>
      have hprefix : before <+: requests := (List.prefix_append before [request]).trans hbefore
      obtain ⟨outcome, later, after, hattempt, hlater, -⟩ := (ih hprefix).attempt request
        (all_honest hprefix) hfits hempty
        fun bytes hmem ↦ hunforged bytes (Or.inl ⟨before, request, hbefore, hmem⟩)
      rw [after_concat, step, hattempt]
      exact hlater

/-- A trie is opened on the root hash of a map, over any store and with a cache of any capacity, and
receives any requests, each of which may fail. Then each lookup that succeeds gives the value that
the map has, after those of the changes before it that succeeded, and after each request the root
hash is the canonical one of the map. It is assumed that no byte string that went between the trie
and the store, nor the form of the empty tree, has the hash of another byte string that is an
encoding in the canonical tree of the map at some point, and that the lengths of these encodings fit
in 64 bits. -/
theorem after_authentic (changes : List (Change α)) (store : σ) (owner capacity : Nat)
    (hpos : 0 < capacity)
    (hunforged : ∀ bytes,
      (opened changes store owner capacity hpos).Exchanged requests bytes ∨ bytes = [0x80] →
        Unforged ((opened changes store owner capacity hpos).Honest requests) bytes)
    (hfits : ∀ bytes, (opened changes store owner capacity hpos).Honest requests bytes →
      bytes.length < 2 ^ 64)
    (hbefore : before ++ [request] <+: requests) :
    let session := (opened changes store owner capacity hpos).after before
    (∀ key found, request = .get key → (session.step request).1 = .ok (.value found) →
      found = session.ledger.lookup key) ∧
    (session.step request).2.trie.rootHash =
      keccak256 (session.step request).2.ledger.table.form := by
  intro session
  have hprefix : before <+: requests := (List.prefix_append before [request]).trans hbefore
  have htrusts := after_trusts changes store owner capacity hpos hunforged hfits hprefix
  obtain ⟨outcome, later, after, hattempt, hlater, hfound⟩ := htrusts.attempt request
    (all_honest hprefix) hfits (hunforged [0x80] (Or.inr rfl))
    fun bytes hmem ↦ hunforged bytes (Or.inl ⟨before, request, hbefore, hmem⟩)
  have hstep : session.step request = (outcome, ⟨later, after,
      record session.ledger request outcome⟩) := by
    rw [step, hattempt]
  rw [hstep]
  exact ⟨hfound, hlater.rootHash_eq⟩

/-! ### A store that wavers -/

/-- A store that answers the reads it receives one after the other as was prepared, whatever they
ask for. It takes whatever is written and keeps nothing. -/
structure Script where
  reads : Nat
  answers : Nat → Answer

instance : NodeStore Script where
  request script _ := { script with reads := script.reads + 1 }
  answer script _ := script.answers script.reads
  put script _ := (.ok (), script)

/-- The forms of three canonical nodes: the root of the tree of the three entries, the branch below
it, and the long leaf below that. -/
def threeForms : List Bytes :=
  let tip := Node.leafForm [] (List.replicate 32 0x07)
  let below := Node.branchForm (fun slot ↦
    if slot.val = 1 then (keccak256 tip).reference
    else if slot.val = 2 then Node.leafForm [] [0x09] else [0x80]) none
  [Node.branchForm (fun slot ↦
    if slot.val = 0 then Node.leafForm [lowNibble 1] [0x07]
    else if slot.val = 1 then (keccak256 below).reference else [0x80]) none, below, tip]

/-- A session over a store that answers the first read with bytes of another hash and the third one
with nothing. It answers the second, the fourth and the fifth with the nodes from the root down. -/
def wavering : Session Script Bytes :=
  opened threeEntries
    ⟨0, fun number ↦ .ok (
      if number = 1 then some [0x2a] else if number = 3 then none
      else threeForms[(number - 1) / 2]?)⟩ 0 1 Nat.one_pos

/-- A key is looked up until the root was read. Then the value of another key is replaced beside the
reference to its leaf. -/
def wavered : List (Request Bytes) :=
  [.get [0x11], .get [0x11], .change (.put [0x12] [0x0a])]

set_option maxRecDepth 100000 in
/-- The first lookup fails since the bytes have another hash, and the second one since nothing is
found below the root. After the change the lookup reads the leaf and gives its value. -/
theorem wavering_authentic :
    (wavering.step (.get [0x11])).1 =
        .error (.error (.store (.wrongHash wavering.trie.rootHash))) ∧
      ((wavering.after [.get [0x11]]).step (.get [0x11])).1.isOk = false ∧
      (wavering.after wavered).store.reads = 4 ∧
      ((wavering.after wavered).step (.get [0x11])).1 =
        .ok (.value (some (List.replicate 32 0x07))) ∧
      some (List.replicate 32 0x07) = (wavering.after wavered).ledger.lookup [0x11] := by
  obtain ⟨hnodup, hfits, hfirst, hsecond, hreads, hlast⟩ :
      (([0x80] :: wavering.transcript (wavered ++ [.get [0x11]]) ++
        wavering.forms (wavered ++ [.get [0x11]])).dedup.map keccak256).Nodup ∧
      (∀ bytes ∈ wavering.forms (wavered ++ [.get [0x11]]), bytes.length < 2 ^ 64) ∧
      (wavering.step (.get [0x11])).1 =
        .error (.error (.store (.wrongHash wavering.trie.rootHash))) ∧
      ((wavering.after [.get [0x11]]).step (.get [0x11])).1.isOk = false ∧
      (wavering.after wavered).store.reads = 4 ∧
      ((wavering.after wavered).step (.get [0x11])).1 =
        .ok (.value (some (List.replicate 32 0x07))) := by
    decide +kernel
  have hauthentic := after_authentic threeEntries wavering.store 0 1 Nat.one_pos
    (unforged_of_nodup hnodup) (fun bytes hbytes ↦ hfits bytes hbytes.mem_forms)
    List.prefix_rfl
  exact ⟨hfirst, hsecond, hreads, hlast, hauthentic.1 _ _ rfl hlast⟩

end Session

end Patricia
