import Patricia.Proofs.Trie.Commit
import Patricia.Proofs.Trie.Opened

/-!
# What was committed can be read

A trie is opened over any store whose entries can be read, changed, and committed. Whatever could be
read before the commit is read alike from the hash that the commit gives
(`BackedTrie.commit_durable`), if the tree in memory is written as it says (`Node.Candid`). The tree
is so if the store is (`BackedTrie.clean_durable`). A branch that was read from bytes with a long
node written in place, or one that took over the empty value of a leaf, is not, and then reads can
fail after the commit (`BackedTrie.commit_not_durable`).
-/

namespace Patricia

namespace Node

/-- The node's form is in the store under its hash, and its length fits in 64 bits. -/
structure Filed (contents : Contents) (node : Node) : Prop where
  present : contents node.hash = some node.encoding
  fits : node.encoding.length < 2 ^ 64

variable {contents more : Contents} {node part : Node}

/-- What is under the hash of a legible node is read as the node in short. -/
theorem Legible.judge (h : node.Legible) (hformed : node.isFormed = true)
    (hfiled : node.Filed more) :
    ∃ read, Loader.judge node.hash (.ok (more node.hash)) = .ok read ∧
      read.val.plain = node.abridged := by
  have hencoding : node.encoding = node.form := h.self.1
  have hhash := hash_eq_keccak256 (isStored_of_formed hformed)
  have hfits := hfiled.fits
  rw [hencoding] at hfits
  obtain ⟨read, hread, hval⟩ := h.decode_form hformed hfits
  refine ⟨read, ?_, ?_⟩
  · rw [hfiled.present, Loader.judge, if_pos hhash.symm, hencoding, hread]
  · rw [hval, plain_readFrom, (blank_abridged node).plain_eq]

/-- A lookup below the citation of a written node comes to the same as below the node in short. -/
theorem Legible.outcome_cited (h : node.Legible) (hfiled : ∀ part ∈ node.longParts, part.Filed more)
    (key : List Nibble) :
    (node.cited.find? key).outcome more = (node.abridged.find? key).outcome more := by
  rw [cited]
  split
  · rfl
  · rename_i hlong
    cases hstored : node.isStored with
    | true =>
        cases node with
        | stored stamp hash => rfl
        | null | leaf | extension | branch => cases hstored
    | false =>
        have hformed : node.isFormed = true := by
          rw [isFormed, hstored, isNull_of_long (Nat.not_lt.mp hlong)]
          rfl
        have hself : node ∈ node.longParts := by
          have hwhen : node ∈ node.whenLong := mem_whenLong.mpr ⟨rfl, Nat.not_lt.mp hlong⟩
          cases node with
          | leaf => exact hwhen
          | extension | branch => exact List.mem_append_right _ hwhen
          | null | stored => cases hformed
        obtain ⟨read, hjudge, hplain⟩ := h.judge hformed (hfiled node hself)
        rw [find?_stored, Walk.outcome_load_ok hjudge]
        exact outcome_find?_of_plain (by rw [hplain, (blank_abridged node).plain_eq]) key

/-- A lookup below a tree in short comes to the same as below the tree, once the long nodes of the
tree are written, unless it failed for want of a node that is there now. -/
theorem Legible.abridged_kept (h : node.Legible)
    (hmore : ∀ hash bytes, contents hash = some bytes → more hash = some bytes)
    (hfiled : ∀ part ∈ node.longParts, part.Filed more)
    (key : List Nibble) :
    Kept contents more ((node.find? key).outcome contents)
      ((node.abridged.find? key).outcome more) := by
  induction node generalizing key with
  | null =>
      rw [abridged, find?_null]
      exact Or.inl rfl
  | leaf stamp path value =>
      rw [abridged, find?_leaf, find?_leaf]
      exact Or.inl rfl
  | extension stamp first rest child ih =>
      have hchild : ∀ part ∈ child.longParts, part.Filed more :=
        fun part hmem ↦ hfiled part (List.mem_append_left _ hmem)
      rw [abridged, find?_extension, find?_extension]
      cases stripLead? (first :: rest) key with
      | none => exact Or.inl rfl
      | some key =>
          have hcited := Legible.outcome_cited h.2 hchild key
          rw [cited] at hcited
          show Kept _ _ ((child.find? key).outcome contents) (Walk.outcome more (find? _ key))
          rw [hcited]
          exact ih h.2 hchild key
  | branch stamp occupied slots value ih =>
      cases key with
      | nil =>
          rw [abridged, find?_branch_nil, find?_branch_nil]
          exact Or.inl rfl
      | cons nibble key =>
          have hslot : ∀ part ∈ (slots nibble).longParts, part.Filed more :=
            fun part hmem ↦ hfiled part (List.mem_append_left _
              (List.mem_flatMap.mpr ⟨nibble, List.mem_finRange nibble, hmem⟩))
          have hcited := Legible.outcome_cited (h.2 nibble) hslot key
          rw [cited] at hcited
          rw [abridged, find?_branch_cons, find?_branch_cons, hcited]
          exact ih nibble (h.2 nibble) hslot key
  | stored stamp hash =>
      -- Only below a reference is anything read, and there the store has grown.
      have hplain : (stored stamp hash).abridged.plain = (stored stamp hash).plain := rfl
      rw [outcome_find?_of_plain hplain]
      exact find?_kept hmore (stored stamp hash) key

end Node

/-- Whatever can be read from some contents can be read from contents that have more. -/
theorem Loader.Serves.through_mono {loader : Loader} {contents more : Contents} {owner : Nat}
    (hmore : ∀ hash bytes, contents hash = some bytes → more hash = some bytes)
    (h : loader.Serves (.through contents owner)) : loader.Serves (.through more owner) := by
  refine ⟨h.owner_eq, h.issued, fun entry hentry ↦ ?_⟩
  obtain ⟨hstored, read, hjudge, hplain⟩ := h.served entry hentry
  obtain ⟨bytes, hbytes, -, -⟩ := Service.decode_of_judge hjudge
  refine ⟨hstored, read, ?_, hplain⟩
  rw [hmore _ _ hbytes, ← hbytes]
  exact hjudge

/-- Every entry of a store is filed under its own hash and is read as a node. -/
def MemoryStore.Admissible (store : MemoryStore) : Prop :=
  store.Authentic fun bytes ↦ ∃ read, Node.decode bytes = .ok read

namespace BackedTrie

variable {α : Type} [TrieValue α] {contents : Contents} {trie : BackedTrie} {store : MemoryStore}
  {origin : Hash}

/-! ## The commit -/

/-- The byte strings that a commit may have to tell apart: those in the store, those it writes, and
the form of the empty tree. -/
def Involves (trie : BackedTrie) (store : MemoryStore) (bytes : Bytes) : Prop :=
  (∃ hash, store.get? hash = some bytes) ∨ bytes ∈ trie.outgoing.1.map Outgoing.rlp ∨
    bytes = [0x80]

/-- A commit of a tree that is written as it says overwrites nothing and files all nodes that it
takes, and what it leaves in the cache can be read. -/
theorem Opened.commit_formed (h : trie.Opened store.get? origin) (hstore : store.Admissible)
    (hformed : trie.root.isFormed = true) (hcandid : trie.root.Candid)
    (hapart : Apart (trie.Involves store))
    (hfits : ∀ bytes ∈ trie.outgoing.1.map Outgoing.rlp, bytes.length < 2 ^ 64) :
    ∃ later grown, trie.commit store = (.ok trie.rootHash, later, grown) ∧
      (∀ hash bytes, store.get? hash = some bytes → grown.get? hash = some bytes) ∧
      (∀ part ∈ trie.root.committed, part.Filed grown.get?) ∧
      later.Opened grown.get? trie.rootHash ∧ later.root.plain = .stored .blank trie.rootHash := by
  have hsincere : trie.root.All Node.Sincere := hcandid.imp fun _ hnode ↦ hnode.1
  have hlegible := hcandid.legible h.standing.proper
  have hrlp := outgoing_rlp hformed hsincere h.standing.issued
  have hknown : store.Authentic (trie.Involves store) := fun hash bytes hbytes ↦
    ⟨(hstore hash bytes hbytes).1, Or.inl ⟨hash, hbytes⟩⟩
  have hparts : ∀ part ∈ trie.root.committed, trie.Involves store part.encoding :=
    fun part hpart ↦ Or.inr (Or.inl (hrlp ▸ List.mem_map_of_mem hpart))
  obtain ⟨-, hmore, hwritten⟩ := hknown.insertAll hapart (committed_genuine hformed hparts)
  have hcommit := commit_of_formed hformed hsincere h.standing.issued store
  generalize store.insertAll (trie.root.committed.map fun part ↦ (part.hash, part.encoding)) =
    grown at hmore hwritten hcommit
  rw [List.forall_mem_map] at hwritten
  have hfiled : ∀ part ∈ trie.root.committed, part.Filed grown.get? := fun part hpart ↦
    ⟨hwritten part hpart, hfits _ (hrlp ▸ List.mem_map_of_mem hpart)⟩
  have hhands : trie.Hands (.through grown.get? trie.loader.owner) := by
    intro part hpart node hstored hplain _
    obtain ⟨hpartFormed, hof⟩ := Node.committed_partOf hformed hpart
    obtain ⟨read, hjudge, hread⟩ :=
      Node.Legible.judge (hof _ hlegible) hpartFormed (hfiled part hpart)
    exact ⟨hstored, read, hjudge, hplain.trans hread.symm⟩
  have hlater := primed_serves hformed hsincere h.standing.issued (h.serves.through_mono hmore)
    hhands
  have howner : trie.primed.owner = trie.loader.owner := hlater.owner_eq
  rw [← howner] at hlater
  refine ⟨_, grown, hcommit, hmore, hfiled,
    ⟨⟨⟨trivial, trivial, fun _ ↦ ?_⟩, ?_⟩, fun _ ↦ rfl⟩, rfl⟩
  · exact ⟨rfl, Nat.lt_succ_self _⟩
  · exact hlater.advance rfl rfl (Nat.le_succ _)

/-- No node is read from the form of the empty tree. -/
theorem decode_empty : Node.decode [0x80] = .error .notAList :=
  rfl

/-- A trie opened on the hash of a node that can be read begins with a reference to it. -/
theorem openAt_plain {known : Bytes → Prop} (hapart : Apart known) (hempty : known [0x80])
    {bytes : Bytes} {hash : Hash} {read : Resolved} (hknown : known bytes)
    (hhash : keccak256 bytes = hash) (hread : Node.decode bytes = .ok read)
    (owner capacity : Nat) (hpos : 0 < capacity) :
    (BackedTrie.openAt (.new owner capacity hpos) hash).root.plain = .stored .blank hash := by
  have hne : hash ≠ emptyRoot := by
    intro heq
    obtain rfl := hapart bytes [0x80] hknown hempty (hhash.trans heq)
    rw [decode_empty] at hread
    cases hread
  rw [BackedTrie.openAt, if_neg hne]
  rfl

/-- What is left of a trie's answers: a trie that is newly opened on a hash can be read, and it and
the trie itself, with its root in the cache or not, answer every read as before, unless that failed
for want of a node that is there now. -/
structure Survives (contents : Contents) (before : Bytes → Except Failure (Option α)) (hash : Hash)
    (later : BackedTrie) (grown : MemoryStore) : Prop where
  readable : ∀ owner (settings : Settings),
    ∃ node, ((openAt (.new owner settings.cacheCapacity settings.positive) hash).perform grown
      (openAt (.new owner settings.cacheCapacity settings.positive) hash).root.resolve).1 = .ok node
  reopened : ∀ owner (settings : Settings) key, Kept contents grown.get? (before key)
    ((openAt (.new owner settings.cacheCapacity settings.positive) hash).reads α grown key)
  kept : ∀ key, Kept contents grown.get? (before key) (later.reads α grown key)
  unloaded : ∀ key, Kept contents grown.get? (before key) (later.unloadRoot.reads α grown key)

/-- If a node can be read under a hash, and lookups below a reference to it come to what they came
to before, then all answers survive. -/
theorem survives_of_stored {before : Bytes → Except Failure (Option α)} {hash : Hash}
    {later : BackedTrie} {grown : MemoryStore} {read : Resolved}
    (hjudge : Loader.judge hash (.ok (grown.get? hash)) = .ok read)
    (hlater : later.Opened grown.get? hash) (hplain : later.root.plain = .stored .blank hash)
    (hopened : ∀ owner (settings : Settings),
      (openAt (.new owner settings.cacheCapacity settings.positive) hash).root.plain =
        .stored .blank hash)
    (hkept : ∀ key : Bytes, Kept contents grown.get? (before key)
      (((Node.stored .blank hash).find? key.nibbles).outcome grown.get? >>= Node.interpret)) :
    Survives contents before hash later grown where
  readable owner settings :=
    (Opened.openAt grown.get? hash owner settings.cacheCapacity settings.positive).resolve_ok hjudge
  reopened owner settings key := by
    have hopen := Opened.openAt grown.get? hash owner settings.cacheCapacity settings.positive
    rw [hopen.find?_of_stored (hopened owner settings)]
    exact hkept key
  kept key := by
    rw [hlater.find?_of_stored hplain]
    exact hkept key
  unloaded key := by
    obtain ⟨hunloaded, hroot⟩ := hlater.unloadRoot
    rw [← hroot] at hplain
    rw [hunloaded.find?_of_stored hplain]
    exact hkept key

/-- What could be read from an empty trie, namely nothing, can still be read. -/
theorem survives_of_null {later : BackedTrie} {grown : MemoryStore}
    (hlater : later.Opened grown.get? origin) (hnull : later.root = .null) :
    Survives contents (later.reads α grown) emptyRoot later grown := by
  have hanswer : ∀ {trie : BackedTrie} {origin : Hash}, trie.Opened grown.get? origin →
      trie.root = .null → ∀ key, trie.reads α grown key = .ok none := by
    intro trie origin h hroot key
    rw [h.find?_eq, hroot, Node.find?_null]
    rfl
  have hopened : ∀ owner (settings : Settings),
      (openAt (.new owner settings.cacheCapacity settings.positive) emptyRoot).root = .null := by
    intro owner settings
    rw [BackedTrie.openAt, if_pos rfl]
  refine ⟨fun owner settings ↦ ⟨⟨.null, rfl⟩, ?_⟩, fun owner settings key ↦ Or.inl ?_,
    fun key ↦ Or.inl rfl, fun key ↦ Or.inl ?_⟩
  · rw [hopened]
    rfl
  · rw [hanswer hlater hnull, hanswer (.openAt grown.get? emptyRoot owner settings.cacheCapacity
      settings.positive) (hopened owner settings)]
  · obtain ⟨hunloaded, hroot⟩ := hlater.unloadRoot
    rw [hanswer hlater hnull, hanswer hunloaded (hroot.trans hnull)]

variable (α) in
/-- All answers survive a commit of a tree with a form that is written as it says. -/
theorem Opened.survives_of_formed (h : trie.Opened store.get? origin) (hstore : store.Admissible)
    (hformed : trie.root.isFormed = true) (hcandid : trie.root.Candid)
    (hapart : Apart (trie.Involves store))
    (hfits : ∀ bytes ∈ trie.outgoing.1.map Outgoing.rlp, bytes.length < 2 ^ 64) :
    ∃ later grown, trie.commit store = (.ok trie.rootHash, later, grown) ∧
      grown.contains trie.rootHash = true ∧
      Survives store.get? (trie.reads α store) trie.rootHash later
        grown := by
  obtain ⟨later, grown, hcommit, hmore, hfiled, hlater, hplain⟩ :=
    h.commit_formed hstore hformed hcandid hapart hfits
  have hlegible := hcandid.legible h.standing.proper
  have hroot := hfiled _ (Node.mem_committed hformed)
  obtain ⟨read, hjudge, hread⟩ := hlegible.judge hformed hroot
  have hrlp := outgoing_rlp hformed (hcandid.imp fun _ hnode ↦ hnode.1) h.standing.issued
  have hknown : trie.Involves store trie.root.encoding :=
    Or.inr (Or.inl (hrlp ▸ List.mem_map_of_mem (Node.mem_committed hformed)))
  refine ⟨later, grown, hcommit, ?_, survives_of_stored hjudge hlater hplain ?_ fun key ↦ ?_⟩
  · rw [MemoryStore.contains, rootHash, hroot.present]
    rfl
  · intro owner settings
    obtain ⟨bytes, hbytes, hhash, hdecode⟩ := Service.decode_of_judge hjudge
    rw [hroot.present] at hbytes
    cases hbytes
    exact openAt_plain hapart (Or.inr (Or.inr rfl)) hknown hhash hdecode _ _ _
  · rw [h.find?_eq, rootHash, Node.find?_stored, Walk.outcome_load_ok hjudge,
      Node.outcome_find?_of_plain (hread.trans (Node.blank_abridged _).plain_eq.symm)]
    exact (hlegible.abridged_kept hmore (fun part hpart ↦
      hfiled part (List.mem_append_left _ hpart)) key.nibbles).bind _

variable (α) in
/-- All answers survive a commit of a tree that is written as it says, and there is an entry under
the hash that the commit gives unless the trie is empty. -/
theorem Opened.survives (h : trie.Opened store.get? origin) (hstore : store.Admissible)
    (horigin : store.contains origin = true) (hcandid : trie.root.Candid)
    (hapart : Apart (trie.Involves store))
    (hfits : ∀ bytes ∈ trie.outgoing.1.map Outgoing.rlp, bytes.length < 2 ^ 64) :
    ∃ hash later grown, trie.commit store = (.ok hash, later, grown) ∧
      (grown.contains hash = true ∨ trie.isEmpty = true ∧ hash = emptyRoot) ∧
      Survives store.get? (trie.reads α store) hash later grown := by
  cases hformed : trie.root.isFormed with
  | true =>
      -- The tree is in memory, and its long nodes and the root are written.
      obtain ⟨later, grown, hcommit, hcontains, hsurvives⟩ :=
        h.survives_of_formed α hstore hformed hcandid hapart hfits
      exact ⟨_, later, grown, hcommit, Or.inl hcontains, hsurvives⟩
  | false =>
      have hcommit := commit_of_not_formed store hformed
      cases hroot : trie.root with
      | null =>
          -- The trie was emptied, and there is nothing to write.
          have hhash : trie.rootHash = emptyRoot := by
            rw [rootHash, hroot]
            rfl
          rw [hhash] at hcommit
          exact ⟨emptyRoot, trie, store, hcommit, Or.inr ⟨by rw [isEmpty, hroot]; rfl, rfl⟩,
            survives_of_null h hroot⟩
      | stored stamp hash =>
          -- Nothing was changed, so the root is still the reference that was opened.
          have hhash : trie.rootHash = origin := h.origin_eq (by rw [hroot]; rfl)
          have hplain : trie.root.plain = .stored .blank origin := by
            rw [← hhash, rootHash, hroot]
            rfl
          obtain ⟨bytes, hbytes⟩ := Option.isSome_iff_exists.mp horigin
          obtain ⟨hkeccak, read, hread⟩ := hstore origin bytes hbytes
          have hjudge : Loader.judge origin (.ok (store.get? origin)) = .ok read := by
            rw [hbytes, Loader.judge, if_pos hkeccak, hread]
          rw [hhash] at hcommit
          refine ⟨origin, trie, store, hcommit, Or.inl horigin,
            survives_of_stored hjudge h hplain ?_ fun key ↦ Or.inl (h.find?_of_stored hplain key)⟩
          exact fun owner settings ↦ openAt_plain hapart (Or.inr (Or.inr rfl))
            (Or.inl ⟨origin, hbytes⟩) hkeccak hread _ _ _
      | leaf | extension | branch =>
          rw [hroot] at hformed
          cases hformed

/-- A trie is opened over an admissible store whose nodes have no empty values and are written as
they would be anew. After any changes a commit succeeds and all answers survive. -/
theorem clean_durable {store' : MemoryStore} (owner : Nat) (settings : Settings)
    (changes : List (Change α)) (hstore : store.Admissible) (hclean : Clean store.get?)
    (horigin : store.contains origin = true)
    (hchanges : (openAt (.new owner settings.cacheCapacity settings.positive) origin).changeAll
      store changes = .ok (trie, store'))
    (hapart : Apart (trie.Involves store'))
    (hfits : ∀ bytes ∈ trie.outgoing.1.map Outgoing.rlp, bytes.length < 2 ^ 64) :
    ∃ hash later grown, trie.commit store' = (.ok hash, later, grown) ∧
      (grown.contains hash = true ∨ trie.isEmpty = true ∧ hash = emptyRoot) ∧
      Survives store'.get? (trie.reads α store') hash later grown := by
  have hcandid := changeAll_candid owner settings changes hclean hchanges
  have hopen := Opened.openAt store.get? origin owner settings.cacheCapacity settings.positive
  obtain ⟨rfl, h⟩ := hopen.changeAll hchanges
  exact h.survives α hstore horigin hcandid hapart hfits

/-- A trie is opened on a hash that an admissible store has and changed any number of times. If its
tree is then written as it says, a commit succeeds and leaves an entry under the hash that it gives,
or gives the hash of the empty trie for an empty trie, and all answers survive. It is assumed that
no two of the byte strings that are involved have the same hash and that lengths fit in 64 bits. -/
theorem commit_durable {store' : MemoryStore} (owner : Nat) (settings : Settings)
    (changes : List (Change α)) (hstore : store.Admissible)
    (horigin : store.contains origin = true)
    (hchanges : (openAt (.new owner settings.cacheCapacity settings.positive) origin).changeAll
      store changes = .ok (trie, store'))
    (hcandid : trie.root.Candid) (hapart : Apart (trie.Involves store'))
    (hfits : ∀ bytes ∈ trie.outgoing.1.map Outgoing.rlp, bytes.length < 2 ^ 64) :
    ∃ hash later grown, trie.commit store' = (.ok hash, later, grown) ∧
      (grown.contains hash = true ∨ trie.isEmpty = true ∧ hash = emptyRoot) ∧
      Survives store'.get? (trie.reads α store') hash later grown := by
  have hopen := Opened.openAt store.get? origin owner settings.cacheCapacity settings.positive
  obtain ⟨rfl, h⟩ := hopen.changeAll hchanges
  exact h.survives α hstore horigin hcandid hapart hfits

/-- The store of some written forms under their own hashes. -/
def filing (forms : List Bytes) : MemoryStore :=
  .ofEntries (forms.map fun form ↦ (keccak256 form, form))

/-- A store of forms that can be read is admissible. -/
theorem filing_admissible {forms : List Bytes}
    (h : ∀ form ∈ forms, (Node.decode form).isOk = true) : (filing forms).Admissible := by
  refine MemoryStore.authentic_ofEntries fun entry hentry ↦ ?_
  obtain ⟨form, hmem, rfl⟩ := List.mem_map.mp hentry
  refine ⟨rfl, ?_⟩
  have hread := h form hmem
  cases hdecode : Node.decode form with
  | ok read => exact ⟨read, hdecode⟩
  | error cause =>
      rw [hdecode] at hread
      cases hread

/-- The byte strings that a commit over such a store involves can be listed. -/
theorem mem_of_involves {forms : List Bytes} {bytes : Bytes}
    (h : trie.Involves (filing forms) bytes) :
    bytes ∈ [0x80] :: forms ++ trie.outgoing.1.map Outgoing.rlp := by
  have hforms : (filing forms).Authentic (· ∈ forms) := by
    refine MemoryStore.authentic_ofEntries fun entry hentry ↦ ?_
    obtain ⟨form, hmem, rfl⟩ := List.mem_map.mp hentry
    exact ⟨rfl, hmem⟩
  rcases h with ⟨hash, hbytes⟩ | hmem | rfl
  · exact List.mem_append_left _ (List.mem_cons_of_mem _ (hforms hash bytes hbytes).2)
  · exact List.mem_append_right _ hmem
  · exact List.mem_cons_self

/-- What can be tested of a run of changes holds of the trie that it leaves, over the same store. -/
theorem exists_changeAll (store : MemoryStore) (origin : Hash) (changes : List (Change α))
    (p : BackedTrie → Prop)
    (h : ∃ ended ∈ ((openAt (.standard 0) origin).changeAll store changes).toOption, p ended.1) :
    ∃ trie, (openAt (.standard 0) origin).changeAll store changes = .ok (trie, store) ∧
      p trie := by
  obtain ⟨⟨trie, store'⟩, hended, hp⟩ := h
  have hchanges := eq_ok_of_mem_toOption hended
  have hopen := Opened.openAt store.get? origin 0 Settings.standard.cacheCapacity
    Settings.standard.positive
  obtain ⟨rfl, -⟩ := hopen.changeAll hchanges
  exact ⟨trie, hchanges, hp⟩

/-- The form of a branch with entries in its first two slots. -/
def twoWay (first second : Bytes) : Bytes :=
  Node.branchForm (fun slot ↦
    if slot.val = 0 then first else if slot.val = 1 then second else [0x80]) none

/-- A value that is written in 33 bytes. -/
def longValue : Bytes :=
  List.replicate 32 0x07

/-- A long leaf without a path. -/
def tip : Bytes :=
  Node.leafForm [] longValue

/-- A branch with a leaf in place and a reference to the long leaf. -/
def level : Bytes :=
  twoWay (Node.leafForm [] [0x09]) (keccak256 tip).reference

/-- A leaf in place and a reference to that branch. -/
def overLevel : Bytes :=
  twoWay (Node.leafForm [lowNibble 1] [0x05]) (keccak256 level).reference

/-- The leaf at the root gets another value and is removed, so that the branch is read and takes the
place of the root, below a path. -/
def folding : List (Change Bytes) :=
  [.put [0x01] [0x08], .remove [0x01]]

set_option maxRecDepth 100000 in
/-- The branch that was read and the reference in it can be read after the commit. -/
theorem folded_durable :
    ∃ trie hash later grown,
      (openAt (.standard 0) (keccak256 overLevel)).changeAll (filing [tip, level, overLevel])
        folding = .ok (trie, filing [tip, level, overLevel]) ∧
      trie.reads Bytes (filing [tip, level, overLevel]) [0x11] = .ok (some longValue) ∧
      trie.commit (filing [tip, level, overLevel]) = (.ok hash, later, grown) ∧
      (grown.contains hash = true ∨ trie.isEmpty = true ∧ hash = emptyRoot) ∧
      Survives (filing [tip, level, overLevel]).get?
        (trie.reads Bytes (filing [tip, level, overLevel])) hash later grown := by
  obtain ⟨trie, hchanges, hcandid, hreads, hnodup, hfits⟩ :=
    exists_changeAll (filing [tip, level, overLevel]) (keccak256 overLevel) folding
      (fun trie ↦ trie.root.Candid ∧
        trie.reads Bytes (filing [tip, level, overLevel]) [0x11] = .ok (some longValue) ∧
        (([0x80] :: [tip, level, overLevel] ++
          trie.outgoing.1.map Outgoing.rlp).dedup.map keccak256).Nodup ∧
        ∀ bytes ∈ trie.outgoing.1.map Outgoing.rlp, bytes.length < 2 ^ 64)
      (by decide +kernel)
  obtain ⟨hash, later, grown, hcommit, hpresent, hsurvives⟩ :=
    commit_durable 0 .standard folding (filing_admissible (by decide +kernel))
      (by decide +kernel) hchanges hcandid ((Apart.of_nodup hnodup).mono fun _ ↦ mem_of_involves)
      hfits
  exact ⟨trie, hash, later, grown, hchanges, hreads, hcommit, hpresent, hsurvives⟩

/-! ## What a commit can lose -/

/-- What there is to see of a commit: the hash that it gives, whether there is an entry under the
hash, and what a key reads as before the commit, in a trie opened on the hash, and in the trie
itself once its root is unloaded. -/
structure Sight where
  hash : Hash
  present : Bool
  before : Except Failure (Option Bytes)
  reopened : Except Failure (Option Bytes)
  unloaded : Except Failure (Option Bytes)
deriving DecidableEq

/-- What there is to see of a commit after some changes of a trie. -/
def sight (store : MemoryStore) (origin : Hash) (changes : List (Change Bytes)) (key : Bytes) :
    Except Failure Sight := do
  let (trie, store) ← (openAt (.standard 0) origin).changeAll store changes
  match trie.commit store with
  | (.ok hash, later, grown) =>
      return ⟨hash, grown.contains hash, trie.reads Bytes store key,
        (openAt (.standard 1) hash).reads Bytes grown key,
        later.unloadRoot.reads Bytes grown key⟩
  | (.error failure, _, _) => .error failure

/-- A leaf with the value 7 of the key 1. -/
def oneLeaf : Bytes :=
  Node.leafForm (Bytes.nibbles [0x01]) [0x07]

/-- A branch in which a long leaf is written in place. -/
def crowded : Bytes :=
  twoWay (Node.leafForm [] longValue) (Node.leafForm [] [0x09])

/-- A leaf and a reference to the crowded branch. -/
def overCrowded : Bytes :=
  twoWay (Node.leafForm [lowNibble 0] [0x05]) (keccak256 crowded).reference

/-- A leaf with an empty value. -/
def hollow : Bytes :=
  Node.leafForm [] []

/-- A long leaf. -/
def longLeaf : Bytes :=
  Node.leafForm [lowNibble 5] longValue

/-- A leaf and a reference to the long leaf. -/
def overLong : Bytes :=
  twoWay (Node.leafForm [lowNibble 5] [0x05]) (keccak256 longLeaf).reference

set_option maxRecDepth 100000 in
/-- A commit can leave no entry, keep less than could be read, or let more be read than before:
* There is no entry for a trie that was emptied, and nothing is lost.
* A branch with a long leaf in place is kept in memory as it was read when it takes the place of its
  parent. The hash of the root is that of the form with the leaf in place, and what is written is
  the form anew, so there is no entry under the hash.
* A branch that takes over the empty value of a leaf is written like one with a single entry, which
  cannot be read.
* A node that was missing is there when the commit writes it for another key. -/
theorem commit_not_durable :
    ((filing [oneLeaf]).Admissible ∧
      sight (filing [oneLeaf]) (keccak256 oneLeaf) [.remove [0x01]] [0x01] =
        .ok ⟨emptyRoot, false, .ok none, .ok none, .ok none⟩) ∧
    ((filing [crowded, overCrowded]).Admissible ∧
      ∃ hash, hash = keccak256 (Node.extensionForm [1] (keccak256 crowded).reference) ∧
        sight (filing [crowded, overCrowded]) (keccak256 overCrowded) [.remove [0x00]] [0x10] =
          .ok ⟨hash, false, .ok (some longValue), .error (.error (.notFound hash)),
            .error (.error (.notFound hash))⟩) ∧
    ((filing [hollow]).Admissible ∧
      ∃ hash, sight (filing [hollow]) (keccak256 hollow) [.put [0xaa] ([0x01] : Bytes)] [0xaa] =
        .ok ⟨hash, true, .ok (some [0x01]), .error (.error (.decode .tooFewEntries)),
          .error (.error (.decode .tooFewEntries))⟩) ∧
    ((filing [overLong]).Admissible ∧
      ∃ hash, sight (filing [overLong]) (keccak256 overLong) [.put [0x25] longValue] [0x15] =
        .ok ⟨hash, true, .error (.error (.notFound (keccak256 longLeaf))), .ok (some longValue),
          .ok (some longValue)⟩) := by
  refine ⟨⟨filing_admissible ?_, ?_⟩, ⟨filing_admissible ?_, _, rfl, ?_⟩,
    ⟨filing_admissible ?_, keccak256 (Node.branchForm
      (fun slot ↦ if slot = 10 then Node.leafForm [10] [0x01] else [0x80]) none), ?_⟩,
    ⟨filing_admissible ?_, keccak256 (Node.branchForm
      (fun slot ↦ if slot = 0 then Node.leafForm [5] [0x05]
        else if slot = 1 ∨ slot = 2 then (keccak256 longLeaf).reference else [0x80]) none), ?_⟩⟩
  all_goals decide +kernel

end BackedTrie

end Patricia
