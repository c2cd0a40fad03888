import Patricia.Proofs.Trie.Alone

/-!
# What the instance of the root tells

Taking a key away gives back the very root exactly if the key had no value
(`Node.erase_eq_self_iff`), and putting a value that has an encoding never does. So a caller who
compares the two roots learns whether anything changed, in memory and over a store of any kind
(`Change.same_root_iff`). A root that was a reference and did not change is still one, so a commit
has nothing to write.

The updates themselves go by this test at every node, so the induction carries both halves: what is
new is not the old instance, and what is not new is the node that was given.
-/

namespace Patricia

variable {σ : Type} [NodeStore σ] {α : Type} {loader later : Loader} {store after : σ}

/-- A sequence that ends with a result ends its first part with one, and then its second. -/
theorem Walk.run_bind_ok {β : Type} {walk : Walk α} {last : α → Walk β} {result : β}
    (h : (walk >>= last).run loader store = (.ok result, later, after)) :
    ∃ first middle between, walk.run loader store = (.ok first, middle, between) ∧
      (last first).run middle between = (.ok result, later, after) := by
  rw [run_bind] at h
  rcases hwalk : walk.run loader store with ⟨failure | first, middle, between⟩
  · rw [hwalk] at h
    cases h
  · rw [hwalk] at h
    exact ⟨first, middle, between, rfl, h⟩

/-- A walk that ends with a result was given the nodes that it asked for. -/
theorem Walk.run_load_inv {home : Nat} {hash : Hash} {next : Resolved → Walk α} {result : α}
    (hhome : home = loader.owner)
    (h : (Walk.load home hash next).run loader store = (.ok result, later, after)) :
    ∃ read middle between, loader.load store hash = (.ok read, middle, between) ∧
      (next read).run middle between = (.ok result, later, after) := by
  rcases hload : loader.load store hash with ⟨error | read, middle, between⟩
  · rw [run_load_error hhome hload] at h
    cases h
  · rw [run_load_ok hhome hload] at h
    exact ⟨read, middle, between, rfl, h⟩

namespace Node

open BackedTrie (Lawful)

variable {node child updated moved : Node} {first : Nibble} {key rest lead : List Nibble}
  {table : Slots} {own : Option Bytes}

/-! ## What is made anew -/

/-- A walk went from one loader to another and made this tree anew. What is lawful stays so. -/
structure Since (loader later : Loader) (made : Node) : Prop where
  lawful : (⟨later, made⟩ : BackedTrie).Lawful
  keeps : ∀ other, (⟨loader, other⟩ : BackedTrie).Lawful → (⟨later, other⟩ : BackedTrie).Lawful
  le : loader.mint.next ≤ later.mint.next
  new : made.New loader.mint.next

namespace Since

/-- What a walk makes anew by its guarantee in a lawful trie it makes anew. -/
theorem of_meets (h : (⟨loader, node⟩ : BackedTrie).Lawful) {walk : Walk Node} {made : Node}
    {post : Nat → Node → Prop}
    (hmeets : walk.Meets (.lawful loader.owner) (fun later made ↦
      made.Made (.lawful loader.owner) (fun _ ↦ True) (fun _ ↦ True) loader.mint.next later ∧
        post later made) loader.mint.next)
    (hrun : walk.run loader store = (.ok made, later, after)) :
    made.Since loader later ∧ post later.mint.next made := by
  obtain ⟨howner, hserves, hle, ⟨hstanding, hnew⟩, hpost⟩ := h.run_ok hmeets hrun
  exact ⟨⟨.of_standing howner hserves hstanding,
    fun other hother ↦ .of_standing howner hserves (hother.standing.mono hle), hle, hnew⟩, hpost⟩

/-- What is made anew later is made anew. -/
theorem trans {middle : Loader} (h : node.Since loader middle)
    (hmade : updated.Since middle later) : updated.Since loader later :=
  ⟨hmade.lawful, fun other hother ↦ hmade.keeps other (h.keeps other hother),
    Nat.le_trans h.le hmade.le, hmade.new.mono h.le⟩

/-- What is made anew is no old instance. -/
theorem same_eq_false (h : updated.Since loader later)
    (hnode : (⟨loader, node⟩ : BackedTrie).Lawful)
    (hnull : node.isNull = false ∨ updated.isNull = false) : updated.same node = false :=
  hnull.elim (fun hnull ↦ h.new.same_eq_false hnode.standing.issued hnull)
    fun hnull ↦ h.new.same_eq_false_of_present hnode.standing.issued hnull

/-- What is made anew is another node than an old one. -/
theorem ne (h : updated.Since loader later) (hnode : (⟨loader, node⟩ : BackedTrie).Lawful)
    (hnull : node.isNull = false ∨ updated.isNull = false) : updated ≠ node := by
  rintro rfl
  have hsame := h.same_eq_false hnode hnull
  rw [same_self] at hsame
  cases hsame

/-- What is made anew below a branch takes its slot among the others. -/
theorem slot {stamp : Stamp} {occupied : BitVec 16} {slots : Nibble → Node}
    (h : updated.Since loader later)
    (hbranch : (⟨loader, .branch stamp occupied slots own⟩ : BackedTrie).Lawful)
    (nibble slot : Nibble) :
    (⟨later, ((Slots.mk occupied slots).set nibble updated).node slot⟩ : BackedTrie).Lawful := by
  rw [Slots.node_set]
  split
  · exact h.lawful
  · exact h.keeps _ (hbranch.slot slot)

end Since

/-- A node that is moved is made anew. -/
theorem graft_since (h : (⟨loader, node⟩ : BackedTrie).Lawful)
    (hrun : (node.graft (first :: lead)).run loader store = (.ok moved, later, after)) :
    moved.Since loader later ∧ (node.isNull = false → moved.isNull = false) :=
  Since.of_meets h (graft_standing Service.lawful_steady first lead h.standing) hrun

/-- A branch that is folded is made anew. -/
theorem collapse_since (hsound : table.Sound)
    (h : ∀ slot, (⟨loader, table.node slot⟩ : BackedTrie).Lawful)
    (hrun : (collapse table own).run loader store = (.ok updated, later, after)) :
    updated.Since loader later := by
  have hslots : ∀ slot, (table.node slot).Standing (fun _ ↦ True) (fun _ ↦ True)
      (Service.lawful loader.owner).owner loader.mint.next := fun slot ↦ (h slot).standing
  have hmeets := collapse_standing Service.lawful_steady own hsound hslots fun _ _ ↦ trivial
  have hmade : (collapse table own).Meets (.lawful loader.owner) (fun later made ↦
      made.Made (.lawful loader.owner) (fun _ ↦ True) (fun _ ↦ True) loader.mint.next later ∧
        True) loader.mint.next :=
    hmeets.mono fun _ _ _ hmade ↦ ⟨hmade, trivial⟩
  exact (Since.of_meets (h 0) hmade hrun).1

/-- An insertion makes a node anew, which is not empty. -/
theorem insert_since (h : (⟨loader, node⟩ : BackedTrie).Lawful) {value : Bytes}
    (hrun : (node.insert key value).run loader store = (.ok updated, later, after)) :
    updated.Since loader later ∧ updated.isNull = false :=
  Since.of_meets h (insert_standing Service.lawful_steady key trivial h.standing) hrun

/-- An erasure gives back the very node, or makes one anew in place of a node that is not empty. -/
theorem erase_since (h : (⟨loader, node⟩ : BackedTrie).Lawful)
    (hrun : (node.erase key).run loader store = (.ok updated, later, after)) :
    updated = node ∨ node.isNull = false ∧ updated.Since loader later := by
  obtain ⟨howner, hserves, hle, hstanding, hupdated⟩ :=
    h.run_ok (erase_standing Service.lawful_steady key h.standing) hrun
  refine hupdated.imp_right fun ⟨hnull, hnew⟩ ↦ ⟨hnull, .of_standing howner hserves hstanding,
    fun other hother ↦ .of_standing howner hserves (hother.standing.mono hle), hle, hnew⟩

/-- What is erased below a node leaves it as it is, or the node is made anew over what is left. -/
theorem erase_below (h : (⟨loader, child⟩ : BackedTrie).Lawful) {kept result : Node}
    {rebuild : Node → Walk Node}
    (hrun : (child.erase rest >>= fun updated ↦
      if updated.same child then pure kept else rebuild updated).run loader store =
        (.ok result, later, after)) :
    (child.erase rest).run loader store = (.ok child, later, after) ∧ result = kept ∨
    ∃ updated middle between, (child.erase rest).run loader store = (.ok updated, middle, between) ∧
      child.isNull = false ∧ updated.Since loader middle ∧
      (rebuild updated).run middle between = (.ok result, later, after) := by
  obtain ⟨updated, middle, between, herase, hrest⟩ := Walk.run_bind_ok hrun
  rcases erase_since h herase with rfl | ⟨hnull, hsince⟩
  · rw [same_self, if_pos rfl] at hrest
    cases hrest
    exact Or.inl ⟨herase, rfl⟩
  · rw [hsince.same_eq_false h (Or.inl hnull), if_neg Bool.false_ne_true] at hrest
    exact Or.inr ⟨updated, middle, between, herase, hnull, hsince, hrest⟩

/-- What is inserted below a node is something new, over which the node is made anew. -/
theorem insert_below (h : (⟨loader, child⟩ : BackedTrie).Lawful) {value : Bytes}
    {kept result : Node} {rebuild : Node → Walk Node}
    (hrun : (child.insert rest value >>= fun updated ↦
      if updated.same child then pure kept else rebuild updated).run loader store =
        (.ok result, later, after)) :
    ∃ updated middle between,
      (child.insert rest value).run loader store = (.ok updated, middle, between) ∧
      updated.Since loader middle ∧ updated.isNull = false ∧
      (rebuild updated).run middle between = (.ok result, later, after) := by
  obtain ⟨updated, middle, between, hinsert, hrest⟩ := Walk.run_bind_ok hrun
  obtain ⟨hsince, hnull⟩ := insert_since h hinsert
  rw [hsince.same_eq_false h (Or.inr hnull), if_neg Bool.false_ne_true] at hrest
  exact ⟨updated, middle, between, hinsert, hsince, hnull, hrest⟩

/-! ## What is given back -/

/-- An erasure that succeeds gives back the very node exactly if a lookup finds no value there. -/
theorem erase_eq_self_iff (h : (⟨loader, node⟩ : BackedTrie).Lawful)
    (hrun : (node.erase key).run loader store = (.ok updated, later, after)) :
    ∃ found, ((node.find? key).run loader store).1 = .ok found ∧
      (updated = node ↔ found = none) := by
  induction node, key using Node.erase.induct generalizing loader store updated later after with
  | case1 key =>
      rw [erase_null] at hrun
      cases hrun
      exact ⟨none, by rw [find?_null]; rfl, iff_of_true rfl rfl⟩
  | case2 stamp path value key =>
      rw [erase_leaf] at hrun
      rw [find?_leaf]
      by_cases hpath : path = key
      · rw [if_pos hpath] at hrun ⊢
        cases hrun
        exact ⟨some value, rfl, iff_of_false (by rintro ⟨⟩) (by rintro ⟨⟩)⟩
      · rw [if_neg hpath] at hrun ⊢
        cases hrun
        exact ⟨none, rfl, iff_of_true rfl rfl⟩
  | case3 stamp first lead child key hstrip =>
      rw [erase_extension, hstrip] at hrun
      cases hrun
      exact ⟨none, by rw [find?_extension, hstrip]; rfl, iff_of_true rfl rfl⟩
  | case4 stamp first lead child key rest hstrip hlt ih =>
      have hchild : (⟨loader, child⟩ : BackedTrie).Lawful := h.child
      rw [erase_extension, hstrip] at hrun
      rw [find?_extension, hstrip]
      rcases erase_below hchild hrun with
        ⟨herase, rfl⟩ | ⟨below, middle, between, herase, hnull, hsince, hgraft⟩
      · obtain ⟨found, hfound, hiff⟩ := ih hchild herase
        exact ⟨found, hfound, iff_of_true rfl (hiff.mp rfl)⟩
      · obtain ⟨found, hfound, hiff⟩ := ih hchild herase
        have hmoved := (graft_since hsince.lawful hgraft).1
        exact ⟨found, hfound, iff_of_false ((hsince.trans hmoved).ne h (Or.inl rfl))
          fun hnone ↦ hsince.ne hchild (Or.inl hnull) (hiff.mpr hnone)⟩
  | case5 stamp occupied slots =>
      rw [erase_branch_none] at hrun
      cases hrun
      exact ⟨none, by rw [find?_branch_nil]; rfl, iff_of_true rfl rfl⟩
  | case6 stamp occupied slots value =>
      rw [erase_branch_some] at hrun
      have hfolded := collapse_since h.standing.proper.1.1 h.slot hrun
      exact ⟨some value, by rw [find?_branch_nil]; rfl,
        iff_of_false (hfolded.ne h (Or.inl rfl)) (by rintro ⟨⟩)⟩
  | case7 stamp occupied slots own nibble rest ih =>
      have hslot : (⟨loader, slots nibble⟩ : BackedTrie).Lawful := h.slot nibble
      rw [erase_branch_cons] at hrun
      rw [find?_branch_cons]
      rcases erase_below hslot hrun with
        ⟨herase, rfl⟩ | ⟨below, middle, between, herase, hnull, hsince, hfold⟩
      · obtain ⟨found, hfound, hiff⟩ := ih hslot herase
        exact ⟨found, hfound, iff_of_true rfl (hiff.mp rfl)⟩
      · obtain ⟨found, hfound, hiff⟩ := ih hslot herase
        have hfolded := collapse_since (Slots.set_sound h.standing.proper.1.1 nibble below)
          (hsince.slot h nibble) hfold
        exact ⟨found, hfound, iff_of_false ((hsince.trans hfolded).ne h (Or.inl rfl))
          fun hnone ↦ hsince.ne hslot (Or.inl hnull) (hiff.mpr hnone)⟩
  | case8 stamp hash key ih =>
      rw [erase_stored] at hrun
      rw [find?_stored]
      obtain ⟨read, middle, between, hload, hrest⟩ := Walk.run_load_inv h.home_eq hrun
      obtain ⟨hread, hnull, -, -⟩ := h.load hload
      rw [Walk.run_load_ok h.home_eq hload]
      rcases erase_below hread hrest with
        ⟨herase, rfl⟩ | ⟨below, last, other, herase, -, hsince, hpure⟩
      · obtain ⟨found, hfound, hiff⟩ := ih read hread herase
        exact ⟨found, hfound, iff_of_true rfl (hiff.mp rfl)⟩
      · obtain ⟨found, hfound, hiff⟩ := ih read hread herase
        cases hpure
        refine ⟨found, hfound, iff_of_false ?_
          fun hnone ↦ hsince.ne hread (Or.inl hnull) (hiff.mpr hnone)⟩
        rintro rfl
        cases hsince.new.isStored_eq

end Node

/-! ## At the root -/

variable [TrieValue α]

namespace Change

/-- The key that a change is about. -/
def key : Change α → Bytes
  | .put key _ | .remove key => key

/-- The change takes its value from the key. So does putting a value whose encoding is empty. -/
def isRemoval : Change α → Bool
  | .put _ value => (TrieValue.encode value).isEmpty
  | .remove _ => true

variable {change : Change α}

/-- A removal is an erasure of the key. -/
theorem walk_of_removal (h : change.isRemoval = true) (node : Node) :
    node.change change = node.erase change.key.nibbles := by
  cases change with
  | remove key => rfl
  | put key value => exact if_pos h

/-- Any other change is an insertion of the key. -/
theorem walk_of_not_removal (h : change.isRemoval = false) (node : Node) :
    ∃ bytes, bytes ≠ [] ∧ node.change change = node.insert change.key.nibbles bytes := by
  cases change with
  | remove key => cases h
  | put key value =>
      refine ⟨TrieValue.encode value, fun hempty ↦ ?_, ?_⟩
      · rw [isRemoval, hempty] at h
        cases h
      · rw [Node.change, Node.write]
        exact if_neg (Bool.eq_false_iff.mp h)

end Change

/-- A change of a lawful trie that succeeds leaves the root the very instance exactly if it takes a
value from a key that has none. The whole root is then as it was. -/
theorem BackedTrie.Lawful.same_iff {trie later : BackedTrie} (h : trie.Lawful)
    {change : Change α}
    (hchange : trie.attempt store (.change change) = (.ok .done, later, after)) :
    (later.root.same trie.root = true ↔ change.isRemoval = true ∧
        (trie.attempt store (.get change.key : Request α)).1 = .ok (.value none)) ∧
      (later.root.same trie.root = true → later.root = trie.root) := by
  have hrun := attempt_change_eq_ok_iff.mp hchange
  cases hremoval : change.isRemoval with
  | true =>
      rw [change.walk_of_removal hremoval] at hrun
      obtain ⟨found, hfound, hiff⟩ := Node.erase_eq_self_iff h hrun
      rw [attempt_get_eq_none_iff, hfound]
      rcases Node.erase_since h hrun with heq | ⟨hnull, hsince⟩
      · rw [heq, Node.same_self, hiff.mp heq]
        exact ⟨iff_of_true rfl ⟨rfl, rfl⟩, fun _ ↦ rfl⟩
      · have hne := hsince.ne h (Or.inl hnull)
        rw [hsince.same_eq_false h (Or.inl hnull)]
        refine ⟨iff_of_false nofun ?_, nofun⟩
        rintro ⟨-, hnone⟩
        exact hne (hiff.mpr (Except.ok.inj hnone))
  | false =>
      obtain ⟨bytes, -, hwalk⟩ := change.walk_of_not_removal hremoval trie.root
      rw [hwalk] at hrun
      obtain ⟨hsince, hnull⟩ := Node.insert_since h hrun
      rw [hsince.same_eq_false h (Or.inr hnull)]
      exact ⟨iff_of_false nofun nofun, nofun⟩

/-- A trie in memory is changed any number of times, or tries that begin without entries share a
store of any kind and anything is done with them. Then one more change is made that succeeds. It
leaves the root the very same instance exactly if it takes the value from a key that has none. A
value with an empty encoding counts as none. So a root in a store that is the same instance is as it
was, and a commit after it has nothing to write and leaves everything as it is. -/
theorem Change.same_root_iff (change : Change α) :
    (∀ owner (changes : List (Change α)), ∃ trie changed : MemoryTrie,
      MemoryTrie.run owner changes = .ok trie ∧ trie.change change = .ok changed ∧
      (changed.root.same trie.root = true ↔ change.isRemoval = true ∧
        (changes.foldl Ledger.record ∅).lookup change.key = none)) ∧
    ∀ (σ : Type) [NodeStore σ] (store : σ) (settings : Nat → Settings)
      (acts : List (Commons.Act α)) (name : Nat) (later : BackedTrie) (after : σ),
      let commons := (Commons.start store settings).after acts
      let trie := commons.tries name
      trie.attempt commons.store (.change change) = (.ok .done, later, after) →
      (later.root.same trie.root = true ↔ change.isRemoval = true ∧
        (trie.attempt commons.store (.get change.key : Request α)).1 = .ok (.value none)) ∧
      (later.root.same trie.root = true → trie.root.isFormed = false →
        later.root = trie.root ∧ later.writes (.commit : Request α) = [] ∧
        later.commit after = (.ok trie.rootHash, later, after)) := by
  constructor
  · intro owner changes
    obtain ⟨trie, hrun, hkeeps⟩ := (MemoryTrie.Keeps.empty owner).changes changes
    obtain ⟨changed, hchanged, -⟩ := hkeeps.change change
    refine ⟨trie, changed, hrun, hchanged, ?_⟩
    -- Any store will do for a trie in memory.
    obtain ⟨hbacked, -⟩ := MemoryTrie.attempt_backed hchanged MemoryStore.empty
    obtain ⟨hsame, -⟩ := hkeeps.backed_ready.lawful.same_iff hbacked
    rw [(MemoryTrie.attempt_get_backed (hkeeps.find?_eq change.key) _).1] at hsame
    refine hsame.trans (and_congr_right fun _ ↦ ⟨fun hnone ↦ ?_, fun hnone ↦ by rw [hnone]⟩)
    cases hlookup : (changes.foldl Ledger.record ∅).lookup change.key with
    | none => rfl
    | some value =>
        rw [hlookup] at hnone
        cases hnone
  · intro σ _ store settings acts name later after commons trie hchange
    have hready : trie.Ready := Commons.after_ready store settings acts name
    obtain ⟨hsame, hroot⟩ := hready.lawful.same_iff hchange
    refine ⟨hsame, fun heq hformed ↦ ?_⟩
    have hkept := hroot heq
    have hlater : later.root.isFormed = false := by rw [hkept, hformed]
    refine ⟨hkept, ?_, ?_⟩
    · rw [BackedTrie.writes, hlater]
      rfl
    · rw [BackedTrie.commit_of_not_formed after hlater, BackedTrie.rootHash, hkept]
      rfl

open Commons in
set_option maxRecDepth 100000 in
/-- A trie of two entries that was committed and opened again has a reference for its root. Taking
away a key without a value loads the branch behind it and leaves the root the same, so that a commit
writes nothing. Taking away one of the two keys leaves another root. -/
theorem Change.same_root_iff_reopened :
    let commons := logged.after reopened
    let trie := commons.tries 0
    let erased := fun key ↦ trie.attempt commons.store (.change (.remove key) : Request Bytes)
    trie.root.isStored = true ∧
      (erased [0x30]).2.1.root.same trie.root = true ∧
      (erased [0x30]).2.1.commit (erased [0x30]).2.2 =
        (.ok trie.rootHash, (erased [0x30]).2.1, (erased [0x30]).2.2) ∧
      (erased [0x10]).2.1.root.same trie.root = false := by
  intro commons trie erased
  have hruns : (∀ key ∈ [[0x30], [0x10]], (erased key).1 = .ok .done) ∧
      (trie.attempt commons.store (.get [0x30] : Request Bytes)).1 = .ok (.value none) ∧
      (trie.attempt commons.store (.get [0x10] : Request Bytes)).1 ≠ .ok (.value none) ∧
      trie.root.isStored = true ∧ trie.root.isFormed = false := by
    decide +kernel
  obtain ⟨hdone, hnone, hsome, hstored, hformed⟩ := hruns
  have hpair : ∀ ended : Except Failure (Reply Bytes) × BackedTrie × ProbedStore,
      ended.1 = .ok .done → ended = (.ok .done, ended.2.1, ended.2.2) := by
    rintro ⟨_, _, _⟩ rfl
    rfl
  obtain ⟨-, hbacked⟩ := Change.same_root_iff (.remove [0x30] : Change Bytes)
  obtain ⟨hsame, hcommit⟩ := hbacked ProbedStore (.empty true) (fun _ ↦ .standard) reopened 0 _ _
    (hpair (erased [0x30]) (hdone [0x30] (by decide)))
  have hkept := hsame.mpr ⟨rfl, hnone⟩
  obtain ⟨-, hother⟩ := Change.same_root_iff (.remove [0x10] : Change Bytes)
  obtain ⟨hsame', -⟩ := hother ProbedStore (.empty true) (fun _ ↦ .standard) reopened 0 _ _
    (hpair (erased [0x10]) (hdone [0x10] (by decide)))
  refine ⟨hstored, hkept, (hcommit hkept hformed).2.2, ?_⟩
  exact Bool.eq_false_iff.mpr fun heq ↦ hsome (hsame'.mp heq).2

end Patricia
