import Patricia.Proofs.Trie.Coherent
import Patricia.Proofs.Trie.Hanging

/-!
# Changed tries share what hangs off the way

When a key is taken away, what hangs off its way is found at its place in the new trie as the very
node that it was, apart from a node that is left alone in its branch. That one takes the place of
the branch, with a longer path and the very children that it had (`Node.erase_spares`). So a change
shares with the old tree everything beside the way, in memory and over a store of any kind, and the
old root still answers lookups as before (`Change.shares_subtrees`).
-/

namespace Patricia

/-- When a slot was set, a node in another one is the only node exactly if the slot was cleared and
there was no other node. -/
theorem Slots.alone_set_iff {slots : Slots} {slot nibble : Nibble} {node : Node}
    (hne : slot ≠ nibble) :
    (∀ other, ((slots.set nibble node).node other).isNull = false → other = slot) ↔
      node.isNull = true ∧
        ∀ other, (slots.node other).isNull = false → other = slot ∨ other = nibble := by
  constructor
  · intro hothers
    refine ⟨?_, fun other hother ↦ ?_⟩
    · by_contra hthere
      refine hne (hothers nibble ?_).symm
      rw [node_set, if_pos rfl]
      exact Bool.eq_false_iff.mpr hthere
    · by_cases heq : other = nibble
      · exact Or.inr heq
      · exact Or.inl (hothers other (by rw [node_set, if_neg heq, hother]))
  · rintro ⟨hempty, hothers⟩ other hother
    by_cases heq : other = nibble
    · rw [heq, node_set, if_pos rfl, hempty] at hother
      cases hother
    · rw [node_set, if_neg heq] at hother
      exact (hothers other hother).resolve_right heq

variable {σ : Type} [NodeStore σ] {loader later : Loader} {store after : σ}

namespace Node

open BackedTrie (Lawful)

variable {node sub there updated : Node} {lead place key rest : List Nibble}
  {loads more : List Load} {alone : Prop} {first nibble : Nibble}

/-! ## Taking a key away -/

/-- What hangs off the way of a key that is taken away, on which there are the references with these
loads, is where it was, the very nodes, unless it is left alone. What there is of a node that is
left alone is there below a longer path, after it was loaded if it was a reference. -/
structure Spares (node updated : Node) (key : List Nibble) (way made : List Load) : Prop where
  still : ∀ place sub alone, node.Hangs key way place sub alone → sub.isNull = false → ¬alone →
    updated.At place sub
  moved : ∀ place sub alone, node.Hangs key way place sub alone → sub.isNull = false → alone →
    ∃ there, Behind made sub there ∧ updated.Carries place there

section Fold

variable {table : Slots} {own : Option Bytes} {slot : Nibble}

/-- A folded branch is the node that is alone in it, moved, or a branch with all the nodes in its
slots. -/
theorem collapse_eq (hsound : table.Sound) (hnull : (table.node slot).isNull = false) :
    (own = none ∧ ∀ other, (table.node other).isNull = false → other = slot) ∧
        collapse table own = (table.node slot).graft [slot] ∨
      ¬(own = none ∧ ∀ other, (table.node other).isNull = false → other = slot) ∧
        collapse table own = Walk.newBranch table own := by
  have hempty : table.isEmpty = false := by
    refine Bool.eq_false_iff.mpr fun hempty ↦ ?_
    rw [hsound.isEmpty_iff.mp hempty slot] at hnull
    cases hnull
  by_cases halone : own = none ∧ ∀ other, (table.node other).isNull = false → other = slot
  · obtain ⟨rfl, hothers⟩ := halone
    have honly : table.only? = some (slot, table.node slot) := by
      refine hsound.only?_eq_some_iff.mpr ⟨rfl, fun other ↦ ⟨hothers other, ?_⟩⟩
      rintro rfl
      exact hnull
    exact Or.inl ⟨⟨rfl, hothers⟩, collapse_only hempty honly⟩
  · refine Or.inr ⟨halone, collapse_forked hempty ?_⟩
    by_contra hno
    push Not at hno
    obtain ⟨hown, hne⟩ := hno
    obtain ⟨⟨place, child⟩, honly⟩ := Option.ne_none_iff_exists'.mp hne
    obtain ⟨-, hothers⟩ := hsound.only?_eq_some_iff.mp honly
    refine halone ⟨hown, fun other hother ↦ ?_⟩
    rw [(hothers other).mp hother, (hothers slot).mp hnull]

/-- A node in the slots of a branch that is folded stays in its slot, or it is alone and moves. -/
theorem collapse_spares (hsound : table.Sound)
    (h : ∀ slot, (⟨loader, table.node slot⟩ : BackedTrie).Lawful)
    (hnull : (table.node slot).isNull = false)
    (hrun : (collapse table own).run loader store = (.ok updated, later, after)) :
    (¬(own = none ∧ ∀ other, (table.node other).isNull = false → other = slot) →
      updated.At [slot] (table.node slot)) ∧
    ((own = none ∧ ∀ other, (table.node other).isNull = false → other = slot) →
      ∃ there, Behind ((collapse table own).loads loader store) (table.node slot) there ∧
        updated.Carries [slot] there) := by
  rcases collapse_eq hsound hnull with ⟨halone, heq⟩ | ⟨halone, heq⟩
  · refine ⟨fun hno ↦ absurd halone hno, fun _ ↦ ?_⟩
    rw [heq] at hrun ⊢
    obtain ⟨there, hbehind, hlifts, hthere⟩ := graft_behind (h slot) hrun
    exact ⟨there, hbehind, hlifts.carries_self (hthere hnull)⟩
  · refine ⟨fun _ ↦ ?_, fun hsole ↦ absurd hsole halone⟩
    rw [heq] at hrun
    cases hrun
    exact .slot .here

end Fold

namespace Spares

variable {way made : List Load} {stamp : Stamp} {child below : Node} {occupied : BitVec 16}
  {slots : Nibble → Node} {own : Option Bytes}

/-- What is spared below an extension is spared when the child is moved. -/
theorem along (h : child.Spares below rest way made)
    (hstrip : stripLead? (first :: lead) key = some rest)
    (hlifts : Lifts (first :: lead) below updated) (hmade : made ⊆ more) :
    (extension stamp first lead child).Spares updated key way more where
  still place sub alone hhangs hnull halone := by
    obtain ⟨place, rfl, hbelow⟩ := hhangs.of_along hstrip
    exact hlifts.at_append hbelow.place_ne_nil (h.still place sub alone hbelow hnull halone)
  moved place sub alone hhangs hnull halone := by
    obtain ⟨place, rfl, hbelow⟩ := hhangs.of_along hstrip
    obtain ⟨there, hbehind, hcarries⟩ := h.moved place sub alone hbelow hnull halone
    exact ⟨there, hbehind.mono hmade, hlifts.carries_append hbelow.place_ne_nil hcarries⟩

/-- What is spared behind a reference is spared. -/
theorem found {hash : Hash} {heard : Option Answer} {read : Resolved}
    (h : read.val.Spares updated key way made) (hmade : made ⊆ more) :
    (stored stamp hash).Spares updated key (⟨hash, heard, .ok read⟩ :: way) more where
  still place sub alone hhangs hnull halone := by
    cases hhangs with
    | found hbelow => exact h.still place sub alone hbelow hnull halone
  moved place sub alone hhangs hnull halone := by
    cases hhangs with
    | found hbelow =>
        obtain ⟨there, hbehind, hcarries⟩ := h.moved place sub alone hbelow hnull halone
        exact ⟨there, hbehind.mono hmade, hcarries⟩

/-- A branch that gives up its value is folded. -/
theorem ending (h : (⟨loader, .branch stamp occupied slots own⟩ : BackedTrie).Lawful)
    (hrun : (collapse ⟨occupied, slots⟩ none).run loader store = (.ok updated, later, after)) :
    (branch stamp occupied slots own).Spares updated [] way
      ((collapse ⟨occupied, slots⟩ none).loads loader store) where
  still place sub alone hhangs hnull halone := by
    cases hhangs with
    | ending =>
        obtain ⟨hstill, -⟩ := collapse_spares h.standing.proper.1.1 h.slot hnull hrun
        exact hstill fun hsole ↦ halone hsole.2
  moved place sub alone hhangs hnull halone := by
    cases hhangs with
    | ending =>
        obtain ⟨-, hmoved⟩ := collapse_spares h.standing.proper.1.1 h.slot hnull hrun
        exact hmoved ⟨rfl, halone⟩

/-- A branch in which a slot has changed is folded. Nothing is left in the slot exactly if there was
the key's leaf alone. -/
theorem slot {middle : Loader} {between : σ}
    (h : (⟨loader, .branch stamp occupied slots own⟩ : BackedTrie).Lawful)
    (hslot : (slots nibble).Spares below rest way made) (hsince : below.Since loader middle)
    (hsole : (slots nibble).Sole rest way ↔ below.isNull = true)
    (hrun : (collapse ((Slots.mk occupied slots).set nibble below) own).run middle between =
      (.ok updated, later, after))
    (hmore : (collapse ((Slots.mk occupied slots).set nibble below) own).loads middle between ⊆
      more)
    (hmade : made ⊆ more) :
    (branch stamp occupied slots own).Spares updated (nibble :: rest) way more := by
  obtain ⟨hsound, hforked, -⟩ := h.standing.proper.1
  have hsound' := Slots.set_sound hsound nibble below
  have hbeside : ∀ slot, slot ≠ nibble →
      ((Slots.mk occupied slots).set nibble below).node slot = slots slot := fun slot hne ↦ by
    rw [Slots.node_set, if_neg hne]
  -- Where something hangs off below the slot, the branch stays one.
  have hkept : ∀ {place sub alone}, (slots nibble).Hangs rest way place sub alone →
      ∃ made, updated = .branch made ((Slots.mk occupied slots).set nibble below).occupied
        ((Slots.mk occupied slots).set nibble below).node own := by
    intro place sub alone hhangs
    have hbelow : below.isNull = false := Bool.eq_false_iff.mpr fun hempty ↦
      hhangs.not_sole (hsole.mpr hempty)
    rw [collapse_set hsound hforked hbelow] at hrun
    cases hrun
    exact ⟨_, rfl⟩
  have hthere : ∀ slot, slot ≠ nibble → (slots slot).isNull = false →
      (((Slots.mk occupied slots).set nibble below).node slot).isNull = false := by
    intro slot hne hnull
    rw [hbeside slot hne, hnull]
  have hslots := hsince.slot h nibble
  constructor
  · intro place sub alone hhangs hnull halone
    cases hhangs with
    | @beside _ _ _ _ _ _ _ slot hne =>
        obtain ⟨hstill, -⟩ := collapse_spares hsound' hslots (hthere slot hne hnull) hrun
        rw [Slots.alone_set_iff hne, ← hsole, hbeside slot hne] at hstill
        exact hstill halone
    | slot hbelow =>
        obtain ⟨made, rfl⟩ := hkept hbelow
        refine .slot ?_
        rw [Slots.node_set, if_pos rfl]
        exact hslot.still _ sub alone hbelow hnull halone
  · intro place sub alone hhangs hnull halone
    cases hhangs with
    | @beside _ _ _ _ _ _ _ slot hne =>
        obtain ⟨-, hmoved⟩ := collapse_spares hsound' hslots (hthere slot hne hnull) hrun
        rw [Slots.alone_set_iff hne, ← hsole, hbeside slot hne] at hmoved
        obtain ⟨there, hbehind, hcarries⟩ := hmoved halone
        exact ⟨there, hbehind.mono hmore, hcarries⟩
    | slot hbelow =>
        obtain ⟨made, rfl⟩ := hkept hbelow
        obtain ⟨there, hbehind, hcarries⟩ := hslot.moved _ sub alone hbelow hnull halone
        refine ⟨there, hbehind.mono hmade, .slot ?_⟩
        rw [Slots.node_set, if_pos rfl]
        exact hcarries

end Spares

/-- Taking a key away gives back the very node, or it spares what hangs off the way of the key. -/
theorem erase_spares (h : (⟨loader, node⟩ : BackedTrie).Lawful)
    (hrun : (node.erase key).run loader store = (.ok updated, later, after)) :
    updated = node ∨ node.Spares updated key ((node.find? key).loads loader store)
      ((node.erase key).loads loader store) := by
  induction node, key using Node.erase.induct generalizing loader store updated later after with
  -- Nothing hangs off the way where there is no branch and no extension.
  | case1 | case2 =>
      right
      constructor <;> rintro _ _ _ ⟨⟩
  | case3 stamp first lead child key hstrip =>
      rw [erase_extension, hstrip] at hrun
      cases hrun
      exact Or.inl rfl
  | case4 stamp first lead child key rest hstrip hlt ih =>
      have hchild : (⟨loader, child⟩ : BackedTrie).Lawful := h.child
      rw [erase_extension, hstrip] at hrun ⊢
      rw [find?_extension, hstrip]
      rcases erase_below hchild hrun with
        ⟨-, rfl⟩ | ⟨below, middle, between, herase, hnull, hsince, hgraft⟩
      · exact Or.inl rfl
      · have hspares := (ih hchild herase).resolve_left (hsince.ne hchild (Or.inl hnull))
        refine Or.inr (hspares.along hstrip (graft_lifts hsince.new.isStored_eq hgraft) ?_)
        rw [Walk.loads_bind]
        exact List.subset_append_left _ _
  | case5 stamp occupied slots =>
      rw [erase_branch_none] at hrun
      cases hrun
      exact Or.inl rfl
  | case6 stamp occupied slots value =>
      rw [erase_branch_some] at hrun ⊢
      exact Or.inr (.ending h hrun)
  | case7 stamp occupied slots own nibble rest ih =>
      have hslot : (⟨loader, slots nibble⟩ : BackedTrie).Lawful := h.slot nibble
      rw [erase_branch_cons] at hrun ⊢
      rw [find?_branch_cons]
      rcases erase_below hslot hrun with
        ⟨-, rfl⟩ | ⟨below, middle, between, herase, hnull, hsince, hfold⟩
      · exact Or.inl rfl
      · have hspares := (ih hslot herase).resolve_left (hsince.ne hslot (Or.inl hnull))
        have hsole := (erases hslot store rest).sole hnull
        rw [herase] at hsole
        refine Or.inr (hspares.slot h hsince (hsole.trans ?_) hfold ?_ ?_)
        · cases below <;> simp [isNull]
        · rw [Walk.loads_bind, herase]
          simp only [hsince.same_eq_false hslot (Or.inl hnull), if_neg Bool.false_ne_true]
          exact List.subset_append_right _ _
        · rw [Walk.loads_bind]
          exact List.subset_append_left _ _
  | case8 stamp hash key ih =>
      rw [erase_stored] at hrun ⊢
      rw [find?_stored]
      obtain ⟨read, middle, between, hload, hrest⟩ := Walk.run_load_inv h.home_eq hrun
      obtain ⟨hread, hpresent, -⟩ := h.load hload
      rw [Walk.loads_load_ok h.home_eq hload, Walk.loads_load_ok h.home_eq hload]
      rcases erase_below hread hrest with
        ⟨-, rfl⟩ | ⟨below, last, other, herase, -, hsince, hpure⟩
      · exact Or.inl rfl
      · cases hpure
        have hspares := (ih read hread herase).resolve_left (hsince.ne hread (Or.inl hpresent))
        refine Or.inr (hspares.found (List.subset_cons_of_subset _ ?_))
        rw [Walk.loads_bind]
        exact List.subset_append_left _ _

end Node

/-! ## At the root -/

variable {α : Type} [TrieValue α]

/-- A change shares what hangs off the way of its key, on which there are the references with these
loads. A key that is given a value leaves it all where it is. A key that is taken away does so too,
apart from the one node that may be left alone, unless the root stays as it is. -/
structure Change.Shares (change : Change α) (old new : Node) (way made : List Load) : Prop where
  put : change.isRemoval = false → ∀ place sub alone,
    old.Hangs change.key.nibbles way place sub alone → new.At place sub
  remove : change.isRemoval = true → new = old ∨ old.Spares new change.key.nibbles way made
  single : ∀ place other sub more alone sole,
    old.Hangs change.key.nibbles way place sub alone → sub.isNull = false → alone →
    old.Hangs change.key.nibbles way other more sole → more.isNull = false → sole → place = other

namespace BackedTrie

/-- A change of a lawful trie that succeeds shares what hangs off the way of its key. -/
theorem Lawful.shares {trie later : BackedTrie} (h : trie.Lawful) {change : Change α}
    (hchange : trie.attempt store (.change change) = (.ok .done, later, after)) :
    change.Shares trie.root later.root (trie.loads store (.get change.key : Request α))
      (trie.loads store (.change change)) := by
  have hrun := attempt_change_eq_ok_iff.mp hchange
  have hway : trie.loads store (.get change.key : Request α) =
      (trie.root.find? change.key.nibbles).loads trie.loader store :=
    (Node.read_frame trie.root trie.loader store change.key).1
  constructor
  · intro hremoval place sub alone hhangs
    obtain ⟨bytes, -, hwalk⟩ := change.walk_of_not_removal hremoval trie.root
    rw [hwalk] at hrun
    rw [hway] at hhangs
    exact Node.insert_keeps h hrun hhangs
  · intro hremoval
    rw [loads, change.walk_of_removal hremoval, hway]
    rw [change.walk_of_removal hremoval] at hrun
    exact Node.erase_spares h hrun
  · intro place other sub more alone sole hhangs hnull halone hmore hnull' hsole
    exact hhangs.place_eq hnull halone hmore hnull' hsole

/-- A change never fails, and the old root keeps the old ledger with the loader that made the
change. -/
theorem Keeps.change_root {trie : BackedTrie} {store : MemoryStore} {ledger : Ledger α}
    (h : trie.Keeps store.get? ledger) (change : Change α) :
    ∃ changed, trie.attempt store (.change change) = (.ok .done, changed, store) ∧
      (⟨changed.loader, trie.root⟩ : BackedTrie).Keeps store.get? ledger := by
  obtain ⟨content, hrecords, hholds⟩ := h.holds
  have hmeets := Node.change_content Service.holding_faithful change hholds h.issued
  obtain ⟨root, later, hrun, howner, hserves, hle, -⟩ := Walk.run_holding h.serves hmeets
  refine ⟨⟨later, root⟩, attempt_change_eq_ok_iff.mpr hrun, ?_, ?_, content, hrecords, hholds⟩
  · exact howner ▸ h.issued.mono hle
  · exact howner ▸ hserves

end BackedTrie

/-- Tries that begin without entries share a store of any kind, and anything is done with them. Then
one more change is made that succeeds. It shares with the old tree what hangs off the way of its
key: each subtree is at the place of the same keys as the very node that it was, and a reference is
still one. Only the node that taking the key away leaves alone in its branch is moved, and it has
the very children that it had. The same holds in memory, where the old root still answers every
lookup as before. It does so too over a store in memory, where the change does not fail, if no two
byte strings that are written, nor one of them and the form of the empty tree, have the same hash,
and the lengths of all fit in 64 bits. -/
theorem Change.shares_subtrees (change : Change α) :
    (∀ (σ : Type) [NodeStore σ] (store : σ) (settings : Nat → Settings)
      (acts : List (Commons.Act α)) (name : Nat) (later : BackedTrie) (after : σ),
      let commons := (Commons.start store settings).after acts
      let trie := commons.tries name
      trie.attempt commons.store (.change change) = (.ok .done, later, after) →
      change.Shares trie.root later.root
        (trie.loads commons.store (.get change.key : Request α))
        (trie.loads commons.store (.change change))) ∧
    (∀ owner (changes : List (Change α)), ∃ trie changed : MemoryTrie,
      MemoryTrie.run owner changes = .ok trie ∧ trie.change change = .ok changed ∧
      change.Shares trie.root changed.root [] [] ∧
      ∀ key, (⟨changed.mint, trie.root⟩ : MemoryTrie).find? key =
        (trie.find? key : Except Failure (Option α))) ∧
    ∀ (settings : Nat → Settings) (acts : List (Commons.Act α)) (name : Nat),
      Apart (fun bytes ↦
        (Commons.start MemoryStore.empty settings).Written acts bytes ∨ bytes = [0x80]) →
      (∀ bytes, (Commons.start MemoryStore.empty settings).Written acts bytes →
        bytes.length < 2 ^ 64) →
      let commons := (Commons.start MemoryStore.empty settings).after acts
      let trie := commons.tries name
      ∃ later, trie.attempt commons.store (.change change) = (.ok .done, later, commons.store) ∧
        ∀ keys, (⟨later.loader, trie.root⟩ : BackedTrie).findEach commons.store keys =
          (trie.findEach commons.store keys : List (Except Failure (Option α))) := by
  refine ⟨?_, ?_, ?_⟩
  · intro σ _ store settings acts name later after commons trie hchange
    have hready : trie.Ready := Commons.after_ready store settings acts name
    exact hready.lawful.shares hchange
  · intro owner changes
    obtain ⟨trie, hrun, hkeeps⟩ := (MemoryTrie.Keeps.empty owner).changes changes
    obtain ⟨changed, hchanged, -⟩ := hkeeps.change change
    refine ⟨trie, changed, hrun, hchanged, ?_, fun key ↦ ?_⟩
    -- Any store will do for a trie in memory.
    · obtain ⟨hbacked, hmade⟩ := MemoryTrie.attempt_backed hchanged MemoryStore.empty
      have hshares := hkeeps.backed_ready.lawful.shares hbacked
      rw [hmade, (MemoryTrie.attempt_get_backed (hkeeps.find?_eq change.key) _).2] at hshares
      exact hshares
    · exact ((hkeeps.change_root hchanged).find?_eq key).trans (hkeeps.find?_eq key).symm
  · intro settings acts name hapart hfits commons trie
    have hsound : commons.Sound _ := (Commons.Sound.start settings).after
      (Commons.writable_of_written hapart hfits) (fun _ ↦ Or.inl) List.prefix_rfl
    have hkeeps := hsound.keeps name
    obtain ⟨later, hchange, hroot⟩ := hkeeps.change_root change
    exact ⟨later, hchange, fun keys ↦ (hroot.findEach_eq keys).trans (hkeeps.findEach_eq keys).symm⟩

/-- There is a reference in a slot of the branch. -/
def Node.cites (slot : Nibble) : Node → Bool
  | .branch _ _ slots _ => (slots slot).isStored
  | _ => false

open Commons in
set_option maxRecDepth 100000 in
/-- A trie of two entries with long values was committed and opened again, so that its root is a
reference to a branch over two references. A third entry is put into it. The two references hang off
the way of the new key and are in the slots of the new root, and the old root still gives the first
entry and no third one. -/
theorem Change.shares_subtrees_reopened :
    let commons := fresh.after reopened
    let trie := commons.tries 0
    let change : Change Bytes := .put [0x30] [0x09]
    let way := trie.loads commons.store (.get [0x30] : Request Bytes)
    let changed := (trie.attempt commons.store (.change change)).2.1
    (∀ slot ∈ [lowNibble 1, lowNibble 2], ∃ sub alone, sub.isStored = true ∧
      trie.root.Hangs (Bytes.nibbles [0x30]) way [slot] sub alone ∧ changed.root.At [slot] sub) ∧
      (⟨changed.loader, trie.root⟩ : BackedTrie).findEach commons.store [[0x10], [0x30]] =
        [.ok (some (List.replicate 40 0x07 : Bytes)), .ok none] := by
  intro commons trie change way changed
  have hruns : (([0x80] :: fresh.transcript reopened).dedup.map keccak256).Nodup ∧
      (∀ bytes ∈ fresh.transcript reopened, bytes.length < 2 ^ 64) ∧
      trie.findEach commons.store [[0x10], [0x30]] =
        [.ok (some (List.replicate 40 0x07 : Bytes)), .ok none] ∧
      trie.root.isStored = true ∧
      ∀ load ∈ way, ∀ slot ∈ [lowNibble 1, lowNibble 2],
        slot ≠ lowNibble 3 ∧ load.outcome.toOption.any (·.val.cites slot) = true := by
    decide +kernel
  obtain ⟨hnodup, hfits, hfound, hstored, hcites⟩ := hruns
  obtain ⟨hshares, -, hkept⟩ := Change.shares_subtrees change
  obtain ⟨later, hchange, hroot⟩ := hkept (fun _ ↦ .standard) reopened 0 (apart_of_nodup hnodup)
    fun bytes hwritten ↦ hfits bytes (written_iff.mp hwritten)
  have hput := (hshares MemoryStore .empty (fun _ ↦ .standard) reopened 0 _ _ hchange).put rfl
  have hlater : changed = later := congrArg (·.2.1) hchange
  have hway : trie.root.Way (Bytes.nibbles [0x30]) way :=
    (after_ready MemoryStore.empty (fun _ ↦ .standard) reopened 0).get_way commons.store [0x30]
  rw [hlater]
  refine ⟨fun slot hslot ↦ ?_, (hroot _).trans hfound⟩
  have hhangs : ∃ sub alone, sub.isStored = true ∧
      trie.root.Hangs (Bytes.nibbles [0x30]) way [slot] sub alone := by
    clear_value way
    generalize trie.root = root at hstored hway ⊢
    cases hway with
    | null | leaf | aside | along | slot => cases hstored
    | lost => cases (hcites _ List.mem_cons_self slot hslot).2
    | @found _ _ _ _ _ node =>
        obtain ⟨hne, hcited⟩ := hcites _ List.mem_cons_self slot hslot
        obtain ⟨node, hnode⟩ := node
        cases node with
        | branch => exact ⟨_, _, hcited, .found (.beside hne)⟩
        | null | leaf | extension | stored => cases hcited
  obtain ⟨sub, alone, hsub, hhangs⟩ := hhangs
  exact ⟨sub, alone, hsub, hhangs, hput [slot] sub alone hhangs⟩

end Patricia
