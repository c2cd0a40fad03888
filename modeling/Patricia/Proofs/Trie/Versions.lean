import Patricia.Proofs.Trie.Commons
import Patricia.Proofs.Trie.Recovery

/-!
# Committed versions stay readable

Tries share a store in memory. Whatever they do, no request fails, the store overwrites nothing, and
each trie keeps the ledger of its changes (`Commons.Sound`). So a trie that is opened on a root hash
that a commit gave answers lookups as the committing trie did then, however many commits have
changed and dropped nodes that the version shares with others in the meantime
(`Commons.after_readable`). It is assumed that no two byte strings that are written have one hash.
-/

namespace Patricia

variable {α : Type} [TrieValue α]

namespace BackedTrie

/-- What lookups of some keys give one after the other. -/
def findEach {σ : Type} [NodeStore σ] (trie : BackedTrie) (store : σ) :
    List Bytes → List (Except Failure (Option α))
  | [] => []
  | key :: keys =>
      let (outcome, trie, store) := trie.find? store key
      outcome :: trie.findEach store keys

variable {known : Bytes → Prop} {trie : BackedTrie} {store : MemoryStore} {ledger : Ledger α}

namespace Keeps

/-- Lookups give what the ledger has, however many there are. -/
theorem findEach_eq (h : trie.Keeps store.get? ledger) (keys : List Bytes) :
    trie.findEach store keys = keys.map fun key ↦ .ok (ledger.lookup key) := by
  induction keys generalizing trie with
  | nil => rfl
  | cons key keys ih =>
      obtain ⟨later, hfind, hlater⟩ := h.find?_eq key
      rw [findEach, hfind]
      exact congrArg (_ :: ·) (ih hlater)

/-- A commit writes the nodes that it takes, each under its hash. -/
theorem writes_eq (h : trie.Keeps store.get? ledger) (hformed : trie.root.isFormed = true) :
    trie.writes (.commit : Request α) =
      trie.root.committed.map fun part ↦ (part.hash, part.encoding) := by
  obtain ⟨hshows, hnormal, hblank, -⟩ := h.root_shows
  rw [writes, if_pos hformed]
  exact outgoing_entries hformed (hshows.sincere hnormal hblank) h.issued

/-- A commit never fails, if what it writes is known. It gives the root hash and overwrites nothing,
the trie keeps the ledger, and so does one that is opened on the root hash. -/
theorem commit_reopens (h : trie.Keeps store.get? ledger) (hwritable : Writable known)
    (hstore : store.Authentic known)
    (hwrites : ∀ entry ∈ trie.writes (.commit : Request α), known entry.2) :
    ∃ later grown, trie.commit store = (.ok trie.rootHash, later, grown) ∧
      later.Keeps grown.get? ledger ∧ grown.Authentic known ∧
      (∀ hash bytes, store.get? hash = some bytes → grown.get? hash = some bytes) ∧
      Reopens ledger grown trie.rootHash := by
  have hparts : trie.root.isFormed = true → ∀ part ∈ trie.root.committed, known part.encoding := by
    intro hformed part hpart
    refine hwrites (part.hash, part.encoding) ?_
    rw [h.writes_eq hformed]
    exact List.mem_map_of_mem hpart
  obtain ⟨later, grown, hcommit, hlater, hgrown, hmore, hheld⟩ :=
    h.commit_known hwritable.apart hwritable.fits hstore hparts
  refine ⟨later, grown, hcommit, hlater, hgrown, hmore, fun owner settings ↦ ?_⟩
  -- The form of the root is in the store by now, and so it is known.
  have hroot : trie.isEmpty = false → known ledger.table.tree.encoding :=
    fun hnull ↦ (hgrown _ _ (hheld hnull).present).2
  exact (h.mono hmore).openAt_known hwritable.apart hwritable.empty hroot hheld owner _
    settings.positive

/-- No request fails, if what it writes is known. The reply is that of the ledger, nothing is
overwritten, the trie keeps the ledger with the change, and a hash that is given can be opened. -/
theorem attempt (h : trie.Keeps store.get? ledger) (hwritable : Writable known)
    (hstore : store.Authentic known) (request : Request α)
    (hwrites : ∀ entry ∈ trie.writes request, known entry.2) :
    ∃ later grown, trie.attempt store request = (.ok (ledger.reply request), later, grown) ∧
      later.Keeps grown.get? (Session.record ledger request (.ok (ledger.reply request))) ∧
      grown.Authentic known ∧
      (∀ hash bytes, store.get? hash = some bytes → grown.get? hash = some bytes) ∧
      ∀ hash, ledger.reply request = .hash hash →
        Reopens (Session.record ledger request (.ok (ledger.reply request))) grown hash := by
  cases request with
  | change change =>
      obtain ⟨changed, hchange, hchanged⟩ := h.change change
      rw [change_eq_update] at hchange
      rw [attempt_change, hchange]
      exact ⟨changed, store, rfl, hchanged, hstore, fun _ _ ↦ id, by rintro _ ⟨⟩⟩
  | get key =>
      obtain ⟨later, hfind, hlater⟩ := h.find?_eq key
      rw [BackedTrie.attempt, hfind]
      exact ⟨later, store, rfl, hlater, hstore, fun _ _ ↦ id, by rintro _ ⟨⟩⟩
  | commit =>
      obtain ⟨later, grown, hcommit, hlater, hgrown, hmore, hopens⟩ :=
        h.commit_reopens hwritable hstore hwrites
      rw [h.rootHash_eq] at hcommit hopens
      rw [BackedTrie.attempt, hcommit]
      refine ⟨later, grown, rfl, hlater, hgrown, hmore, ?_⟩
      rintro hash ⟨⟩
      exact hopens
  | unload node => exact ⟨_, store, rfl, h.unload node, hstore, fun _ _ ↦ id, by rintro _ ⟨⟩⟩
  | unloadRoot => exact ⟨_, store, rfl, h.unload trie.root, hstore, fun _ _ ↦ id, by rintro _ ⟨⟩⟩
  | reopen owner settings =>
      obtain ⟨later, grown, hcommit, -, hgrown, hmore, hopens⟩ :=
        h.commit_reopens hwritable hstore hwrites
      rw [h.rootHash_eq] at hcommit hopens
      rw [BackedTrie.attempt, hcommit]
      refine ⟨_, grown, rfl, hopens owner settings, hgrown, hmore, ?_⟩
      rintro hash ⟨⟩
      exact hopens

end Keeps

/-- A hash that can be opened can be opened over a store that has more. -/
theorem Reopens.mono {more : MemoryStore} {hash : Hash} (h : Reopens ledger store hash)
    (hmore : ∀ hash bytes, store.get? hash = some bytes → more.get? hash = some bytes) :
    Reopens ledger more hash :=
  fun owner settings ↦ (h owner settings).mono hmore

end BackedTrie

namespace Commons

open BackedTrie (Reopens)

variable {known : Bytes → Prop} {commons : Commons MemoryStore α} {acts before : List (Act α)}

/-- Each trie keeps its ledger over a store of genuine entries, where every version can be opened.
-/
structure Sound (known : Bytes → Prop) (commons : Commons MemoryStore α) : Prop where
  authentic : commons.store.Authentic known
  keeps : ∀ name, (commons.tries name).Keeps commons.store.get? (commons.ledgers name)
  reopens : ∀ version ∈ commons.versions, Reopens version.2 commons.store version.1

namespace Sound

/-- Tries without entries over a store without entries are sound. -/
theorem start (settings : Nat → Settings) :
    (start .empty settings : Commons MemoryStore α).Sound known :=
  ⟨MemoryStore.authentic_empty, fun _ ↦ .empty _ _ _ _, nofun⟩

/-- A trie may be given the name if it keeps the ledger. -/
theorem update (h : commons.Sound known) {name : Nat} {trie : BackedTrie} {ledger : Ledger α}
    (hkeeps : trie.Keeps commons.store.get? ledger) :
    ∀ other, (Function.update commons.tries name trie other).Keeps commons.store.get?
      (Function.update commons.ledgers name ledger other) := by
  intro other
  by_cases heq : other = name
  · subst heq
    simp only [Function.update_self]
    exact hkeeps
  · simp only [Function.update_of_ne heq]
    exact h.keeps other

/-- A store that has more may take the place of the store. -/
theorem mono (h : commons.Sound known) {store : MemoryStore} (hstore : store.Authentic known)
    (hmore : ∀ hash bytes, commons.store.get? hash = some bytes →
      store.get? hash = some bytes) : Sound known { commons with store } :=
  ⟨hstore, fun name ↦ (h.keeps name).mono hmore,
    fun version hversion ↦ (h.reopens version hversion).mono hmore⟩

/-- A request gets the reply of the ledger, overwrites nothing, and is sound. -/
theorem ask (h : commons.Sound known) (hwritable : Writable known) (name : Nat)
    (request : Request α)
    (hwrites : ∀ entry ∈ (commons.tries name).writes request, known entry.2) :
    (commons.ask name request).1 = .ok ((commons.ledgers name).reply request) ∧
      (commons.ask name request).2.Sound known := by
  obtain ⟨later, grown, hattempt, hlater, hgrown, hmore, hopens⟩ :=
    (h.keeps name).attempt hwritable h.authentic request hwrites
  have hstays := h.mono hgrown hmore
  rw [Commons.ask, hattempt]
  refine ⟨rfl, hgrown, hstays.update hlater, fun version hversion ↦ ?_⟩
  rcases List.mem_append.mp hversion with hold | hnew
  · exact hstays.reopens version hold
  · -- The root hash that the commit gave is the only new version.
    cases hreply : (commons.ledgers name).reply request with
    | hash hash =>
        rw [hreply] at hnew hopens
        obtain rfl := List.mem_singleton.mp hnew
        exact hopens hash rfl
    | done | value =>
        rw [hreply] at hnew
        cases hnew

/-- Any version may be resumed. -/
theorem resume (h : commons.Sound known) (name version owner : Nat) (settings : Settings) :
    (commons.resume name version owner settings).Sound known := by
  rw [Commons.resume]
  split
  · exact h
  · rename_i hash ledger hversion
    have hopens := h.reopens _ (List.mem_of_getElem? hversion)
    exact ⟨h.authentic, h.update (hopens owner settings), h.reopens⟩

/-- Acts are sound one after the other, if what is written is known. -/
theorem after (h : commons.Sound known) (hwritable : Writable known)
    (hwritten : ∀ bytes, commons.Written acts bytes → known bytes) (hbefore : before <+: acts) :
    (commons.after before).Sound known := by
  refine after_induction h (fun first act hfirst hsound ↦ ?_) hbefore
  cases act with
  | ask name request =>
      exact (hsound.ask hwritable name request fun entry hentry ↦
        hwritten _ ⟨first, name, request, hfirst, entry, hentry, rfl⟩).2
  | resume name version owner settings => exact hsound.resume name version owner settings

end Sound

/-- No version is taken away. -/
theorem versions_step {σ : Type} [NodeStore σ] (commons : Commons σ α) (act : Act α) :
    commons.versions <+: (commons.step act).versions := by
  cases act with
  | ask name request => exact List.prefix_append _ _
  | resume name version owner settings =>
      rw [step, Commons.resume]
      split <;> exact List.prefix_rfl

/-- No version is ever taken away. -/
theorem versions_after {σ : Type} [NodeStore σ] (commons : Commons σ α) (acts : List (Act α)) :
    commons.versions <+: (commons.after acts).versions := by
  induction acts generalizing commons with
  | nil => exact List.prefix_rfl
  | cons act acts ih => exact (commons.versions_step act).trans (ih (commons.step act))

/-- The byte strings that are written in the course of some acts can be written together, if no two
of them, the form of the empty tree among them, have one hash and their lengths fit in 64 bits. -/
theorem writable_of_written
    (hapart : Apart fun bytes ↦ commons.Written acts bytes ∨ bytes = [0x80])
    (hfits : ∀ bytes, commons.Written acts bytes → bytes.length < 2 ^ 64) :
    Writable fun bytes ↦ commons.Written acts bytes ∨ bytes = [0x80] where
  apart := hapart
  fits bytes hbytes := by
    rcases hbytes with hwritten | rfl
    · exact hfits bytes hwritten
    · decide
  empty := Or.inr rfl

/-- No request fails, and each is answered from the ledger of its trie. The ledger of a trie that
was opened on a version began as that of the version. -/
theorem after_replies (settings : Nat → Settings) {name : Nat} {request : Request α}
    (hapart : Apart fun bytes ↦
      (start MemoryStore.empty settings).Written acts bytes ∨ bytes = [0x80])
    (hfits : ∀ bytes, (start MemoryStore.empty settings).Written acts bytes →
      bytes.length < 2 ^ 64)
    (hbefore : before ++ [.ask name request] <+: acts) :
    let commons : Commons MemoryStore α := (start .empty settings).after before
    (commons.ask name request).1 = .ok ((commons.ledgers name).reply request) := by
  intro commons
  have hwritable := writable_of_written hapart hfits
  have hsound : commons.Sound _ := (Sound.start settings).after hwritable (fun _ ↦ Or.inl)
    ((List.prefix_append _ _).trans hbefore)
  exact (hsound.ask hwritable name request fun entry hentry ↦
    Or.inl ⟨before, name, request, hbefore, entry, hentry, rfl⟩).1

/-- Tries that begin without entries share a store in memory, with caches of any capacities. At some
point a commit gives a root hash. At every later point, a trie that is opened on the hash answers
all lookups from the map that the committing trie had at the commit, as the committing trie did. It
is assumed that no two byte strings that are written, nor one of them and the form of the empty
tree, have the same hash, and that the lengths of all fit in 64 bits. -/
theorem after_readable (settings : Nat → Settings) {before between acts : List (Act α)}
    {name : Nat} {request : Request α} {hash : Hash}
    (hapart : Apart fun bytes ↦
      (start MemoryStore.empty settings).Written acts bytes ∨ bytes = [0x80])
    (hfits : ∀ bytes, (start MemoryStore.empty settings).Written acts bytes →
      bytes.length < 2 ^ 64)
    (hacts : before ++ .ask name request :: between <+: acts)
    (hcommit : (((start .empty settings).after before : Commons MemoryStore α).ask name request).1 =
      .ok (.hash hash)) :
    let committing : Commons MemoryStore α := (start .empty settings).after before
    let later : Commons MemoryStore α :=
      (start .empty settings).after (before ++ .ask name request :: between)
    ∀ owner (cache : Settings) (keys : List Bytes),
      (BackedTrie.openAt (.new owner cache.cacheCapacity cache.positive) hash).findEach
          later.store keys =
        keys.map (fun key ↦ .ok ((committing.ledgers name).lookup key)) ∧
      (committing.tries name).findEach committing.store keys =
        keys.map fun key ↦ .ok ((committing.ledgers name).lookup key) := by
  intro committing later owner cache keys
  have hwritable := writable_of_written hapart hfits
  have hsound : committing.Sound _ := (Sound.start settings).after hwritable (fun _ ↦ Or.inl)
    ((List.prefix_append _ _).trans hacts)
  have hlast : later.Sound _ := (Sound.start settings).after hwritable (fun _ ↦ Or.inl) hacts
  have hnow : before ++ [.ask name request] <+: acts := by
    refine List.IsPrefix.trans ?_ hacts
    exact List.prefix_append_right_inj before |>.mpr (List.prefix_append [_] between)
  have hreply := after_replies settings hapart hfits hnow
  have hhash : (committing.ledgers name).reply request = .hash hash :=
    Except.ok.inj (hreply.symm.trans hcommit)
  have hledger : Session.record (committing.ledgers name) request (.ok (.hash hash)) =
      committing.ledgers name := by
    cases request with
    | change => cases hhash
    | get | commit | unload | unloadRoot | reopen => rfl
  -- The commit adds the version, and no later act takes it away.
  have hadded : (hash, committing.ledgers name) ∈ (committing.ask name request).2.versions := by
    rw [versions_ask, hcommit, hledger]
    exact List.mem_append_right committing.versions (List.mem_singleton_self _)
  have hversion : (hash, committing.ledgers name) ∈ later.versions := by
    have hafter : later = (committing.ask name request).2.after between :=
      after_append _ before (.ask name request :: between)
    rw [hafter]
    exact (versions_after _ between).subset hadded
  exact ⟨(hlast.reopens _ hversion owner cache).findEach_eq keys,
    (hsound.keeps name).findEach_eq keys⟩

/-- Tries without entries over a store in memory. -/
def fresh : Commons MemoryStore Bytes :=
  start .empty fun _ ↦ .standard

/-- Three entries are put into one trie. -/
def entering : List (Act Bytes) :=
  threeEntries.map fun change ↦ .ask 0 (.change change)

/-- After that trie is committed another one is opened on the root hash, with a cache for one node.
It reads both branches and replaces a value beside the reference to the long leaf. The first trie
loses the long leaf. Both are committed. -/
def rewriting : List (Act Bytes) :=
  [.resume 1 0 2 .narrow, .ask 1 (.change (.put [0x12] [0x0a])), .ask 1 .commit,
    .ask 0 (.change (.remove [0x11])), .ask 0 .commit]

set_option maxRecDepth 100000 in
/-- Values were replaced and removed, and a trie that is opened on the first root hash still gives
the first ones. -/
theorem rewriting_readable :
    let acts := entering ++ .ask 0 .commit :: rewriting
    let hash := ((fresh.after entering).tries 0).rootHash
    ((fresh.after acts).tries 1).findEach (fresh.after acts).store threeKeys =
        [.ok (some ([0x07] : Bytes)), .ok (some (List.replicate 32 0x07)), .ok (some [0x0a])] ∧
      ((fresh.after acts).tries 0).findEach (fresh.after acts).store threeKeys =
        [.ok (some ([0x07] : Bytes)), .ok none, .ok (some [0x09])] ∧
      (BackedTrie.openAt (.new 3 1 (by decide)) hash).findEach (fresh.after acts).store threeKeys =
        [.ok (some ([0x07] : Bytes)), .ok (some (List.replicate 32 0x07)), .ok (some [0x09])] := by
  intro acts hash
  obtain ⟨hnodup, hfits, hcommit, hledger, hsecond, hfirst⟩ :
      (([0x80] :: fresh.transcript acts).dedup.map keccak256).Nodup ∧
        (∀ bytes ∈ fresh.transcript acts, bytes.length < 2 ^ 64) ∧
        ((fresh.after entering).ask 0 .commit).1 = .ok (.hash hash) ∧
        threeKeys.map (fun key ↦
          (.ok (((fresh.after entering).ledgers 0).lookup key) : Except Failure (Option Bytes))) =
          [.ok (some [0x07]), .ok (some (List.replicate 32 0x07)), .ok (some [0x09])] ∧
        ((fresh.after acts).tries 1).findEach (fresh.after acts).store threeKeys =
          [.ok (some ([0x07] : Bytes)), .ok (some (List.replicate 32 0x07)), .ok (some [0x0a])] ∧
        ((fresh.after acts).tries 0).findEach (fresh.after acts).store threeKeys =
          [.ok (some ([0x07] : Bytes)), .ok none, .ok (some [0x09])] := by
    decide +kernel
  have hopened := (after_readable (fun _ ↦ .standard) (apart_of_nodup hnodup)
    (fun bytes hwritten ↦ hfits bytes (written_iff.mp hwritten)) List.prefix_rfl hcommit 3
    .narrow threeKeys).1
  exact ⟨hsecond, hfirst, hopened.trans hledger⟩

end Commons

end Patricia
