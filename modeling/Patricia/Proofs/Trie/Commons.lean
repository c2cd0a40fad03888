import Patricia.Proofs.Trie.Session

/-!
# Tries that share a store

A `Commons` is a store and tries over it, named by numbers. Acts on it follow one another: a trie
receives a request, which may fail, or a name is given to a trie that is opened on a root hash which
an earlier commit gave. Beside the tries stand the ledgers of the changes that they made, and beside
each root hash that a commit gave stands the ledger that the trie had then.
-/

namespace Patricia

variable {σ : Type} [NodeStore σ] {α : Type} [TrieValue α]

/-- The entries that a request to a trie gives the store to write. -/
def BackedTrie.writes (trie : BackedTrie) : Request α → List Entry
  | .commit | .reopen .. => if trie.root.isFormed then trie.outgoing.1.map Outgoing.entry else []
  | .change _ | .get _ | .unload _ | .unloadRoot => []

/-- A commit of a root with a form gives the store these entries, all at once. -/
theorem BackedTrie.commit_puts (α : Type) (trie : BackedTrie) (store : σ)
    (hformed : trie.root.isFormed = true) :
    trie.commit store =
      match NodeStore.putAll store (trie.writes (.commit : Request α)) with
      | (.error error, store) => (.error (.error error), trie.outgoing.2, store)
      | (.ok (), store) => (.ok trie.rootHash,
          ⟨(trie.primed.refer trie.rootHash).2, (trie.primed.refer trie.rootHash).1⟩, store) := by
  have hwrites : trie.writes (.commit : Request α) = trie.outgoing.1.map Outgoing.entry :=
    if_pos hformed
  rw [hwrites]
  exact commit_eq store hformed

/-- A store and tries over it, with their ledgers, and the versions that commits gave: each root
hash with the ledger at the time. -/
structure Commons (σ α : Type) where
  store : σ
  tries : Nat → BackedTrie
  ledgers : Nat → Ledger α
  versions : List (Hash × Ledger α)

/-- A trie without entries that no store was read for, with a cache as the settings have it. -/
def BackedTrie.fresh (owner : Nat) (settings : Settings) : BackedTrie :=
  .empty (.new owner settings.cacheCapacity settings.positive)

namespace Commons

/-- What may be done. To resume a version is to open a trie on its root hash, with a new owner and
an empty cache. -/
inductive Act (α : Type) where
  | ask (name : Nat) (request : Request α)
  | resume (name version owner : Nat) (settings : Settings)

/-- Tries without entries over a store, with caches as the settings have them. -/
def start (store : σ) (settings : Nat → Settings) : Commons σ α where
  store
  tries name := .fresh name (settings name)
  ledgers _ := ∅
  versions := []

/-- The root hash that a request is answered with, if it is a commit that succeeds. -/
def committed? : Except Failure (Reply α) → Option Hash
  | .ok (.hash hash) => some hash
  | .ok .done | .ok (.value _) | .error _ => none

/-- What the trie of a name makes of a request, and the commons afterwards. -/
def ask (commons : Commons σ α) (name : Nat) (request : Request α) :
    Except Failure (Reply α) × Commons σ α :=
  let (outcome, trie, store) := (commons.tries name).attempt commons.store request
  let ledger := Session.record (commons.ledgers name) request outcome
  (outcome,
    { store
      tries := Function.update commons.tries name trie
      ledgers := Function.update commons.ledgers name ledger
      versions := commons.versions ++ ((committed? outcome).map (·, ledger)).toList })

/-- A trie of the name is opened on the root hash of the version of a number, if there is one. -/
def resume (commons : Commons σ α) (name version owner : Nat) (settings : Settings) :
    Commons σ α :=
  match commons.versions[version]? with
  | none => commons
  | some (hash, ledger) =>
      { commons with
        tries := Function.update commons.tries name
          (.openAt (.new owner settings.cacheCapacity settings.positive) hash)
        ledgers := Function.update commons.ledgers name ledger }

/-- The commons after an act. -/
def step (commons : Commons σ α) : Act α → Commons σ α
  | .ask name request => (commons.ask name request).2
  | .resume name version owner settings => commons.resume name version owner settings

/-- The commons after some acts. -/
def after (commons : Commons σ α) (acts : List (Act α)) : Commons σ α :=
  acts.foldl step commons

/-- The byte string is given to the store to write at some point. -/
def Written (commons : Commons σ α) (acts : List (Act α)) (bytes : Bytes) : Prop :=
  ∃ before name, ∃ request : Request α, before ++ [.ask name request] <+: acts ∧
    ∃ entry ∈ ((commons.after before).tries name).writes request, entry.2 = bytes

/-- The byte strings that an act gives the store to write. -/
def forms (commons : Commons σ α) : Act α → List Bytes
  | .ask name request => ((commons.tries name).writes request).map Prod.snd
  | .resume .. => []

/-- The byte strings that are given to the store to write, act by act. -/
def transcript (commons : Commons σ α) : List (Act α) → List Bytes
  | [] => []
  | act :: acts => commons.forms act ++ (commons.step act).transcript acts

variable {commons : Commons σ α} {acts before : List (Act α)}

/-- What is written in the course of some acts is written by the first one or by the others. -/
theorem written_cons {act : Act α} {bytes : Bytes} : commons.Written (act :: acts) bytes ↔
    bytes ∈ commons.forms act ∨ (commons.step act).Written acts bytes := by
  constructor
  · rintro ⟨before, name, request, hbefore, entry, hentry, rfl⟩
    cases before with
    | nil =>
        obtain ⟨rfl, -⟩ := List.cons_prefix_cons.mp hbefore
        exact Or.inl (List.mem_map_of_mem hentry)
    | cons first before =>
        obtain ⟨rfl, hrest⟩ := List.cons_prefix_cons.mp hbefore
        exact Or.inr ⟨before, name, request, hrest, entry, hentry, rfl⟩
  · rintro (hmem | ⟨before, name, request, hbefore, hentry⟩)
    · cases act with
      | resume => cases hmem
      | ask name request =>
          obtain ⟨entry, hentry, rfl⟩ := List.mem_map.mp hmem
          exact ⟨[], name, request, List.cons_prefix_cons.mpr ⟨rfl, List.nil_prefix⟩, entry,
            hentry, rfl⟩
    · exact ⟨act :: before, name, request, List.cons_prefix_cons.mpr ⟨rfl, hbefore⟩, hentry⟩

/-- What is written can be listed. -/
theorem written_iff {bytes : Bytes} :
    commons.Written acts bytes ↔ bytes ∈ commons.transcript acts := by
  induction acts generalizing commons with
  | nil =>
      refine ⟨?_, fun hmem ↦ by cases hmem⟩
      rintro ⟨before, name, request, hbefore, -⟩
      exact absurd (List.prefix_nil.mp hbefore) (List.append_ne_nil_of_right_ne_nil before
        (List.cons_ne_nil _ _))
  | cons act acts ih => rw [written_cons, ih, transcript, List.mem_append]

/-- What is written is told apart by its hashes, and from the form of the empty tree, if none of
these hashes is listed twice. -/
theorem apart_of_nodup (h : (([0x80] :: commons.transcript acts).dedup.map keccak256).Nodup) :
    Apart fun bytes ↦ commons.Written acts bytes ∨ bytes = [0x80] := by
  refine (Apart.of_nodup h).mono ?_
  rintro bytes (hwritten | rfl)
  · exact List.mem_cons_of_mem _ (written_iff.mp hwritten)
  · exact List.mem_cons_self

/-- Without acts nothing changes. -/
theorem after_nil (commons : Commons σ α) : commons.after [] = commons :=
  rfl

/-- Acts follow one another. -/
theorem after_append (commons : Commons σ α) (before acts : List (Act α)) :
    commons.after (before ++ acts) = (commons.after before).after acts :=
  List.foldl_append

/-- A root hash that a request is answered with becomes a version, with the ledger as it is then. -/
theorem versions_ask (commons : Commons σ α) (name : Nat) (request : Request α) :
    (commons.ask name request).2.versions = commons.versions ++
      ((committed? (commons.ask name request).1).map (·, Session.record (commons.ledgers name)
        request (commons.ask name request).1)).toList :=
  rfl

/-- What holds of the commons, and after each act of those after which it holds, holds after all
acts. -/
theorem after_induction {motive : Commons σ α → Prop} (hstart : motive commons)
    (hstep : ∀ before act, before ++ [act] <+: acts → motive (commons.after before) →
      motive ((commons.after before).step act))
    (hbefore : before <+: acts) : motive (commons.after before) := by
  induction before using List.reverseRecOn with
  | nil => exact hstart
  | append_singleton before act ih =>
      rw [after_append]
      exact hstep before act hbefore (ih ((List.prefix_append before [act]).trans hbefore))

end Commons

end Patricia
