import Patricia.Proofs.Format.Decoded
import Patricia.Proofs.Loader.Serving
import Patricia.Proofs.Update.Standing
import Patricia.Trie.Access

/-!
# What a read comes to over fixed contents

`Walk.outcome` is what an activity comes to when every node is read anew from the same contents. A
loader over these contents may have nodes in its cache and gives out instances of its own, but a
read of a key through it comes to the same (`Node.run_read`). Over contents that have more, a lookup
comes to the same unless it failed for want of a node that is there now (`Node.find?_kept`).
-/

namespace Patricia

variable {α β : Type}

namespace Walk

/-- What an activity comes to when every node it asks for is read from the same contents. -/
def outcome (contents : Contents) : Walk α → Except Failure α
  | .done result => .ok result
  | .fail failure => .error failure
  | .fresh next => outcome contents (next .blank)
  | .load _ hash next =>
      match Loader.judge hash (.ok (contents hash)) with
      | .ok node => outcome contents (next node)
      | .error error => .error (.error error)

variable {contents more : Contents} {hash : Hash} {next : Resolved → Walk α}

/-- An activity that was given a node goes on from it. -/
theorem outcome_load_ok {home : Nat} {read : Resolved}
    (h : Loader.judge hash (.ok (contents hash)) = .ok read) :
    outcome contents (.load home hash next) = outcome contents (next read) := by
  rw [outcome, h]

/-- An activity that cannot be given a node fails. -/
theorem outcome_load_error {home : Nat} {error : TrieError}
    (h : Loader.judge hash (.ok (contents hash)) = .error error) :
    outcome contents (.load home hash next) = .error (.error error) := by
  rw [outcome, h]

/-- A sequence runs its second part after the first. -/
theorem run_bind {σ : Type} [NodeStore σ] (loader : Loader) (store : σ) (walk : Walk α)
    (last : α → Walk β) :
    (walk >>= last).run loader store =
      match walk.run loader store with
      | (.ok result, loader, store) => (last result).run loader store
      | (.error failure, loader, store) => (.error failure, loader, store) := by
  induction walk generalizing loader store with
  | done | fail => rfl
  | fresh next ih => exact ih _ _ _
  | load home hash next ih =>
      show run loader store (.load home hash fun node ↦ next node >>= last) = _
      rw [run, run]
      split
      · generalize loader.load store hash = loaded
        obtain ⟨outcome, later, store'⟩ := loaded
        cases outcome with
        | ok node => exact ih node later store'
        | error error => rfl
      · rfl

/-- Without a store, too, a sequence runs its second part after the first. -/
theorem runAlone_bind (mint : Mint) (walk : Walk α) (last : α → Walk β) :
    (walk >>= last).runAlone mint =
      match walk.runAlone mint with
      | (.ok result, mint) => (last result).runAlone mint
      | (.error failure, mint) => (.error failure, mint) := by
  induction walk generalizing mint with
  | done | fail | load => rfl
  | fresh next ih => exact ih _ _

end Walk

/-- A result is what it was before, or else it was the failure of finding a node that was not there
and is there now. -/
def Kept (contents more : Contents) (before after : Except Failure α) : Prop :=
  before = after ∨ ∃ hash, before = .error (.error (.notFound hash)) ∧ contents hash = none ∧
    more hash ≠ none

/-- What is kept is kept by whatever follows. -/
theorem Kept.bind {contents more : Contents} {before after : Except Failure α}
    (h : Kept contents more before after) (next : α → Except Failure β) :
    Kept contents more (before >>= next) (after >>= next) := by
  rcases h with rfl | ⟨hash, rfl, hmissing⟩
  · exact Or.inl rfl
  · exact Or.inr ⟨hash, rfl, hmissing⟩

namespace Node

variable {contents more : Contents} {owner bound : Nat} {left right node : Node}

/-- Stamps do not matter for the rules. -/
theorem proper_of_plain {full : Bytes → Prop} (h : left.plain = right.plain)
    (hright : right.All (Proper full)) : left.All (Proper full) := by
  induction left generalizing right with
  | null | stored => trivial
  | leaf stamp path value =>
      cases right with
      | leaf stamp' path' value' =>
          simp only [plain_leaf, leaf.injEq, true_and] at h
          obtain ⟨rfl, rfl⟩ := h
          exact hright
      | null | extension | branch | stored => simp at h
  | extension stamp first rest child ih =>
      cases right with
      | extension stamp' first' rest' child' =>
          simp only [plain_extension, extension.injEq] at h
          refine ⟨?_, ih h.2.2.2 hright.2⟩
          rw [Proper, ← isNull_plain, h.2.2.2, isNull_plain]
          exact hright.1
      | null | leaf | branch | stored => simp at h
  | branch stamp occupied slots value ih =>
      cases right with
      | branch stamp' occupied' slots' value' =>
          simp only [plain_branch, branch.injEq] at h
          obtain ⟨-, rfl, hslots, rfl⟩ := h
          have hnull : ∀ slot, (slots slot).isNull = (slots' slot).isNull := fun slot ↦ by
            rw [← isNull_plain, congrFun hslots slot, isNull_plain]
          refine ⟨?_, fun slot ↦ ih slot (congrFun hslots slot) (hright.2 slot)⟩
          simpa only [Proper, Slots.Sound, Slots.Forked, hnull] using hright.1
      | null | leaf | extension | stored => simp at h

/-- A lookup comes to the same for other instances of a tree. -/
theorem outcome_find?_of_plain (h : left.plain = right.plain) (key : List Nibble) :
    (left.find? key).outcome contents = (right.find? key).outcome contents := by
  induction left generalizing right key with
  | null =>
      cases right with
      | null => rfl
      | leaf | extension | branch | stored => simp at h
  | leaf stamp path value =>
      cases right with
      | leaf stamp' path' value' =>
          simp only [plain_leaf, leaf.injEq, true_and] at h
          obtain ⟨rfl, rfl⟩ := h
          rw [find?_leaf, find?_leaf]
      | null | extension | branch | stored => simp at h
  | extension stamp first rest child ih =>
      cases right with
      | extension stamp' first' rest' child' =>
          simp only [plain_extension, extension.injEq, true_and] at h
          obtain ⟨rfl, rfl, hchild⟩ := h
          rw [find?_extension, find?_extension]
          cases stripLead? (first :: rest) key with
          | none => rfl
          | some key => exact ih hchild key
      | null | leaf | branch | stored => simp at h
  | branch stamp occupied slots value ih =>
      cases right with
      | branch stamp' occupied' slots' value' =>
          simp only [plain_branch, branch.injEq, true_and] at h
          obtain ⟨rfl, hslots, rfl⟩ := h
          cases key with
          | nil => rw [find?_branch_nil, find?_branch_nil]
          | cons nibble key =>
              rw [find?_branch_cons, find?_branch_cons]
              exact ih nibble (congrFun hslots nibble) key
      | null | leaf | extension | stored => simp at h
  | stored stamp hash =>
      cases right with
      | stored stamp' hash' =>
          simp only [plain_stored, stored.injEq, true_and] at h
          subst h
          rw [find?_stored, find?_stored, Walk.outcome, Walk.outcome]
      | null | leaf | extension | branch => simp at h

end Node

/-! ## Reads through a loader -/

namespace Service

/-- The service of whatever can be read from some contents: instances of what the bytes are read
as, for whatever hash is asked. -/
def through (contents : Contents) (owner : Nat) : Service where
  owner := owner
  asked _ := True
  served hash node := node.isStored = false ∧
    ∃ read, Loader.judge hash (.ok (contents hash)) = .ok read ∧ node.plain = read.val.plain

variable {contents : Contents} {owner : Nat}

/-- The service of whatever can be read, for hashes whose failure would be a given result. -/
def toward {α : Type} (contents : Contents) (owner : Nat) (result : Except Failure α) : Service :=
  { through contents owner with
    asked := fun hash ↦ ∀ error, Loader.judge hash (.ok (contents hash)) = .error error →
      result = .error (.error error) }

/-- Whatever is read may be handed out. -/
theorem through_reads : (through contents owner).Reads contents := by
  intro hash node _ hjudge owner serial
  exact ⟨(node.issue owner serial).property, node, hjudge, Node.plain_issue _ _ _⟩

/-- Whatever is read may be handed out, whichever hashes are asked for. -/
theorem toward_reads {α : Type} {result : Except Failure α} :
    (toward contents owner result).Reads contents := by
  have hreads : (through contents owner).Reads contents := through_reads
  intro hash node _ hjudge
  exact hreads trivial hjudge

/-- What is judged to be a node was read from bytes. -/
theorem decode_of_judge {hash : Hash} {read : Resolved}
    (h : Loader.judge hash (.ok (contents hash)) = .ok read) :
    ∃ bytes, contents hash = some bytes ∧ keccak256 bytes = hash ∧
      Node.decode bytes = .ok read := by
  obtain ⟨bytes, hbytes, hhash, hread⟩ := Loader.judge_eq_ok h
  exact ⟨bytes, Except.ok.inj hbytes, hhash, hread⟩

/-- Whatever the contents are, what is read from them is steady. -/
theorem through_steady : (through contents owner).Steady (fun _ ↦ True) fun _ ↦ True where
  inherent := fun _ _ _ ↦ trivial
  proper := by
    intro hash node hserved
    obtain ⟨-, read, hjudge, hplain⟩ := hserved
    obtain ⟨bytes, -, -, hread⟩ := decode_of_judge hjudge
    exact Node.proper_of_plain hplain (Node.decode_wellFormed hread).1
  kept := by
    intro hash node hserved
    obtain ⟨-, read, hjudge, hplain⟩ := hserved
    obtain ⟨bytes, -, -, hread⟩ := decode_of_judge hjudge
    exact (Node.proper_of_plain hplain (Node.decode_wellFormed hread).1).imp fun _ _ ↦ trivial
  present := by
    intro hash node hserved
    obtain ⟨-, read, hjudge, hplain⟩ := hserved
    obtain ⟨bytes, -, -, hread⟩ := decode_of_judge hjudge
    rw [← Node.isNull_plain, hplain, Node.isNull_plain]
    exact (Node.decode_wellFormed hread).2

end Service

namespace Node

variable {contents : Contents} {owner bound : Nat} {node : Node} {key : List Nibble}
  {result : Except Failure (Option Bytes)}

/-- A lookup asks only for hashes whose failure would be its own, and finds what it comes to. -/
theorem find?_meets (hissued : node.Issued owner bound)
    (h : (node.find? key).outcome contents = result) :
    (node.find? key).Meets (.toward contents owner result) (fun _ found ↦ result = .ok found)
      bound := by
  induction node, key using Node.find?.induct generalizing bound with
  | case1 key =>
      rw [find?_null] at h ⊢
      exact h.symm
  | case2 stamp path value key =>
      rw [find?_leaf] at h ⊢
      exact h.symm
  | case3 stamp first lead child key hstrip =>
      rw [find?_extension, hstrip] at h ⊢
      exact h.symm
  | case4 stamp first lead child key rest hstrip hlt ih =>
      rw [find?_extension, hstrip] at h ⊢
      exact ih hissued.2 h
  | case5 stamp occupied slots value =>
      rw [find?_branch_nil] at h ⊢
      exact h.symm
  | case6 stamp occupied slots value nibble rest ih =>
      rw [find?_branch_cons] at h ⊢
      exact ih (hissued.2 nibble) h
  | case7 stamp hash key ih =>
      rw [find?_stored] at h ⊢
      refine .load (hissued rfl).1 ?_ fun given later _ hlater hserved ↦ ?_
      -- If the hash cannot be read, the lookup comes to that very failure.
      · intro error herror
        rw [← h, Walk.outcome_load_error herror]
      · obtain ⟨-, read, hjudge, hplain⟩ := hserved
        rw [Walk.outcome_load_ok hjudge, ← outcome_find?_of_plain hplain] at h
        exact ih given hlater h

end Node

/-- A lookup through a loader comes to what it does over the contents. -/
theorem Walk.run_find? {σ : Type} [NodeStore σ] {contents : Contents} {states : σ → Prop}
    {loader : Loader} {store : σ} {node : Node} (hsteady : Steady contents states)
    (hserves : loader.Serves (.through contents loader.owner)) (hstore : states store)
    (hissued : node.Issued loader.owner loader.mint.next) (key : List Nibble) :
    ∃ later store', (node.find? key).run loader store =
        ((node.find? key).outcome contents, later, store') ∧ states store' ∧
      later.Serves (.through contents loader.owner) ∧ loader.mint.next ≤ later.mint.next := by
  generalize hresult : (node.find? key).outcome contents = result
  have htoward : loader.Serves (.toward contents loader.owner result) :=
    ⟨hserves.owner_eq, hserves.issued, hserves.served⟩
  have hends := Walk.run_meets hsteady Service.toward_reads htoward hstore
    (Node.find?_meets hissued hresult)
  generalize (node.find? key).run loader store = ended at hends ⊢
  obtain ⟨found, later, store'⟩ := ended
  obtain ⟨hstates, hlater, hle, hfound⟩ := hends
  refine ⟨later, store', ?_, hstates, ⟨hlater.owner_eq, hlater.issued, hlater.served⟩, hle⟩
  cases found with
  | ok value => rw [hfound]
  | error failure =>
      obtain ⟨hash, error, hasked, hjudge, rfl⟩ := hfound
      rw [hasked error hjudge]

namespace Node

variable {contents more : Contents} {node : Node} [TrieValue α]

/-- What a read makes of the bytes that were found. -/
def interpret (found : Option Bytes) : Except Failure (Option α) :=
  match found with
  | none => .ok none
  | some bytes =>
      match TrieValue.decode bytes with
      | .ok value => .ok (some value)
      | .error error => .error (.error error)

/-- A read through a loader comes to what it does over the contents. -/
theorem run_read {σ : Type} [NodeStore σ] {states : σ → Prop} {loader : Loader} {store : σ}
    (hsteady : Steady contents states)
    (hserves : loader.Serves (.through contents loader.owner)) (hstore : states store)
    (hissued : node.Issued loader.owner loader.mint.next) (key : Bytes) :
    ((node.read key : Walk (Option α)).run loader store).1 =
      ((node.find? key.nibbles).outcome contents >>= interpret) := by
  obtain ⟨later, store', hrun, -⟩ := Walk.run_find? hsteady hserves hstore hissued key.nibbles
  rw [read, Walk.run_bind, hrun]
  cases (node.find? key.nibbles).outcome contents with
  | error failure => rfl
  | ok found =>
      cases found with
      | none => rfl
      | some bytes =>
          show _ = interpret (some bytes)
          simp only [interpret]
          cases (TrieValue.decode bytes : Except TrieError α) with
          | ok value => rfl
          | error error => rfl

/-- Over contents that have more, a lookup comes to the same unless it failed for want of a node
that is there now. -/
theorem find?_kept (hmore : ∀ hash bytes, contents hash = some bytes → more hash = some bytes)
    (node : Node) (key : List Nibble) :
    Kept contents more ((node.find? key).outcome contents) ((node.find? key).outcome more) := by
  induction node, key using Node.find?.induct with
  | case1 key =>
      rw [find?_null]
      exact Or.inl rfl
  | case2 stamp path value key =>
      rw [find?_leaf]
      exact Or.inl rfl
  | case3 stamp first lead child key hstrip =>
      rw [find?_extension, hstrip]
      exact Or.inl rfl
  | case4 stamp first lead child key rest hstrip hlt ih =>
      rw [find?_extension, hstrip]
      exact ih
  | case5 stamp occupied slots value =>
      rw [find?_branch_nil]
      exact Or.inl rfl
  | case6 stamp occupied slots value nibble rest ih =>
      rw [find?_branch_cons]
      exact ih
  | case7 stamp hash key ih =>
      rw [find?_stored]
      cases hbytes : contents hash with
      | none =>
          have hmissing : Loader.judge hash (.ok (contents hash)) = .error (.notFound hash) := by
            rw [hbytes]
            rfl
          -- The node is missing. Either it still is, or it is there now.
          by_cases hnone : more hash = none
          · rw [Walk.outcome, Walk.outcome, hbytes, hnone]
            exact Or.inl rfl
          · rw [Walk.outcome_load_error hmissing]
            exact Or.inr ⟨hash, rfl, hbytes, hnone⟩
      | some bytes =>
          rw [Walk.outcome, Walk.outcome, hmore hash bytes hbytes, hbytes]
          cases Loader.judge hash (.ok (some bytes)) with
          | ok read => exact ih read
          | error error => exact Or.inl rfl

end Node

end Patricia
