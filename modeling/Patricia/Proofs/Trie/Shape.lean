import Patricia.Proofs.Guarded.Symbols
import Patricia.Proofs.Trie.Coherent

/-!
# The shape of what is kept

`Node.Shaped` has the rules for a trie from a node downwards, with references followed: what the
paths of leaves and extensions are, that an extension leads to a branch, that a branch has two
entries, that no value is empty, and that only what takes 32 bytes or more is referred to. Whatever
tries over a store in memory do, the rules hold from their roots, from the nodes in their caches and
from what the entries of the store are read as (`Commons.after_shaped`). This is because all of
these show trees in normal form, and whoever follows a reference finds a node that shows the same
tree (`Follows`).
-/

namespace Patricia

namespace Symbols

/-- A leaf's path is written so: nibbles, and then the terminator. -/
def Ending (symbols : Symbols) : Prop :=
  ∃ nibbles : Symbols, symbols = nibbles ++ [terminator] ∧ ∀ symbol ∈ nibbles, symbol < terminator

/-- An extension's path is written so: nibbles, at least one, and no terminator. -/
def Leading (symbols : Symbols) : Prop :=
  symbols ≠ [] ∧ ∀ symbol ∈ symbols, symbol < terminator

/-- Nibbles are written as symbols below the terminator. -/
theorem lt_terminator_of_mem {nibbles : List Nibble} {symbol : UInt8}
    (h : symbol ∈ nibbles.map nibbleSymbol) : symbol < terminator := by
  have hall : ∀ nibble : Nibble, nibbleSymbol nibble < terminator := by decide
  obtain ⟨nibble, -, rfl⟩ := List.mem_map.mp h
  exact hall nibble

/-- A path that ends a key is written as a leaf's. -/
theorem ending_of_path (nibbles : List Nibble) : (Path.mk nibbles true).symbols.Ending :=
  ⟨nibbles.map nibbleSymbol, Path.symbols_ending nibbles, fun _ ↦ lt_terminator_of_mem⟩

/-- A path that leads on for a nibble or more is written as an extension's. -/
theorem leading_of_path (first : Nibble) (rest : List Nibble) :
    (Path.mk (first :: rest) false).symbols.Leading := by
  rw [Path.symbols_onward]
  exact ⟨List.cons_ne_nil _ _, fun _ ↦ lt_terminator_of_mem⟩

end Symbols

namespace Node

/-- A node and all below it obey the rules for tries, where references are followed in some way. -/
inductive Shaped {ε : Type} (follow : Node → Except ε Resolved) : Node → Prop where
  | null : Shaped follow .null
  | leaf {stamp : Stamp} {path : List Nibble} {value : Bytes}
      (hpath : (leaf stamp path value).ownPath.symbols.Ending) (hvalue : value ≠ []) :
      Shaped follow (.leaf stamp path value)
  | extension {stamp : Stamp} {first : Nibble} {rest : List Nibble} {child : Node}
      {below : Resolved} (hpath : (extension stamp first rest child).ownPath.symbols.Leading)
      (hfollow : follow child = .ok below) (hbranch : below.val.isBranch = true)
      (hlong : child.isStored = true → 32 ≤ below.val.encoding.length)
      (hbelow : Shaped follow below.val) :
      Shaped follow (.extension stamp first rest child)
  | branch {stamp : Stamp} {occupied : BitVec 16} {slots : Nibble → Node} {value : Option Bytes}
      {below : Nibble → Resolved} (hsound : (Slots.mk occupied slots).Sound)
      (hoccupied : 1 ≤ (Slots.mk occupied slots).count)
      (hentries : 2 ≤ (Slots.mk occupied slots).count + value.toList.length)
      (hvalue : value ≠ some []) (hfollow : ∀ slot, follow (slots slot) = .ok (below slot))
      (hlong : ∀ slot, (slots slot).isStored = true → 32 ≤ (below slot).val.encoding.length)
      (hbelow : ∀ slot, Shaped follow (below slot).val) :
      Shaped follow (.branch stamp occupied slots value)

/-- What is behind a node in a store: what is read for a reference, and else the node. -/
def behind (contents : Contents) (node : Node) : Except TrieError Resolved :=
  if hstored : node.isStored = false then .ok ⟨node, hstored⟩
  else Loader.judge node.hash (.ok (contents node.hash))

end Node

/-- What is behind a node for a trie, whose loader follows references. -/
def BackedTrie.behind {σ : Type} [NodeStore σ] (trie : BackedTrie) (store : σ) (node : Node) :
    Except Failure Resolved :=
  (trie.perform store node.resolve).1

/-- Behind all nodes of some kind there is a node of the kind that shows the same tree. -/
def Follows {ε : Type} (contents : Contents) (kind : Node → Prop)
    (follow : Node → Except ε Resolved) : Prop :=
  ∀ ⦃node whole : Node⦄, node.Shows (Held contents) whole → node.All kind →
    ∃ below, follow node = .ok below ∧ below.val.Shows (Held contents) whole ∧ below.val.All kind

namespace Node

variable {ε : Type} {contents : Contents} {kind : Node → Prop}
  {follow : Node → Except ε Resolved} {node whole : Node}

/-- A node that is there is a branch if it shows one. -/
theorem Shows.isBranch_eq {held : Hash → Node → Prop} (h : node.Shows held whole)
    (hstored : node.isStored = false) : node.isBranch = whole.isBranch := by
  cases node with
  | null =>
      cases h
      rfl
  | leaf stamp path value =>
      obtain ⟨rfl, -⟩ := h
      rfl
  | extension stamp first rest child =>
      obtain ⟨-, below, rfl, -⟩ := h
      rfl
  | branch stamp occupied slots value =>
      obtain ⟨-, below, rfl, -⟩ := h
      rfl
  | stored stamp hash => cases hstored

/-- A node that is there and shows a leaf is one. -/
theorem Shows.exists_leaf {held : Hash → Node → Prop} {stamp : Stamp} {path : List Nibble}
    {value : Bytes} (h : node.Shows held (.leaf stamp path value))
    (hstored : node.isStored = false) : ∃ own, node = .leaf own path value := by
  cases node with
  | leaf own path' value' =>
      obtain ⟨heq, -⟩ := h
      cases heq
      exact ⟨own, rfl⟩
  | null => cases h
  | extension | branch =>
      obtain ⟨-, below, heq, -⟩ := h
      cases heq
  | stored => cases hstored

/-- A node that is there and shows an extension is one, to a node that shows what is below. -/
theorem Shows.exists_extension {held : Hash → Node → Prop} {stamp : Stamp} {first : Nibble}
    {rest : List Nibble} {below : Node} (h : node.Shows held (.extension stamp first rest below))
    (hstored : node.isStored = false) :
    ∃ own child, node = .extension own first rest child ∧ child.Shows held below ∧
      (child.isStored = true → 32 ≤ below.encoding.length) := by
  cases node with
  | extension own first' rest' child =>
      obtain ⟨-, below', heq, hbelow⟩ := h
      cases heq
      exact ⟨own, child, rfl, hbelow⟩
  | null => cases h
  | leaf => cases h.1
  | branch =>
      obtain ⟨-, below', heq, -⟩ := h
      cases heq
  | stored => cases hstored

/-- A node that is there and shows a branch is one, over nodes that show what is below. -/
theorem Shows.exists_branch {held : Hash → Node → Prop} {stamp : Stamp} {occupied : BitVec 16}
    {below : Nibble → Node} {value : Option Bytes}
    (h : node.Shows held (.branch stamp occupied below value)) (hstored : node.isStored = false) :
    ∃ own slots, node = .branch own occupied slots value ∧ ∀ slot,
      (slots slot).Shows held (below slot) ∧
        ((slots slot).isStored = true → 32 ≤ (below slot).encoding.length) := by
  cases node with
  | branch own occupied' slots value' =>
      obtain ⟨-, below', heq, hbelow⟩ := h
      cases heq
      exact ⟨own, slots, rfl, hbelow⟩
  | null => cases h
  | leaf => cases h.1
  | extension =>
      obtain ⟨-, below', heq, -⟩ := h
      cases heq
  | stored => cases hstored

/-- The rules hold from a node that shows a tree in normal form. -/
theorem Shows.shaped (hfollow : Follows contents kind follow)
    (h : node.Shows (Held contents) whole) (hnormal : whole.Normal)
    (hstored : node.isStored = false) (hkind : node.All kind) : node.Shaped follow := by
  induction whole generalizing node with
  | null =>
      have hnull := h.isNull_eq
      cases node with
      | null => exact .null
      | leaf | extension | branch | stored => cases hnull
  | leaf stamp path value =>
      obtain ⟨own, rfl⟩ := h.exists_leaf hstored
      exact .leaf (Symbols.ending_of_path path) hnormal
  | extension stamp first rest below ih =>
      obtain ⟨own, child, rfl, hshows, hlong⟩ := h.exists_extension hstored
      obtain ⟨hfoot, hbelow⟩ := hnormal
      obtain ⟨found, hfound, hsame, hsort⟩ := hfollow hshows hkind.2
      have hencoding := hsame.encoding_eq hbelow found.property
      have hbranch := hsame.isBranch_eq found.property
      exact .extension (Symbols.leading_of_path first rest) hfound (hbranch.trans hfoot)
        (fun hchild ↦ hencoding ▸ hlong hchild) (ih hsame hbelow found.property hsort)
  | branch stamp occupied below value ih =>
      obtain ⟨own, slots, rfl, hslots⟩ := h.exists_branch hstored
      obtain ⟨hsound, hforked, hvalue, -⟩ := Holds.tucked_slots ⟨_, h, hnormal, rfl⟩
      have hentries := (hsound.forked_iff value).mp hforked
      obtain ⟨slot, hslot, -⟩ := hforked
      have hoccupied := List.length_pos_of_mem ((hsound.mem_marked slot).mpr hslot)
      choose found hfound hsame hsort using fun slot ↦ hfollow (hslots slot).1 (hkind.2 slot)
      have hbelow := hnormal.2.2.2
      refine .branch hsound hoccupied hentries hvalue hfound (fun slot hchild ↦ ?_) fun slot ↦
        ih slot (hsame slot) (hbelow slot) (found slot).property (hsort slot)
      rw [(hsame slot).encoding_eq (hbelow slot) (found slot).property]
      exact (hslots slot).2 hchild
  | stored => exact hnormal.elim

/-- Whoever reads the store finds nodes that show the same trees. -/
theorem behind_follows : Follows contents (fun _ ↦ True) (behind contents) := by
  intro node whole hshows hkind
  rw [behind]
  split
  · exact ⟨_, rfl, hshows, hkind⟩
  · rename_i hstored
    cases node with
    | null | leaf | extension | branch => exact absurd rfl hstored
    | stored stamp hash =>
        obtain ⟨read, hread, hbelow⟩ := hshows.1.judge_shows
        exact ⟨read, hread, hbelow, Node.all_of_forall (fun _ ↦ trivial) _⟩

end Node

variable {α : Type} [TrieValue α]

/-- The node was given out by an owner, if it is not empty. -/
def Node.Owned (owner : Nat) (node : Node) : Prop :=
  node.isNull = false → node.stamp.owner = owner

/-- What was given out before some number was given out. -/
theorem Node.Issued.owned {owner bound : Nat} {node : Node} (h : node.Issued owner bound) :
    node.All (Node.Owned owner) :=
  h.imp fun _ hnode hnull ↦ (hnode hnull).1

/-- A trie that follows references of its loader finds nodes that show the same trees. -/
theorem BackedTrie.Keeps.behind_follows {trie : BackedTrie} {store : MemoryStore}
    {ledger : Ledger α} (h : trie.Keeps store.get? ledger) :
    Follows store.get? (Node.Owned trie.loader.owner) (trie.behind store) := by
  intro node whole hshows howned
  have hmeets : node.resolve.Meets (.holding store.get? trie.loader.owner)
      (fun _ below ↦ below.val.Shows (Held store.get?) whole ∧
        below.val.All (Node.Owned trie.loader.owner)) trie.loader.mint.next := by
    cases node with
    | null | leaf | extension | branch => exact ⟨hshows, howned⟩
    | stored stamp hash =>
        refine .load (howned rfl) ⟨whole, hshows.1⟩ fun read later _ hissued hserved ↦ ?_
        exact ⟨Service.holding_faithful.shows hserved hshows.1 hshows.2.1, hissued.owned⟩
  obtain ⟨below, later, hrun, -, -, -, hbelow⟩ := Walk.run_holding h.serves hmeets
  refine ⟨below, ?_, hbelow⟩
  rw [BackedTrie.behind, BackedTrie.perform, hrun]

namespace Commons

variable {acts before : List (Act α)}

/-- Tries that begin without entries share a store in memory, with caches of any capacities, and do
whatever they do. Then the rules for tries hold, with references followed, from the root of each
trie, from each node in a cache, and from what each entry of the store is read as, whether on its
own or by the loader of a trie. It is assumed that no two byte strings that are written, nor one of
them and the form of the empty tree, have the same hash, and that the lengths of all fit in 64
bits. -/
theorem after_shaped (settings : Nat → Settings)
    (hapart : Apart fun bytes ↦
      (start MemoryStore.empty settings).Written acts bytes ∨ bytes = [0x80])
    (hfits : ∀ bytes, (start MemoryStore.empty settings).Written acts bytes →
      bytes.length < 2 ^ 64)
    (hbefore : before <+: acts) :
    let commons : Commons MemoryStore α := (start .empty settings).after before
    let store := commons.store
    (∀ name, let trie := commons.tries name
      (∃ root, trie.behind store trie.root = .ok root ∧ root.val.Shaped (trie.behind store)) ∧
      ∀ entry ∈ trie.loader.cache.entries, entry.2.val.Shaped (trie.behind store)) ∧
    ∀ hash bytes, store.get? hash = some bytes →
      ∃ read, Node.decode bytes = .ok read ∧ read.val.Shaped (Node.behind store.get?) ∧
        ∀ name serial, let trie := commons.tries name
          (read.val.issue trie.loader.owner serial).Shaped (trie.behind store) := by
  intro commons store
  obtain ⟨hsound, hmirrored⟩ := after_mirrored settings hapart hfits hbefore
  constructor
  · intro name trie
    have hkeeps := hsound.keeps name
    have hfollow := hkeeps.behind_follows
    obtain ⟨hroot, hnormal, -⟩ := hkeeps.root_shows
    constructor
    · obtain ⟨root, hbehind, hshows, howned⟩ := hfollow hroot hkeeps.issued.owned
      exact ⟨root, hbehind, hshows.shaped hfollow hnormal root.property howned⟩
    · intro entry hentry
      obtain ⟨hstored, whole, hheld, hshows⟩ := hkeeps.serves.served entry hentry
      have howned := (hkeeps.serves.issued entry hentry).owned
      exact hshows.shaped hfollow hheld.isWhole.normal hstored howned
  · intro hash bytes hbytes
    obtain ⟨whole, hheld⟩ := hmirrored.stocked hash bytes hbytes
    have hnormal := hheld.isWhole.normal
    obtain ⟨read, hjudge, hdecode, -⟩ := hheld.judge_plain
    obtain ⟨other, hother, hshows⟩ := hheld.judge_shows
    cases hjudge.symm.trans hother
    obtain rfl : whole.encoding = bytes := Option.some.inj (hheld.present.symm.trans hbytes)
    refine ⟨read, hdecode, ?_, ?_⟩
    · exact hshows.shaped Node.behind_follows hnormal read.property
        (Node.all_of_forall (fun _ ↦ trivial) _)
    · intro name serial trie
      have hissued := Node.issued_issue trie.loader.owner serial read.val
      exact (hshows.issue _ serial).shaped (hsound.keeps name).behind_follows hnormal
        (read.issue trie.loader.owner serial).property hissued.owned

/-- The rules hold from the root that was committed first, and from the five nodes that the trie
which lost an entry has cached. -/
theorem merging_shaped :
    (∃ root, ((fresh.after merging).tries 0).behind (fresh.after merging).store
        ((fresh.after merging).tries 0).root = .ok root ∧
      root.val.Shaped (((fresh.after merging).tries 0).behind (fresh.after merging).store)) ∧
    ((fresh.after merging).tries 1).loader.cache.entries.length = 5 ∧
      ∀ entry ∈ ((fresh.after merging).tries 1).loader.cache.entries,
        entry.2.val.Shaped
          (((fresh.after merging).tries 1).behind (fresh.after merging).store) := by
  obtain ⟨hnodup, hfits, hcached⟩ := merging_listed
  have hshaped := after_shaped (fun _ ↦ .standard) (apart_of_nodup hnodup)
    (fun bytes hwritten ↦ hfits bytes (written_iff.mp hwritten)) List.prefix_rfl
  exact ⟨(hshaped.1 0).1, hcached, (hshaped.1 1).2⟩

end Commons

end Patricia
