import Patricia.Proofs.Store.Memory
import Patricia.Proofs.Trie.Gather
import Patricia.Proofs.Trie.Opened

/-!
# Stores without dangling references

A store is closed under references when each entry is read as a node and there is an entry under the
hash of every reference in it, also in what is written in place below it (`Closed`). Then everything
below a hash that has an entry has one, too (`Closed.below`). A store stays closed when the nodes of
a tree are written, children before parents, even if only some of the first are
(`Orderly.insertAll`). Nothing is supposed of hashes here: an entry that takes the place of another
one has no dangling references either.
-/

namespace Patricia

namespace Node

/-- The hashes of all references in a tree. -/
def references : Node → List Hash
  | .null | .leaf .. => []
  | .extension _ _ _ child => child.references
  | .branch _ _ slots _ => (List.finRange 16).flatMap fun slot ↦ (slots slot).references
  | .stored _ hash => [hash]

/-- There is an entry for the node, if it is a reference. -/
def Linked (contents : Contents) (node : Node) : Prop :=
  ∀ stamp hash, node = .stored stamp hash → (contents hash).isSome = true

variable {contents more : Contents} {node left right : Node}

/-- A node that is no reference is linked. -/
theorem linked_of_unstored (h : node.isStored = false) : node.Linked contents := by
  rintro stamp hash rfl
  cases h

/-- All nodes of a tree are linked exactly if there are entries for its references. -/
theorem all_linked_iff : node.All (Linked contents) ↔
    ∀ reference ∈ node.references, (contents reference).isSome = true := by
  induction node with
  | null | leaf => exact ⟨fun _ ↦ List.forall_mem_nil _, fun _ ↦ linked_of_unstored rfl⟩
  | stored stamp hash =>
      refine ⟨fun h ↦ List.forall_mem_singleton.mpr (h stamp hash rfl), ?_⟩
      rintro h _ _ ⟨⟩
      exact h hash (List.mem_singleton_self hash)
  | extension stamp first rest child ih =>
      exact ⟨fun h ↦ ih.mp h.2, fun h ↦ ⟨linked_of_unstored rfl, ih.mpr h⟩⟩
  | branch stamp occupied slots value ih =>
      refine ⟨fun h reference hmem ↦ ?_,
        fun h ↦ ⟨linked_of_unstored rfl, fun slot ↦ (ih slot).mpr ?_⟩⟩
      · obtain ⟨slot, -, hmem⟩ := List.mem_flatMap.mp hmem
        exact (ih slot).mp (h.2 slot) reference hmem
      · exact fun reference hmem ↦
          h reference (List.mem_flatMap.mpr ⟨slot, List.mem_finRange slot, hmem⟩)

/-- Other instances of a tree have the same references. -/
theorem references_restamp (change : List Nat → Stamp → Stamp) (node : Node)
    (position : List Nat) : (node.restamp change position).references = node.references := by
  induction node generalizing position with
  | null | leaf | stored => rfl
  | extension stamp first rest child ih => exact ih _
  | branch stamp occupied slots value ih =>
      rw [restamp_branch]
      exact List.flatMap_congr fun slot _ ↦ ih slot _

/-- Stamps do not matter for the references. -/
theorem All.linked_of_plain (h : left.plain = right.plain) (hright : right.All (Linked contents)) :
    left.All (Linked contents) := by
  rw [all_linked_iff] at hright ⊢
  rwa [← references_restamp (fun _ _ ↦ .blank) left [], ← plain, h, plain, references_restamp]

/-- A tree stays linked when the store has more. -/
theorem All.linked_mono (h : node.All (Linked contents))
    (hmore : ∀ hash, (contents hash).isSome = true → (more hash).isSome = true) :
    node.All (Linked more) :=
  h.imp fun _ hnode stamp hash heq ↦ hmore hash (hnode stamp hash heq)

/-- A new node is written anew and is no reference. -/
theorem inherent_linked : Inherent fun node ↦ node.Sincere ∧ node.Linked contents :=
  fun _ hsource hstored ↦ ⟨encoding_eq_form hsource, linked_of_unstored hstored⟩

/-! ## Trees in short -/

/-- The long nodes below a node in memory. -/
def childParts : Node → List Node
  | .extension _ _ _ child => child.longParts
  | .branch _ _ slots _ => (List.finRange 16).flatMap fun slot ↦ (slots slot).longParts
  | .null | .leaf .. | .stored .. => []

/-- The long nodes of a tree are those below its root, and then the root itself. -/
theorem longParts_eq (h : node.isFormed = true) :
    node.longParts = node.childParts ++ node.whenLong := by
  cases node with
  | leaf | extension | branch => rfl
  | null | stored => cases h

/-- The tree in short is linked, if the tree is and the long nodes below it have entries. -/
theorem All.linked_abridged (h : node.All (Linked contents))
    (hbelow : ∀ part ∈ node.childParts, (contents part.hash).isSome = true) :
    node.abridged.All (Linked contents) := by
  have hcited : ∀ {node : Node}, node.All (Linked contents) →
      (∀ part ∈ node.longParts, (contents part.hash).isSome = true) →
      ((∀ part ∈ node.childParts, (contents part.hash).isSome = true) →
        node.abridged.All (Linked contents)) → node.cited.All (Linked contents) := by
    intro node h hparts habridged
    rw [cited]
    cases hformed : node.isFormed with
    | true =>
        rw [longParts_eq hformed] at hparts
        split
        · exact habridged fun part hmem ↦ hparts part (List.mem_append_left _ hmem)
        · rename_i hlong
          -- A long node with a form is one of the parts itself.
          rintro _ _ ⟨⟩
          exact hparts node (List.mem_append_right _
            (mem_whenLong.mpr ⟨rfl, Nat.not_lt.mp hlong⟩))
    | false =>
        cases node with
        | null => exact linked_of_unstored rfl
        | stored stamp hash =>
            split <;> rintro _ _ ⟨⟩ <;> exact h stamp hash rfl
        | leaf | extension | branch => cases hformed
  induction node with
  | null | leaf => exact linked_of_unstored rfl
  | stored stamp hash =>
      rintro _ _ ⟨⟩
      exact h stamp hash rfl
  | extension stamp first rest child ih =>
      exact ⟨linked_of_unstored rfl, hcited h.2 hbelow (ih h.2)⟩
  | branch stamp occupied slots value ih =>
      refine ⟨linked_of_unstored rfl,
        fun slot ↦ hcited (h.2 slot) (fun part hmem ↦ ?_) (ih slot (h.2 slot))⟩
      exact hbelow part (List.mem_flatMap.mpr ⟨slot, List.mem_finRange slot, hmem⟩)

/-- The tree in short obeys the rules, if the tree does. -/
theorem All.proper_abridged {full : Bytes → Prop} (h : node.All (Proper full)) :
    node.abridged.All (Proper full) := by
  have hcited : ∀ {node : Node}, node.abridged.All (Proper full) →
      node.cited.All (Proper full) := by
    intro node h
    rw [cited]
    split
    · exact h
    · trivial
  induction node with
  | null | leaf | stored => exact h
  | extension stamp first rest child ih =>
      exact ⟨(isNull_cited child).trans h.1, hcited (ih h.2)⟩
  | branch stamp occupied slots value ih =>
      refine ⟨?_, fun slot ↦ hcited (ih slot (h.2 slot))⟩
      have hnull := fun slot ↦ isNull_cited (slots slot)
      simp only [cited] at hnull
      simpa only [Proper, Slots.Sound, Slots.Forked, hnull] using h.1

/-- A tree whose values are allowed ones obeys the rules whatever its values are. -/
theorem All.wellFormed {full : Bytes → Prop} (h : node.All (Proper full)) : node.WellFormed := by
  refine h.imp fun node hnode ↦ ?_
  cases node with
  | leaf => trivial
  | branch => exact ⟨hnode.1, hnode.2.1, fun _ _ ↦ trivial⟩
  | null | extension | stored => exact hnode

/-- The tree in short is written anew like the tree. -/
theorem All.form_abridged (h : node.All Sincere) : node.abridged.form = node.form := by
  have hcited : ∀ {node : Node}, node.All Sincere → node.abridged.form = node.form →
      node.cited.reference = node.reference := by
    intro node h hform
    rw [cited]
    split
    · rename_i hshort
      have hencoding : node.abridged.encoding = node.encoding := by
        rw [(blank_abridged node).sincere, hform, h.self]
      have hshort' : node.abridged.encoding.length < 32 := hencoding ▸ hshort
      rw [reference_of_short (isStored_of_short hshort') hshort',
        reference_of_short (isStored_of_short hshort) hshort, hencoding]
    · rename_i hlong
      rw [reference_of_long (Nat.not_lt.mp hlong)]
      rfl
  induction node with
  | null | leaf | stored => rfl
  | extension stamp first rest child ih =>
      exact congrArg (extensionForm (first :: rest)) (hcited h.2 (ih h.2))
  | branch stamp occupied slots value ih =>
      exact congrArg (branchForm · value) (funext fun slot ↦ hcited (h.2 slot) (ih slot (h.2 slot)))

/-- A node that was read from its form is written as it would be anew. -/
theorem All.sincere_readFrom {source : Bytes} (h : node.All Sincere)
    (hsource : source = node.form) : (node.readFrom source).All Sincere := by
  subst hsource
  cases node with
  | null | leaf | stored => exact rfl
  | extension stamp first rest child => exact ⟨rfl, h.2⟩
  | branch stamp occupied slots value => exact ⟨rfl, h.2⟩

/-- A node that a commit may write: it has a form, which is not too long, obeys the rules and holds
no empty values, is written throughout as it would be anew, and has entries for its references. -/
structure Due (contents : Contents) (part : Node) : Prop where
  formed : part.isFormed = true
  proper : part.All (Proper (· ≠ []))
  sincere : part.All Sincere
  linked : part.All (Linked contents)
  fits : part.encoding.length < 2 ^ 64

/-- A node may still be written when the store has more. -/
theorem Due.mono {part : Node} (h : part.Due contents)
    (hmore : ∀ hash, (contents hash).isSome = true → (more hash).isSome = true) : part.Due more :=
  ⟨h.formed, h.proper, h.sincere, h.linked.linked_mono hmore, h.fits⟩

/-- A node that may be written is legible. -/
theorem Due.legible {part : Node} (h : part.Due contents) : part.Legible :=
  (candid_of_proper h.proper h.sincere).legible h.proper.wellFormed

/-- What is read from the form of a node that may be written is the node in short, and is written as
it would be anew. -/
theorem Due.read {part : Node} (h : part.Due contents) :
    ∃ read, decode part.encoding = .ok read ∧ read.val.plain = part.abridged.plain ∧
      read.val.All Sincere := by
  have hencoding : part.encoding = part.form := h.sincere.self
  have hfits := h.fits
  rw [hencoding] at hfits ⊢
  obtain ⟨read, hread, hval⟩ := h.legible.decode_form h.formed hfits
  have hanew : part.abridged.All Sincere := (blank_abridged part).imp fun node hnode ↦
    encoding_eq_form (by rw [hnode]; rfl)
  refine ⟨read, hread, ?_, ?_⟩
  · rw [hval, plain_readFrom]
  · rw [hval]
    exact hanew.sincere_readFrom h.sincere.form_abridged.symm

/-! ## Children before parents -/

/-- All long nodes below each node of the list are among some nodes or stand before it. -/
def Grounded (seen : List Node) : List Node → Prop
  | [] => True
  | part :: parts => (∀ below ∈ part.childParts, below ∈ seen) ∧ Grounded (part :: seen) parts

/-- More nodes may have been seen. -/
theorem Grounded.mono {seen more parts : List Node} (h : Grounded seen parts)
    (hmore : seen ⊆ more) : Grounded more parts := by
  induction parts generalizing seen more with
  | nil => trivial
  | cons part parts ih =>
      exact ⟨fun below hmem ↦ hmore (h.1 below hmem), ih h.2 (List.cons_subset_cons part hmore)⟩

/-- All long nodes below a node of a grounded list have been seen or are in the list. -/
theorem Grounded.mem {seen parts : List Node} {part below : Node} (h : Grounded seen parts)
    (hpart : part ∈ parts) (hbelow : below ∈ part.childParts) : below ∈ seen ∨ below ∈ parts := by
  induction parts generalizing seen with
  | nil => cases hpart
  | cons first parts ih =>
      rcases List.mem_cons.mp hpart with rfl | hpart
      · exact Or.inl (h.1 below hbelow)
      · rcases ih h.2 hpart with hseen | hmem
        · rcases List.mem_cons.mp hseen with rfl | hseen
          · exact Or.inr List.mem_cons_self
          · exact Or.inl hseen
        · exact Or.inr (List.mem_cons_of_mem first hmem)

/-- Lists are grounded one after the other if the first is, and the second is given the first. -/
theorem grounded_append {seen first second : List Node} :
    Grounded seen (first ++ second) ↔
      Grounded seen first ∧ Grounded (first.reverse ++ seen) second := by
  induction first generalizing seen with
  | nil => exact (true_and _).to_iff.symm
  | cons part first ih =>
      rw [List.cons_append, Grounded, Grounded, ih, List.reverse_cons, List.append_assoc, and_assoc]
      rfl

/-- The node alone is grounded if the long nodes below it have been seen. -/
theorem grounded_whenLong {seen : List Node} (h : ∀ below ∈ node.childParts, below ∈ seen) :
    Grounded seen node.whenLong := by
  rw [whenLong]
  split
  · trivial
  · exact ⟨h, trivial⟩

/-- The long nodes of a tree come after the long nodes below them. -/
theorem grounded_longParts (node : Node) : Grounded [] node.longParts := by
  have hseen : ∀ {parts : List Node} {below : Node}, below ∈ parts → below ∈ parts.reverse ++ [] :=
    fun hmem ↦ List.mem_append_left _ (List.mem_reverse.mpr hmem)
  induction node with
  | null | stored => trivial
  | leaf stamp path value => exact grounded_whenLong (List.forall_mem_nil _)
  | extension stamp first rest child ih =>
      exact grounded_append.mpr ⟨ih, grounded_whenLong fun _ ↦ hseen⟩
  | branch stamp occupied slots value ih =>
      refine grounded_append.mpr ⟨?_, grounded_whenLong fun _ ↦ hseen⟩
      -- The slots do not matter to one another.
      generalize List.finRange 16 = list
      induction list with
      | nil => trivial
      | cons slot list hlist =>
          exact grounded_append.mpr ⟨ih slot, hlist.mono (List.nil_subset _)⟩

/-- The nodes that a commit writes come after the long nodes below them. -/
theorem grounded_committed (h : node.isFormed = true) : Grounded [] node.committed := by
  refine grounded_append.mpr ⟨grounded_longParts node, ?_⟩
  split
  · refine ⟨fun below hmem ↦ List.mem_append_left _ (List.mem_reverse.mpr ?_), trivial⟩
    rw [longParts_eq h]
    exact List.mem_append_left _ hmem
  · trivial

end Node

/-! ## Stores -/

/-- Each entry is read as a node, and there is an entry for each reference in it. -/
def Closed (contents : Contents) : Prop :=
  ∀ hash bytes, contents hash = some bytes → ∃ read, Node.decode bytes = .ok read ∧
    ∀ reference ∈ read.val.references, (contents reference).isSome = true

/-- The hash is some hash, or that of a reference in an entry below it. -/
inductive Below (contents : Contents) (origin : Hash) : Hash → Prop
  | origin : Below contents origin origin
  | reference {hash next : Hash} {bytes : Bytes} {read : Resolved}
      (habove : Below contents origin hash) (hbytes : contents hash = some bytes)
      (hread : Node.decode bytes = .ok read) (hmem : next ∈ read.val.references) :
      Below contents origin next

/-- Everything below a hash that has an entry has one, and is read as a node. -/
theorem Closed.below {contents : Contents} {origin hash : Hash} (h : Closed contents)
    (horigin : (contents origin).isSome = true) (hbelow : Below contents origin hash) :
    ∃ bytes read, contents hash = some bytes ∧ Node.decode bytes = .ok read := by
  have hentry : (contents hash).isSome = true := by
    induction hbelow with
    | origin => exact horigin
    | reference habove hbytes hread hmem ih =>
        obtain ⟨read, hread', hlinked⟩ := h _ _ hbytes
        cases hread.symm.trans hread'
        exact hlinked _ hmem
  obtain ⟨bytes, hbytes⟩ := Option.isSome_iff_exists.mp hentry
  obtain ⟨read, hread, -⟩ := h hash bytes hbytes
  exact ⟨bytes, read, hbytes, hread⟩

/-- A store is closed under references, and its entries have no empty values and are written as they
would be anew. -/
structure Orderly (contents : Contents) : Prop where
  closed : Closed contents
  clean : Clean contents

namespace MemoryStore

variable {store : MemoryStore} {entry : Entry} {entries : List Entry} {hash : Hash}

/-- A hash that has an entry keeps having one. -/
theorem isSome_insert (h : (store.get? hash).isSome = true) (entry : Entry) :
    ((store.insert entry).get? hash).isSome = true := by
  rw [get?_insert]
  split
  · rfl
  · exact h

/-- A hash has an entry when it had one before or one was written. -/
theorem isSome_insertAll (h : (store.get? hash).isSome = true ∨ ∃ entry ∈ entries, entry.1 = hash) :
    ((store.insertAll entries).get? hash).isSome = true := by
  induction entries generalizing store with
  | nil =>
      rcases h with h | ⟨entry, hmem, -⟩
      · exact h
      · cases hmem
  | cons entry entries ih =>
      refine ih ?_
      rcases h with h | ⟨other, hmem, rfl⟩
      · exact Or.inl (isSome_insert h entry)
      · rcases List.mem_cons.mp hmem with rfl | hmem
        · rw [get?_insert, if_pos rfl]
          exact Or.inl rfl
        · exact Or.inr ⟨other, hmem, rfl⟩

end MemoryStore

namespace Orderly

variable {store : MemoryStore} {part : Node} {parts seen : List Node}

/-- A store without entries is orderly. -/
theorem empty : Orderly MemoryStore.empty.get? :=
  ⟨nofun, nofun⟩

/-- A store stays orderly when a node is written after the long nodes below it. -/
theorem insert (h : Orderly store.get?) (hdue : part.Due store.get?)
    (hbelow : ∀ below ∈ part.childParts, (store.get? below.hash).isSome = true) :
    Orderly (store.insert (part.hash, part.encoding)).get? := by
  obtain ⟨read, hread, hplain, hsincere⟩ := hdue.read
  have hlinked : read.val.All (Node.Linked store.get?) :=
    Node.All.linked_of_plain hplain (hdue.linked.linked_abridged hbelow)
  constructor
  · intro hash bytes hbytes
    rw [MemoryStore.get?_insert] at hbytes
    split at hbytes
    · cases hbytes
      exact ⟨read, hread, fun reference hmem ↦
        MemoryStore.isSome_insert (Node.all_linked_iff.mp hlinked reference hmem) _⟩
    · obtain ⟨other, hother, hentries⟩ := h.closed hash bytes hbytes
      exact ⟨other, hother, fun reference hmem ↦
        MemoryStore.isSome_insert (hentries reference hmem) _⟩
  · intro hash other hjudge
    rw [MemoryStore.get?_insert] at hjudge
    split at hjudge
    · obtain ⟨bytes, hbytes, -, hother⟩ := Loader.judge_eq_ok hjudge
      cases hbytes
      cases hread.symm.trans hother
      exact ⟨Node.proper_of_plain hplain hdue.proper.proper_abridged, hsincere⟩
    · exact h.clean hash other hjudge

/-- A store stays orderly when nodes are written that come after the long nodes below them. -/
theorem insertAll (h : Orderly store.get?) (hgrounded : Node.Grounded seen parts)
    (hseen : ∀ below ∈ seen, (store.get? below.hash).isSome = true)
    (hdue : ∀ part ∈ parts, part.Due store.get?) :
    Orderly (store.insertAll (parts.map fun part ↦ (part.hash, part.encoding))).get? := by
  induction parts generalizing store seen with
  | nil => exact h
  | cons part parts ih =>
      have hmore : ∀ hash, (store.get? hash).isSome = true →
          ((store.insert (part.hash, part.encoding)).get? hash).isSome = true :=
        fun hash hentry ↦ MemoryStore.isSome_insert hentry _
      refine ih (h.insert (hdue part List.mem_cons_self) fun below hmem ↦
          hseen below (hgrounded.1 below hmem)) hgrounded.2 ?_
        fun other hother ↦ (hdue other (List.mem_cons_of_mem _ hother)).mono hmore
      intro below hmem
      rcases List.mem_cons.mp hmem with rfl | hmem
      · rw [MemoryStore.get?_insert, if_pos rfl]
        rfl
      · exact hmore _ (hseen below hmem)

end Orderly

end Patricia
