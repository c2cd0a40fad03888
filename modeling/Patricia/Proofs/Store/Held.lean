import Patricia.Loader.Basic
import Patricia.Proofs.Format.Legible

/-!
# Trees held in a store

A store holds a whole tree under a hash when the tree's form is there, and so are the forms of all
long subtrees (`Held`). What is read from the store for the hash is a node that shows the tree
(`Held.judge_shows`), and no other tree is held under the hash (`Held.unique`).
-/

namespace Patricia

/-- The bytes that a store has under each hash. -/
abbrev Contents := Hash → Option Bytes

namespace Node

/-- A normal tree with blank stamps and forms whose lengths fit in 64 bits. -/
structure Whole (node : Node) : Prop where
  normal : node.Normal
  blank : node.Blank
  fits : node.All fun node ↦ node.encoding.length < 2 ^ 64

/-- The forms of all long subtrees of a tree are in the store under their hashes. -/
def Saved (contents : Contents) (whole : Node) : Prop :=
  whole.All fun node ↦ 32 ≤ node.encoding.length → contents node.hash = some node.encoding

variable {contents : Contents} {whole other : Node}

/-- The child of a whole extension is whole. -/
theorem Whole.child {stamp : Stamp} {first : Nibble} {rest : List Nibble} {child : Node}
    (h : (extension stamp first rest child).Whole) : child.Whole :=
  ⟨h.normal.2, h.blank.2, h.fits.2⟩

/-- The slots of a whole branch are whole. -/
theorem Whole.slot {stamp : Stamp} {occupied : BitVec 16} {slots : Nibble → Node}
    {value : Option Bytes} (h : (branch stamp occupied slots value).Whole) (slot : Nibble) :
    (slots slot).Whole :=
  ⟨h.normal.2.2.2 slot, h.blank.2 slot, h.fits.2 slot⟩

/-- A whole tree is written from its parts. -/
theorem Whole.encoding_eq_form (h : whole.Whole) : whole.encoding = whole.form :=
  Node.encoding_eq_form (by rw [h.blank.self]; rfl)

/-- Whole trees are legible. -/
theorem Whole.legible (h : whole.Whole) : whole.Legible := by
  induction whole with
  | null | leaf => exact ⟨h.encoding_eq_form, trivial, nofun⟩
  | extension stamp first rest child ih =>
      refine ⟨⟨h.encoding_eq_form, ?_, nofun⟩, ih h.child⟩
      have hbranch := h.normal.1
      cases child with
      | branch => rfl
      | null | leaf | extension | stored => cases hbranch
  | branch stamp occupied slots value ih =>
      obtain ⟨hsound, hforked, hvalue, -⟩ := h.normal
      refine ⟨⟨h.encoding_eq_form, ⟨hsound, hforked, fun _ _ ↦ trivial⟩, ?_⟩,
        fun slot ↦ ih slot (h.slot slot)⟩
      rintro stamp' occupied' slots' ⟨⟩
      exact hvalue rfl
  | stored stamp hash => exact h.normal.elim

/-- A whole tree that is not empty has a form of its own. -/
theorem Whole.isFormed_eq (h : whole.Whole) (hnull : whole.isNull = false) :
    whole.isFormed = true := by
  rw [isFormed, hnull, h.normal.isStored_eq]
  rfl

/-- What a whole tree that is not empty is written as is read as the tree in short. -/
theorem Whole.decode_encoding (h : whole.Whole) (hnull : whole.isNull = false) :
    ∃ read, decode whole.encoding = .ok read ∧
      read.val = whole.abridged.readFrom whole.encoding := by
  have hfits := h.fits.self
  rw [h.encoding_eq_form] at hfits ⊢
  exact h.legible.decode_form (h.isFormed_eq hnull) hfits

/-- The tree in short has blank stamps. -/
theorem blank_abridged (node : Node) : node.abridged.Blank := by
  induction node with
  | null | leaf | stored => exact rfl
  | extension stamp first rest child ih =>
      refine ⟨rfl, ?_⟩
      split
      · exact ih
      · exact rfl
  | branch stamp occupied slots value ih =>
      refine ⟨rfl, fun slot ↦ ?_⟩
      beta_reduce
      split
      · exact ih slot
      · exact rfl

/-! ## Trees with one form -/

/-- Only the empty tree is written as the empty string. -/
theorem Whole.isNull_of_encoding (h : whole.Whole) (hencoding : whole.encoding = [0x80]) :
    whole.isNull = true := by
  by_contra hnull
  have hformed := h.isFormed_eq (Bool.not_eq_true _ ▸ hnull)
  have hwritten := Rlp.Item.writtenAs_list whole.payload
    (Nat.lt_trans (length_lt_length_list _)
      (by rw [← form_eq_list hformed, ← h.encoding_eq_form]; exact h.fits.self)) []
  have hempty := Rlp.Item.writtenAs_string [] (by decide) []
  rw [← form_eq_list hformed, ← h.encoding_eq_form, hencoding] at hwritten
  cases hwritten.symm.trans hempty

/-- Whole trees with one form are alike in short. -/
theorem Whole.abridged_eq (h : whole.Whole) (h' : other.Whole)
    (heq : whole.encoding = other.encoding) : whole.abridged = other.abridged := by
  have hempty : ∀ {left right : Node}, right.Whole → left.encoding = right.encoding →
      left.isNull = true → right.isNull = true := by
    intro left right hright hform hnull
    cases left with
    | null => exact hright.isNull_of_encoding hform.symm
    | leaf | extension | branch | stored => cases hnull
  cases hnull : whole.isNull with
  | true =>
      have hnull' := hempty h' heq hnull
      cases whole <;> cases hnull
      cases other <;> cases hnull'
      rfl
  | false =>
      have hnull' : other.isNull = false := by
        rw [Bool.eq_false_iff] at hnull ⊢
        exact mt (hempty h heq.symm) hnull
      obtain ⟨read, hread, hval⟩ := h.decode_encoding hnull
      obtain ⟨read', hread', hval'⟩ := h'.decode_encoding hnull'
      rw [heq, hread'] at hread
      cases hread
      have hplain := congrArg Node.plain (hval.symm.trans hval')
      rwa [plain_readFrom, plain_readFrom, (blank_abridged whole).plain_eq,
        (blank_abridged other).plain_eq] at hplain

/-- Whole trees that are saved in one store and told of alike are one tree, if that holds of trees
that are alike in short. -/
theorem eq_of_cited (h : whole.Whole) (h' : other.Whole) (hsaved : whole.Saved contents)
    (hsaved' : other.Saved contents) (hcited : whole.cited = other.cited)
    (heq : whole.abridged = other.abridged → whole = other) : whole = other := by
  have hcross : ∀ {left right : Node}, left.Normal → left.abridged ≠ .stored .blank right.hash := by
    intro left right hleft hstored
    cases left with
    | stored => exact hleft
    | null | leaf | extension | branch => cases hstored
  rw [cited, cited] at hcited
  split at hcited
  · split at hcited
    · exact heq hcited
    · exact (hcross h.normal hcited).elim
  · split at hcited
    · exact (hcross h'.normal hcited.symm).elim
    · rename_i hlong hlong'
      -- Long trees are told of by hash, and a store has one form under a hash.
      injection hcited with _ hhash
      have hpresent := hsaved.self (Nat.not_lt.mp hlong)
      rw [hhash, hsaved'.self (Nat.not_lt.mp hlong')] at hpresent
      exact heq (h.abridged_eq h' (Option.some.inj hpresent).symm)

/-- Whole trees that are saved in one store and alike in short are one tree. -/
theorem eq_of_abridged (h : whole.Whole) (h' : other.Whole) (hsaved : whole.Saved contents)
    (hsaved' : other.Saved contents) (heq : whole.abridged = other.abridged) : whole = other := by
  induction whole generalizing other with
  | null =>
      cases other with
      | null => rfl
      | leaf | extension | branch | stored => cases heq
  | leaf stamp path value =>
      obtain rfl : stamp = .blank := h.blank
      cases other with
      | leaf stamp' path' value' =>
          obtain rfl : stamp' = .blank := h'.blank
          exact heq
      | null | extension | branch | stored => cases heq
  | extension stamp first rest child ih =>
      obtain rfl : stamp = .blank := h.blank.self
      cases other with
      | extension stamp' first' rest' child' =>
          obtain rfl : stamp' = .blank := h'.blank.self
          injection heq with _ hfirst hrest hchild
          have hbelow := eq_of_cited h.child h'.child hsaved.2 hsaved'.2 hchild
            (ih h.child h'.child hsaved.2 hsaved'.2)
          rw [hfirst, hrest, hbelow]
      | null | leaf | branch | stored => cases heq
  | branch stamp occupied slots value ih =>
      obtain rfl : stamp = .blank := h.blank.self
      cases other with
      | branch stamp' occupied' slots' value' =>
          obtain rfl : stamp' = .blank := h'.blank.self
          injection heq with _ hoccupied hslots hvalue
          have hbelow : slots = slots' := funext fun slot ↦
            eq_of_cited (h.slot slot) (h'.slot slot) (hsaved.2 slot) (hsaved'.2 slot)
              (congrFun hslots slot)
              (ih slot (h.slot slot) (h'.slot slot) (hsaved.2 slot) (hsaved'.2 slot))
          rw [hoccupied, hbelow, hvalue]
      | null | leaf | extension | stored => cases heq
  | stored stamp hash => exact h.normal.elim

end Node

/-! ## Trees under hashes -/

/-- A whole tree that is not empty is in a store under its hash, with all its long subtrees. -/
structure Held (contents : Contents) (hash : Hash) (whole : Node) : Prop where
  isWhole : whole.Whole
  present : contents hash = some whole.encoding
  hash_eq : whole.hash = hash
  saved : whole.Saved contents
  isNull_eq : whole.isNull = false

namespace Node

variable {contents : Contents} {node whole : Node}

/-- A node that was read from the form of the tree it shows shows the tree. -/
theorem Shows.readFrom {held : Hash → Node → Prop} (h : node.Shows held whole) {source : Bytes}
    (hsource : source = whole.encoding) : (node.readFrom source).Shows held whole := by
  have hreads : ∀ stamp : Stamp, Stamp.Reads { stamp with source := some source } whole := by
    rintro stamp bytes ⟨⟩
    exact hsource
  cases node with
  | null | stored => exact h
  | leaf stamp path value => exact ⟨h.1, hreads stamp⟩
  | extension stamp first rest child => exact ⟨hreads stamp, h.2⟩
  | branch stamp occupied slots value => exact ⟨hreads stamp, h.2⟩

/-- A tree shows the same as other instances read from the same bytes. -/
theorem Shows.restamp {held : Hash → Node → Prop} {change : List Nat → Stamp → Stamp}
    (hchange : ∀ position stamp, (change position stamp).source = stamp.source)
    (h : node.Shows held whole) (position : List Nat) :
    (node.restamp change position).Shows held whole := by
  have hreads : ∀ {stamp : Stamp} {position whole}, stamp.Reads whole →
      (change position stamp).Reads whole := by
    intro stamp position whole h source hsource
    rw [hchange] at hsource
    exact h source hsource
  induction node generalizing whole position with
  | null | stored => exact h
  | leaf stamp path value => exact ⟨h.1, hreads h.2⟩
  | extension stamp first rest child ih =>
      obtain ⟨hstamp, below, rfl, hshows, hlong⟩ := h
      refine ⟨hreads hstamp, below, rfl, ih hshows _, ?_⟩
      rwa [isStored_restamp]
  | branch stamp occupied slots value ih =>
      obtain ⟨hstamp, below, rfl, hslots⟩ := h
      rw [restamp_branch]
      refine ⟨hreads hstamp, below, rfl, fun slot ↦ ⟨ih slot (hslots slot).1 _, ?_⟩⟩
      rw [isStored_restamp]
      exact (hslots slot).2

/-- A tree shows the same as instances that an owner gave out. -/
theorem Shows.issue {held : Hash → Node → Prop} (h : node.Shows held whole) (owner serial : Nat) :
    (node.issue owner serial).Shows held whole := by
  refine h.restamp ?_ []
  intro position stamp
  rfl

/-- A tree in short shows the tree, if all its long subtrees are held under their hashes. -/
theorem Whole.abridged_shows {held : Hash → Node → Prop} (h : whole.Whole)
    (hheld : whole.All fun part ↦ 32 ≤ part.encoding.length → held part.hash part) :
    whole.abridged.Shows held whole := by
  have hcited : ∀ {below : Node}, below.Whole →
      (32 ≤ below.encoding.length → held below.hash below) → below.abridged.Shows held below →
      below.cited.Shows held below ∧
        (below.cited.isStored = true → 32 ≤ below.encoding.length) := by
    intro below hbelow hlong habridged
    rw [cited]
    split
    · refine ⟨habridged, fun hstored ↦ ?_⟩
      have hnormal := hbelow.normal
      cases below with
      | stored => exact hnormal.elim
      | null | leaf | extension | branch => cases hstored
    · rename_i hnot
      have hle := Nat.not_lt.mp hnot
      exact ⟨⟨hlong hle, rfl, isNull_of_long hle⟩, fun _ ↦ hle⟩
  induction whole with
  | null => exact rfl
  | leaf stamp path value =>
      obtain rfl : stamp = .blank := h.blank
      exact ⟨rfl, reads_of_source rfl⟩
  | extension stamp first rest child ih =>
      obtain rfl : stamp = .blank := h.blank.self
      have hbelow := hcited h.child hheld.2.self (ih h.child hheld.2)
      exact ⟨reads_of_source rfl, child, rfl, hbelow.1, hbelow.2⟩
  | branch stamp occupied slots value ih =>
      obtain rfl : stamp = .blank := h.blank.self
      exact ⟨reads_of_source rfl, slots, rfl, fun slot ↦
        hcited (h.slot slot) (hheld.2 slot).self (ih slot (h.slot slot) (hheld.2 slot))⟩
  | stored stamp hash => exact h.normal.elim

/-- A node that is there is in short what the tree is that it shows. -/
theorem Shows.abridged_eq {held : Hash → Node → Prop} (h : node.Shows held whole)
    (hnormal : whole.Normal) (hstored : node.isStored = false) :
    node.abridged = whole.abridged := by
  have hcited : ∀ {node whole : Node}, node.Shows held whole → whole.Normal →
      (node.isStored = true → 32 ≤ whole.encoding.length) →
      (node.isStored = false → node.abridged = whole.abridged) → node.cited = whole.cited := by
    intro node whole h hnormal hlong habridged
    rw [cited, cited, h.hash_eq hnormal]
    cases hstored : node.isStored with
    | true =>
        have hnode : ¬node.encoding.length < 32 := by
          cases node with
          | stored stamp hash =>
              rw [encoding, length_reference]
              decide
          | null | leaf | extension | branch => cases hstored
        rw [if_neg hnode, if_neg (Nat.not_lt.mpr (hlong hstored))]
    | false => rw [h.encoding_eq hnormal hstored, habridged hstored]
  induction node generalizing whole with
  | null =>
      cases h
      rfl
  | leaf stamp path value =>
      obtain ⟨rfl, -⟩ := h
      rfl
  | extension stamp first rest child ih =>
      obtain ⟨-, below, rfl, hshows, hlong⟩ := h
      exact congrArg (extension .blank first rest)
        (hcited hshows hnormal.2 hlong (ih hshows hnormal.2))
  | branch stamp occupied slots value ih =>
      obtain ⟨-, below, rfl, hslots⟩ := h
      refine congrArg (branch .blank occupied · value) (funext fun slot ↦ ?_)
      exact hcited (hslots slot).1 (hnormal.2.2.2 slot) (hslots slot).2
        (ih slot (hslots slot).1 (hnormal.2.2.2 slot))
  | stored stamp hash => cases hstored

/-- All long subtrees of a saved tree are held under their hashes. -/
theorem Whole.all_held (h : whole.Whole) (hsaved : whole.Saved contents) :
    whole.All fun part ↦ 32 ≤ part.encoding.length → Held contents part.hash part := by
  have hself : ∀ {part : Node}, part.Whole → part.Saved contents →
      32 ≤ part.encoding.length → Held contents part.hash part :=
    fun hpart hsaved hlong ↦ ⟨hpart, hsaved.self hlong, rfl, hsaved, isNull_of_long hlong⟩
  induction whole with
  | null | leaf | stored => exact hself h hsaved
  | extension stamp first rest child ih => exact ⟨hself h hsaved, ih h.child hsaved.2⟩
  | branch stamp occupied slots value ih =>
      exact ⟨hself h hsaved, fun slot ↦ ih slot (h.slot slot) (hsaved.2 slot)⟩

end Node

namespace Held

variable {contents : Contents} {hash : Hash} {whole other : Node}

/-- Only one tree is held under a hash. -/
theorem unique (h : Held contents hash whole) (h' : Held contents hash other) : whole = other := by
  have hencoding := Option.some.inj (h.present.symm.trans h'.present)
  exact Node.eq_of_abridged h.isWhole h'.isWhole h.saved h'.saved
    (h.isWhole.abridged_eq h'.isWhole hencoding)

/-- A store that has more holds as much. -/
theorem mono {more : Contents} (hmore : ∀ hash bytes, contents hash = some bytes →
    more hash = some bytes) (h : Held contents hash whole) : Held more hash whole where
  isWhole := h.isWhole
  present := hmore _ _ h.present
  hash_eq := h.hash_eq
  saved := h.saved.imp fun _ hnode hlong ↦ hmore _ _ (hnode hlong)
  isNull_eq := h.isNull_eq

/-- What a store has under the hash of a tree it holds is read as a node that shows the tree. -/
theorem judge_shows (h : Held contents hash whole) :
    ∃ node, Loader.judge hash (.ok (contents hash)) = .ok node ∧
      node.val.Shows (Held contents) whole := by
  obtain ⟨read, hread, hval⟩ := h.isWhole.decode_encoding h.isNull_eq
  have hhash : keccak256 whole.encoding = hash := by
    rw [← Node.hash_eq_keccak256 h.isWhole.normal.isStored_eq, h.hash_eq]
  refine ⟨read, ?_, ?_⟩
  · rw [h.present]
    simp only [Loader.judge, hhash, if_true, hread]
  · rw [hval]
    exact (h.isWhole.abridged_shows (h.isWhole.all_held h.saved)).readFrom rfl

end Held

end Patricia
