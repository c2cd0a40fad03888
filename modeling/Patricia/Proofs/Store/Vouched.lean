import Patricia.Proofs.Loader.Heard
import Patricia.Proofs.Store.Held
import Patricia.Proofs.Update.Content

/-!
# Trees that their hashes vouch for

A tree is vouched for by its hash when all its encodings are of some honest kind (`Vouched`).
Whoever answers a read, bytes that have the hash of such a tree are the tree's own form, unless they
share their hash with another honest form. So the node that is read from them shows the tree
(`Vouched.judge_shows`), and a service that hands out only such nodes is faithful
(`Service.vouching_faithful`), although nothing is known of the store.
-/

namespace Patricia

/-- A whole tree that is not empty has some hash, and all its encodings are honest. -/
structure Vouched (honest : Bytes → Prop) (hash : Hash) (whole : Node) : Prop where
  isWhole : whole.Whole
  hash_eq : whole.hash = hash
  isNull_eq : whole.isNull = false
  honest : whole.All fun node ↦ honest node.encoding

/-- The bytes have the hash of no honest form but themselves. -/
def Unforged (honest : Bytes → Prop) (bytes : Bytes) : Prop :=
  ∀ form, honest form → keccak256 bytes = keccak256 form → bytes = form

variable {honest : Bytes → Prop} {hash : Hash} {whole other node : Node} {bytes : Bytes}

/-- All long subtrees of a tree are vouched for if the tree is. -/
theorem Node.Whole.all_vouched (h : whole.Whole)
    (hhonest : whole.All fun node ↦ honest node.encoding) :
    whole.All fun part ↦ 32 ≤ part.encoding.length → Vouched honest part.hash part := by
  have hself : ∀ {part : Node}, part.Whole → (part.All fun node ↦ honest node.encoding) →
      32 ≤ part.encoding.length → Vouched honest part.hash part :=
    fun hpart hhonest hlong ↦ ⟨hpart, rfl, isNull_of_long hlong, hhonest⟩
  induction whole with
  | null | leaf | stored => exact hself h hhonest
  | extension stamp first rest child ih => exact ⟨hself h hhonest, ih h.child hhonest.2⟩
  | branch stamp occupied slots value ih =>
      exact ⟨hself h hhonest, fun slot ↦ ih slot (h.slot slot) (hhonest.2 slot)⟩

namespace Vouched

/-- The hash of a tree is that of its form. -/
theorem keccak256_eq (h : Vouched honest hash whole) : keccak256 whole.encoding = hash := by
  rw [← Node.hash_eq_keccak256 h.isWhole.normal.isStored_eq, h.hash_eq]

/-- Bytes with the hash of a tree are the tree's form. -/
theorem eq_encoding (h : Vouched honest hash whole) (hunforged : Unforged honest bytes)
    (hhash : keccak256 bytes = hash) : bytes = whole.encoding :=
  hunforged _ h.honest.self (hhash.trans h.keccak256_eq.symm)

/-- The tree in short shows the tree. -/
theorem abridged_shows (h : Vouched honest hash whole) :
    whole.abridged.Shows (Vouched honest) whole :=
  h.isWhole.abridged_shows (h.isWhole.all_vouched h.honest)

/-- What an answer is read as shows every tree with the hash that was asked for. -/
theorem judge_shows (h : Vouched honest hash whole) {read : Resolved}
    (hunforged : Unforged honest bytes) (hjudge : Loader.judge hash (.ok (some bytes)) = .ok read) :
    read.val.Shows (Vouched honest) whole := by
  rw [Loader.judge] at hjudge
  split at hjudge
  · rename_i hhash
    obtain rfl := h.eq_encoding hunforged hhash
    obtain ⟨known, hknown, hval⟩ := h.isWhole.decode_encoding h.isNull_eq
    rw [hknown] at hjudge
    cases hjudge
    rw [hval]
    exact h.abridged_shows.readFrom rfl
  · cases hjudge

end Vouched

namespace Service

/-- The service of nodes that show every tree with the hash that was asked for. Only hashes of trees
are asked for. -/
def vouching (honest : Bytes → Prop) (owner : Nat) : Service where
  owner := owner
  asked hash := ∃ whole, Vouched honest hash whole
  served hash node := node.isStored = false ∧ (∃ whole, Vouched honest hash whole) ∧
    ∀ whole, Vouched honest hash whole → node.Shows (Vouched honest) whole

variable {owner : Nat}

/-- Whoever is served so is served what the hashes vouch for. -/
theorem vouching_faithful : (vouching honest owner).Faithful (Vouched honest) where
  asked hvouched _ := ⟨_, hvouched⟩
  shows hserved hvouched _ := hserved.2.2 _ hvouched
  known := by
    intro hash node hserved
    obtain ⟨hstored, ⟨whole, hvouched⟩, -⟩ := hserved
    exact ⟨hstored, whole, hvouched, hvouched.hash_eq, hvouched.isNull_eq,
      hvouched.isWhole.normal⟩

/-- An answer may be handed out if its bytes do not share their hash with another honest form. -/
theorem vouching_takes {answer : Answer}
    (hunforged : ∀ bytes, answer = .ok (some bytes) → Unforged honest bytes) :
    (vouching honest owner).Takes hash answer := by
  intro read hasked hjudge owner' serial
  refine ⟨(read.issue owner' serial).property, hasked, fun whole hvouched ↦ ?_⟩
  rcases answer with error | _ | bytes
  · cases hjudge
  · cases hjudge
  · exact (hvouched.judge_shows (hunforged bytes rfl) hjudge).issue owner' serial

end Service

end Patricia
