import Patricia.Proofs.Store.Held
import Patricia.Proofs.Store.Memory

/-!
# Trees known by their hashes

Where no two byte strings of some kind have the same hash, a hash stands for one byte string of the
kind at most (`Contents.addressed`). So a whole tree all of whose encodings are of the kind is
known by its hash (`Node.Whole.eq_of_hash`).
-/

namespace Patricia

open Classical in
/-- Under each hash the byte string of some kind that has it, if there is one. -/
noncomputable def Contents.addressed (known : Bytes → Prop) : Contents := fun hash ↦
  if h : ∃ bytes, known bytes ∧ keccak256 bytes = hash then some h.choose else none

variable {known : Bytes → Prop}

/-- A byte string of the kind is under its own hash. -/
theorem Contents.addressed_keccak256 (hapart : Apart known) {bytes : Bytes} (h : known bytes) :
    Contents.addressed known (keccak256 bytes) = some bytes := by
  have hex : ∃ other, known other ∧ keccak256 other = keccak256 bytes := ⟨bytes, h, rfl⟩
  rw [addressed, dif_pos hex]
  exact congrArg some (hapart _ _ hex.choose_spec.1 h hex.choose_spec.2)

namespace Node

variable {whole other : Node}

/-- A whole tree has its long subtrees under their hashes, if all its encodings are of the kind. -/
theorem Whole.saved_addressed (hapart : Apart known) (h : whole.Whole)
    (hknown : whole.All fun node ↦ known node.encoding) :
    whole.Saved (Contents.addressed known) := by
  have hself : ∀ {node : Node}, node.Normal → known node.encoding →
      Contents.addressed known node.hash = some node.encoding := by
    intro node hnormal hencoding
    rw [hash_eq_keccak256 hnormal.isStored_eq, Contents.addressed_keccak256 hapart hencoding]
  induction whole with
  | null | leaf => exact fun _ ↦ hself h.normal hknown
  | extension stamp first rest child ih =>
      exact ⟨fun _ ↦ hself h.normal hknown.1, ih h.child hknown.2⟩
  | branch stamp occupied slots value ih =>
      exact ⟨fun _ ↦ hself h.normal hknown.1, fun slot ↦ ih slot (h.slot slot) (hknown.2 slot)⟩
  | stored stamp hash => exact h.normal.elim

/-- Whole trees with one hash are one tree, if all their encodings are of the kind. -/
theorem Whole.eq_of_hash (hapart : Apart known) (h : whole.Whole) (h' : other.Whole)
    (hknown : whole.All fun node ↦ known node.encoding)
    (hknown' : other.All fun node ↦ known node.encoding) (heq : whole.hash = other.hash) :
    whole = other := by
  rw [hash_eq_keccak256 h.normal.isStored_eq, hash_eq_keccak256 h'.normal.isStored_eq] at heq
  have hencoding := hapart _ _ hknown.self hknown'.self heq
  exact eq_of_abridged h h' (h.saved_addressed hapart hknown)
    (h'.saved_addressed hapart hknown') (h.abridged_eq h' hencoding)

end Node

end Patricia
