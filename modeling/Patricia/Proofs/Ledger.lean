import Mathlib.Data.List.AList
import Patricia.Path.Basic
import Patricia.Proofs.Content
import Patricia.Value

/-!
# The finite map that a trie is meant to be

A `Ledger` is a finite map from keys to values. `Change` is a put or a removal of a key, and
`Ledger.record` says what becomes of the map: putting a value without bytes removes the key. A
content is that of a ledger (`Ledger.Records`) when the nibbles of each key have the bytes of its
value, and other runs of nibbles have none.
-/

namespace Patricia

/-! ## Keys as nibbles -/

/-- A byte is made of its nibbles. -/
theorem nibbles_byte (byte : UInt8) :
    byte.toNat = 16 * (highNibble byte).val + (lowNibble byte).val := by
  simp only [highNibble, lowNibble]
  omega

/-- Different keys have different nibbles. -/
theorem nibbles_injective : Function.Injective Bytes.nibbles := by
  intro left
  induction left with
  | nil =>
      intro right h
      cases right with
      | nil => rfl
      | cons byte right => simp [Bytes.nibbles] at h
  | cons first left ih =>
      intro right h
      cases right with
      | nil => simp [Bytes.nibbles] at h
      | cons second right =>
          simp only [Bytes.nibbles, List.flatMap_cons, List.cons_append, List.nil_append,
            List.cons.injEq] at h
          obtain ⟨hhigh, hlow, hrest⟩ := h
          have hbyte : first = second := by
            rw [← UInt8.toNat_inj, nibbles_byte first, nibbles_byte second, hhigh, hlow]
          rw [hbyte, ih hrest]

/-! ## Ledgers -/

/-- A finite map from keys to values. -/
abbrev Ledger (α : Type) := AList fun _ : Bytes ↦ α

/-- A request to change the value of a key. -/
inductive Change (α : Type) where
  | put (key : Bytes) (value : α)
  | remove (key : Bytes)
deriving DecidableEq

variable {α : Type} [TrieValue α]

/-- The ledger after a change. -/
def Ledger.record (ledger : Ledger α) : Change α → Ledger α
  | .put key value =>
      if TrieValue.encode value = [] then ledger.erase key else ledger.insert key value
  | .remove key => ledger.erase key

/-- The content after a change. -/
def Content.record (content : Content) : Change α → Content
  | .put key value =>
      if TrieValue.encode value = [] then content.erase key.nibbles
      else content.put key.nibbles (TrieValue.encode value)
  | .remove key => content.erase key.nibbles

/-- The content is that of the ledger. -/
structure Ledger.Records (ledger : Ledger α) (content : Content) : Prop where
  value_eq : ∀ key : Bytes, content key.nibbles = (ledger.lookup key).map TrieValue.encode
  key_of_value : ∀ path, content path ≠ none → ∃ key : Bytes, key.nibbles = path

namespace Ledger.Records

variable {ledger : Ledger α} {content : Content}

/-- Nothing is recorded in the empty ledger. -/
theorem empty : Records (∅ : Ledger α) .nothing :=
  ⟨fun _ ↦ by rw [AList.lookup_empty]; rfl, fun _ h ↦ absurd rfl h⟩

/-- Removing a key from the ledger takes its value from the content. -/
theorem erase (h : ledger.Records content) (key : Bytes) :
    Records (ledger.erase key) (content.erase key.nibbles) := by
  refine ⟨fun other ↦ ?_, fun path hpath ↦ ?_⟩
  · rw [Content.erase]
    by_cases hkey : key = other
    · rw [if_pos (congrArg _ hkey), hkey, AList.lookup_erase]
      rfl
    · rw [if_neg (nibbles_injective.ne hkey), AList.lookup_erase_ne (Ne.symm hkey), h.value_eq]
  · rw [Content.erase] at hpath
    split at hpath
    · exact absurd rfl hpath
    · exact h.key_of_value path hpath

/-- Giving a key a value in the ledger gives it the value's bytes in the content. -/
theorem put (h : ledger.Records content) (key : Bytes) (value : α) :
    Records (ledger.insert key value) (content.put key.nibbles (TrieValue.encode value)) := by
  refine ⟨fun other ↦ ?_, fun path hpath ↦ ?_⟩
  · rw [Content.put]
    by_cases hkey : key = other
    · rw [if_pos (congrArg _ hkey), hkey, AList.lookup_insert]
      rfl
    · rw [if_neg (nibbles_injective.ne hkey), AList.lookup_insert_ne (Ne.symm hkey), h.value_eq]
  · rw [Content.put] at hpath
    split at hpath
    · exact ⟨key, by assumption⟩
    · exact h.key_of_value path hpath

/-- A change is recorded alike in the ledger and the content. -/
theorem record (h : ledger.Records content) (change : Change α) :
    Records (ledger.record change) (content.record change) := by
  cases change with
  | put key value =>
      simp only [Ledger.record, Content.record]
      split
      · exact h.erase key
      · exact h.put key value
  | remove key => exact h.erase key

/-- The ledger is empty exactly when the content is. -/
theorem eq_nothing_iff (h : ledger.Records content) : content = .nothing ↔ ledger = ∅ := by
  constructor
  · rintro rfl
    have hnone : ∀ key, ledger.lookup key = none := by
      intro key
      have hkey := h.value_eq key
      cases hlookup : ledger.lookup key with
      | none => rfl
      | some value =>
          rw [hlookup] at hkey
          cases hkey
    apply AList.ext
    rw [AList.empty_entries, List.eq_nil_iff_forall_not_mem]
    intro entry hentry
    exact AList.lookup_eq_none.mp (hnone entry.1) (List.mem_keys_of_mem hentry)
  · rintro rfl
    funext path
    by_contra hpath
    obtain ⟨key, rfl⟩ := h.key_of_value path hpath
    rw [h.value_eq, AList.lookup_empty] at hpath
    exact hpath rfl

end Ledger.Records

/-! ## A map of three entries -/

/-- Three entries, one of them with a long value. In their tree a leaf and a branch are below a
branch, and the long leaf and another leaf are below the second one. -/
def threeEntries : List (Change Bytes) :=
  [.put [0x01] [0x07], .put [0x11] (List.replicate 32 0x07), .put [0x12] [0x09]]

/-- The keys of the three entries. -/
def threeKeys : List Bytes :=
  [[0x01], [0x11], [0x12]]

end Patricia
