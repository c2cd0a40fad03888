import Mathlib.Data.Nat.Digits.Lemmas
import Patricia.Proofs.Canonical.Tree
import Patricia.Proofs.Format.HexPrefix
import Patricia.Proofs.Node.Form

/-!
# The written form of a table

`Table.form` composes the bytes that commit to a table of entries as the rules for tries of this
kind have them, going by the entries alone: no node is built and nothing of this library's writing
of nodes is used. It is the written form of the tree of the table (`Table.encoding_tree`).
-/

namespace Patricia

namespace Composed

/-- The fewest bytes that write a number, the most significant first. -/
def digits (n : Nat) : Bytes :=
  (Nat.digits 256 n).reverse.map UInt8.ofNat

/-- A byte string: itself if it is one byte below 128, and else led by its length, which takes bytes
of its own from 56 on. -/
def string (bytes : Bytes) : Bytes :=
  if bytes.length = 1 ∧ bytes.all (· < 128) then bytes
  else if bytes.length < 56 then UInt8.ofNat (128 + bytes.length) :: bytes
  else UInt8.ofNat (183 + (digits bytes.length).length) :: digits bytes.length ++ bytes

/-- A list, given what its items are written as one after the other. -/
def list (payload : Bytes) : Bytes :=
  if payload.length < 56 then UInt8.ofNat (192 + payload.length) :: payload
  else UInt8.ofNat (247 + (digits payload.length).length) :: digits payload.length ++ payload

/-- Nibbles packed two a byte. The first one holds the flags, 2 for a run that ends a key and 1 for
a run of odd length; a run of even length is padded with a zero after them. -/
def path (nibbles : List Nibble) (ends : Bool) : Bytes :=
  let flag : UInt8 := if ends then 2 else 0
  packNibbles (if nibbles.length % 2 = 1 then lowNibble (flag + 1) :: nibbles
    else lowNibble flag :: lowNibble 0 :: nibbles)

/-- What stands for a subtree: its form if that is shorter than 32 bytes, and else the hash. -/
def cap (form : Bytes) : Bytes :=
  if form.length < 32 then form else string (keccak256 form).bytes

end Composed

/-- The bytes that commit to a table of entries: the empty string, a pair of path and value, a pair
of what all keys begin with and the rest, or seventeen items for each next nibble and the key that
ends here. -/
def Table.form (table : Table) : Bytes :=
  match table with
  | [] => Composed.string []
  | [(path, value)] =>
      Composed.list (Composed.string (Composed.path path true) ++ Composed.string value)
  | first :: second :: more =>
      match lead (first :: second :: more) with
      | nibble :: rest =>
          Composed.list (Composed.string (Composed.path (nibble :: rest) false) ++
            Composed.cap (form (beyond (nibble :: rest) (first :: second :: more))))
      | [] =>
          Composed.list
            (((List.finRange 16).flatMap fun slot ↦
              Composed.cap (form (beyond [slot] (first :: second :: more)))) ++
            Composed.string (((first :: second :: more).lookup []).getD []))
termination_by table.size
decreasing_by
  · have hsize := size_beyond_add_length_le (first :: second :: more)
      (List.cons_ne_nil nibble rest)
    rw [List.length_cons] at hsize
    omega
  · have hsize := size_beyond_add_length_le (first :: second :: more)
      (List.cons_ne_nil slot [])
    rw [List.length_cons] at hsize
    omega

/-! ## Agreement with how nodes are written -/

namespace Rlp

/-- Numbers are written with the fewest bytes. -/
theorem bigEndian_eq_digits (n : Nat) : bigEndian n = Composed.digits n := by
  fun_induction bigEndian n with
  | case1 => rfl
  | case2 n hne ih =>
      have hbyte : UInt8.ofNat (n % 256) = UInt8.ofNat n := by
        rw [← UInt8.toNat_inj, UInt8.toNat_ofNat', UInt8.toNat_ofNat']
        omega
      rw [ih, Composed.digits, Composed.digits,
        Nat.digits_def' (by decide) (Nat.pos_of_ne_zero hne), List.reverse_cons, List.map_append,
        List.map_singleton, hbyte]

/-- Short payloads have headers of one byte. -/
theorem header_of_short (base : UInt8) {length : Nat} (h : length < 56) :
    header base length = [base + UInt8.ofNat length] :=
  if_pos h

/-- Headers of long payloads hold the length behind its own length. -/
theorem header_of_long (base : UInt8) {length : Nat} (h : ¬length < 56) :
    header base length =
      (base + 55 + UInt8.ofNat (bigEndian length).length) :: bigEndian length :=
  if_neg h

/-- The first byte of a long header is as far above the base as the length of the length is. -/
theorem long_header_eq (base : UInt8) (offset : Nat) (hbase : base = UInt8.ofNat offset)
    (length : Nat) : base + 55 + UInt8.ofNat length = UInt8.ofNat (offset + 55 + length) := by
  subst hbase
  rw [UInt8.ofNat_add, UInt8.ofNat_add]
  rfl

/-- Lists are written as composed. -/
theorem list_eq_composed (payload : Bytes) : list payload = Composed.list payload := by
  rw [list, Composed.list]
  split
  · rw [header_of_short _ (by assumption), UInt8.ofNat_add]
    rfl
  · rw [header_of_long _ (by assumption), long_header_eq 0xc0 192 rfl, bigEndian_eq_digits]

/-- Strings are written as composed. -/
theorem string_eq_composed (bytes : Bytes) : string bytes = Composed.string bytes := by
  have hlong : ∀ bytes : Bytes, ¬(bytes.length = 1 ∧ bytes.all (· < 128) = true) →
      header 0x80 bytes.length ++ bytes = Composed.string bytes := by
    intro bytes hne
    rw [Composed.string, if_neg hne]
    split
    · rw [header_of_short _ (by assumption), UInt8.ofNat_add]
      rfl
    · rw [header_of_long _ (by assumption), long_header_eq 0x80 128 rfl, bigEndian_eq_digits]
  match bytes with
  | [] => exact hlong [] (by simp)
  | [byte] =>
      rw [string]
      by_cases hlt : byte < 0x80
      · rw [if_pos hlt, Composed.string, if_pos (by simpa using hlt)]
      · rw [if_neg hlt]
        exact hlong [byte] (by simpa using hlt)
  | first :: second :: more => exact hlong _ (by simp)

end Rlp

/-- Paths are packed as composed. -/
theorem Path.hexPrefix_eq_composed (nibbles : List Nibble) (terminated : Bool) :
    (Path.mk nibbles terminated).hexPrefix = Composed.path nibbles terminated := by
  rw [hexPrefix_eq, flagged, Composed.path]

/-- References are written as composed. -/
theorem Hash.reference_eq_composed (hash : Hash) :
    hash.reference = Composed.string hash.bytes := by
  rw [Composed.string, if_neg (by rw [hash.length_eq]; simp),
    if_pos (by rw [hash.length_eq]; decide), hash.length_eq]
  rfl

namespace Table

/-- No tree of a table is a reference. -/
theorem isStored_tree (table : Table) : table.tree.isStored = false := by
  fun_cases Table.tree table with
  | case1 => rfl
  | case2 => rfl
  | case3 => rfl
  | case4 => rfl

/-- A tree is written in its parent as composed. -/
theorem reference_tree {table : Table} (h : table.tree.encoding = table.form) :
    table.tree.reference = Composed.cap table.form := by
  rw [Composed.cap, ← h]
  split
  · exact Node.reference_of_short (isStored_tree table) (by assumption)
  · rw [Node.reference_of_long (by omega), Node.hash_eq_keccak256 (isStored_tree table),
      Hash.reference_eq_composed]

/-- The tree of a table is written as composed. -/
theorem encoding_tree (table : Table) : table.tree.encoding = table.form := by
  fun_induction Table.form table with
  | case1 =>
      rw [tree_nil]
      rfl
  | case2 path value =>
      rw [tree_singleton, Node.encoding_eq_form rfl, Node.form, Node.leafForm,
        Rlp.list_eq_composed, Rlp.string_eq_composed, Rlp.string_eq_composed,
        Path.hexPrefix_eq_composed]
  | case3 first second more nibble rest hlead ih =>
      rw [tree_extension (by simp) hlead, Node.encoding_eq_form rfl, Node.form,
        Node.extensionForm, Rlp.list_eq_composed, Rlp.string_eq_composed,
        Path.hexPrefix_eq_composed, reference_tree ih]
  | case4 first second more hlead ih =>
      have hslots : ∀ slot, ((Slots.ofList ((List.finRange 16).map fun slot ↦
          (beyond [slot] (first :: second :: more)).tree)).node slot).reference =
            Composed.cap (form (beyond [slot] (first :: second :: more))) := by
        intro slot
        rw [Slots.node_ofList, ← reference_tree (ih slot)]
        simp
      rw [tree_branch (by simp) hlead, Node.encoding_eq_form rfl, Node.ofSlots, Node.form,
        Node.branchForm, Rlp.list_eq_composed, Rlp.string_eq_composed, funext hslots]

end Table

end Patricia
