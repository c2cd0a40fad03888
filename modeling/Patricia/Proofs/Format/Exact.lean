import Mathlib.Data.List.Induction
import Patricia.Proofs.Format.Reading

/-!
# Only what is written is read

There is one form for each item and each path, and no other bytes are read as it
(`Rlp.Item.eq_form_of_read`, `Path.hexPrefix_of_read`).
-/

namespace Patricia

namespace Rlp

/-- Bytes that do not begin with zero are those of the number that they write. -/
theorem bigEndian_ofBigEndian {digits : Bytes} (h : digits.head? ≠ some 0) :
    bigEndian (ofBigEndian digits) = digits := by
  induction digits using List.reverseRecOn with
  | nil =>
      rw [bigEndian]
      rfl
  | append_singleton front last ih =>
      have hsum : ofBigEndian (front ++ [last]) = ofBigEndian front * 256 + last.toNat := by
        simp [ofBigEndian]
      have hlast := last.toNat_lt
      have hdiv : ofBigEndian (front ++ [last]) / 256 = ofBigEndian front := by omega
      have hbyte : UInt8.ofNat (ofBigEndian (front ++ [last])) = last := by
        rw [← UInt8.toNat_inj, UInt8.toNat_ofNat', hsum]
        omega
      have hfront : bigEndian (ofBigEndian front) = front := by
        cases front with
        | nil =>
            rw [bigEndian]
            rfl
        | cons first rest => exact ih h
      have hne : ofBigEndian (front ++ [last]) ≠ 0 := by
        intro hzero
        -- Then the front writes zero as well, so it has no bytes, and the last one would be zero.
        rw [hzero] at hdiv hbyte
        rw [← hdiv, bigEndian, if_pos rfl] at hfront
        subst hfront hbyte
        exact h rfl
      rw [bigEndian, if_neg hne, hdiv, hbyte, hfront]

namespace Item

variable {isList : Bool} {count : Nat} {bytes rest : Bytes} {item : Item} {items : List Item}

/-- The written form of an item. -/
def form (item : Item) : Bytes :=
  if item.isList then Rlp.list item.payload else Rlp.string item.payload

/-- An item is written as its payload behind a header, unless it is a byte that needs none. -/
theorem form_eq_header (h : item.isList = false → item.payload.length = 1 →
      item.payload.head?.any (· < 0x80) = false) :
    item.form = header (base item.isList) item.payload.length ++ item.payload := by
  obtain ⟨isList, payload⟩ := item
  cases isList with
  | true => rfl
  | false =>
      match payload with
      | [] => rfl
      | [byte] =>
          have hbyte : ¬byte < 0x80 := by simpa using h rfl rfl
          exact if_neg hbyte
      | _ :: _ :: _ => rfl

/-- A cut takes its payload from the front. -/
theorem eq_append_of_cut (h : cut isList count bytes = .ok (item, rest)) :
    item.isList = isList ∧ item.payload.length = count ∧ bytes = item.payload ++ rest := by
  have hle := length_le_of_cut h
  simp only [cut, List.splitAt_eq] at h
  split at h
  · cases h
  · cases h
    exact ⟨rfl, List.length_take_of_le hle, (List.take_append_drop count bytes).symm⟩

/-- A first byte that announces a short payload is the header of one. -/
theorem Lead.short_eq {byte : UInt8} (h : Lead.ofByte byte = .short isList count) :
    count < 56 ∧ byte = base isList + UInt8.ofNat count := by
  have hlt := byte.toNat_lt
  rw [Lead.ofByte_eq] at h
  split at h
  · cases h
  split at h
  · cases h
    refine ⟨by omega, UInt8.toNat_inj.mp ?_⟩
    rw [UInt8.toNat_add, UInt8.toNat_ofNat', show (base false).toNat = 128 from rfl]
    omega
  split at h
  · cases h
  split at h
  · cases h
    refine ⟨by omega, UInt8.toNat_inj.mp ?_⟩
    rw [UInt8.toNat_add, UInt8.toNat_ofNat', show (base true).toNat = 192 from rfl]
    omega
  · cases h

/-- A first byte that announces a long payload begins the header of one. -/
theorem Lead.long_eq {byte : UInt8} (h : Lead.ofByte byte = .long isList count) :
    byte = base isList + 55 + UInt8.ofNat count := by
  have hlt := byte.toNat_lt
  rw [Lead.ofByte_eq] at h
  split at h
  · cases h
  split at h
  · cases h
  split at h
  · cases h
    refine UInt8.toNat_inj.mp ?_
    rw [UInt8.toNat_add, UInt8.toNat_ofNat', show (base false + 55).toNat = 183 from rfl]
    omega
  split at h
  · cases h
  · cases h
    refine UInt8.toNat_inj.mp ?_
    rw [UInt8.toNat_add, UInt8.toNat_ofNat', show (base true + 55).toNat = 247 from rfl]
    omega

/-- The bytes of a long item are its header and its payload. -/
theorem eq_header_of_cutLong (h : cutLong isList count bytes = .ok (item, rest)) :
    item.isList = isList ∧ ∃ digits, digits.length = count ∧
      bytes = digits ++ item.payload ++ rest ∧ 56 ≤ item.payload.length ∧
        bigEndian item.payload.length = digits := by
  simp only [cutLong, List.splitAt_eq] at h
  split at h
  · cases h
  · rename_i hcount
    split at h
    · cases h
    · rename_i hlead
      split at h
      · cases h
      · rename_i hsize
        obtain ⟨hlist, hlength, hdrop⟩ := eq_append_of_cut h
        refine ⟨hlist, bytes.take count, ?_, ?_, by omega, ?_⟩
        · rw [List.length_take] at hcount ⊢
          omega
        · rw [List.append_assoc, ← hdrop, List.take_append_drop]
        · rw [hlength]
          exact bigEndian_ofBigEndian hlead

/-- What is read as an item is the form of the item. -/
theorem eq_form_of_read (h : read bytes = .ok (item, rest)) : bytes = item.form ++ rest := by
  cases bytes with
  | nil => cases h
  | cons lead tail =>
      rw [read] at h
      cases hlead : Lead.ofByte lead with
      | single =>
          rw [hlead] at h
          cases h
          have hlt : lead < 0x80 := by
            by_contra hnot
            rw [Lead.ofByte, if_neg hnot] at hlead
            split at hlead
            · cases hlead
            split at hlead
            · cases hlead
            split at hlead <;> cases hlead
          show lead :: rest = Rlp.string [lead] ++ rest
          rw [Rlp.string, if_pos hlt]
          rfl
      | short isList length =>
          rw [hlead] at h
          dsimp only at h
          split at h
          · cases h
          · rename_i hcanonical
            obtain ⟨rfl, rfl, rfl⟩ := eq_append_of_cut h
            obtain ⟨hshort, rfl⟩ := Lead.short_eq hlead
            rw [form_eq_header, header, if_pos hshort]
            · rfl
            · intro hlist hone
              obtain ⟨byte, hbyte⟩ := List.length_eq_one_iff.mp hone
              simpa [hlist, hbyte] using hcanonical
      | long isList count =>
          rw [hlead] at h
          obtain ⟨rfl, digits, rfl, rfl, hlong, rfl⟩ := eq_header_of_cutLong h
          obtain rfl := Lead.long_eq hlead
          rw [form_eq_header fun _ hone ↦ by omega, header, if_neg (by omega)]
          simp

end Item

end Rlp

/-! ## Paths -/

/-- Packing the nibbles of bytes gives the bytes back. -/
theorem packNibbles_nibbles (bytes : Bytes) : packNibbles bytes.nibbles = bytes := by
  induction bytes with
  | nil => rfl
  | cons byte bytes ih =>
      have hbyte : UInt8.ofNat (16 * (highNibble byte).val + (lowNibble byte).val) = byte := by
        rw [← UInt8.toNat_inj, UInt8.toNat_ofNat']
        have hlt := byte.toNat_lt
        simp only [highNibble, lowNibble]
        omega
      rw [Bytes.nibbles, List.flatMap_cons]
      exact congrArg₂ List.cons hbyte ih

/-- Bytes have an even number of nibbles. -/
theorem length_nibbles (bytes : Bytes) : bytes.nibbles.length = 2 * bytes.length := by
  induction bytes with
  | nil => rfl
  | cons byte bytes ih =>
      rw [Bytes.nibbles] at ih ⊢
      rw [List.flatMap_cons, List.length_append, ih, List.length_cons]
      simp only [List.length_cons, List.length_nil]
      omega

/-- The flags of a path make up the first nibble of its form. -/
theorem lowNibble_flag (flag : Nibble) (h : flag.val ≤ 3) :
    lowNibble ((if decide (2 ≤ flag.val) then 2 else 0) + if flag.val % 2 = 1 then 1 else 0) =
      flag := by
  revert flag
  decide

/-- What is read as a path is the form of the path. -/
theorem Path.hexPrefix_of_read {bytes : Bytes} {path : Path} (h : ofHexPrefix bytes = .ok path) :
    path.hexPrefix = bytes := by
  have heven := length_nibbles bytes
  rw [hexPrefix_eq, ← packNibbles_nibbles bytes]
  refine congrArg packNibbles ?_
  rw [ofHexPrefix] at h
  split at h
  · rename_i flag first rest hnibbles
    rw [hnibbles, List.length_cons, List.length_cons] at heven
    rw [hnibbles]
    dsimp only at h
    split at h
    · cases h
    · rename_i hflag
      have hlow := lowNibble_flag flag (Nat.not_lt.mp hflag)
      split at h
      · cases h
      · rename_i hpadding
        cases h
        rw [flagged]
        rcases Nat.mod_two_eq_zero_or_one flag.val with hzero | hone
        · have hfirst : first = 0 := by simpa [hzero] using hpadding
          simp only [hzero, Nat.zero_ne_one, if_false, UInt8.add_zero] at hlow
          simp only [hzero, Nat.reduceBEq, Bool.false_eq_true, if_false]
          rw [if_neg (by omega), hlow, hfirst]
          rfl
        · simp only [hone, if_true] at hlow
          simp only [hone, BEq.rfl, if_true, List.length_cons]
          rw [if_pos (by omega), hlow]
  · cases h

end Patricia
