import Mathlib.Algebra.GroupWithZero.Nat
import Mathlib.Data.List.Forall2
import Patricia.Rlp.Item

/-!
# Items written and read back

A string or a list whose length fits in 64 bits is read back as it was written, and so are items
written one after the other (`Item.readAll_flatten`).
-/

namespace Patricia.Rlp

/-! ## Numbers -/

/-- No number but zero is written without bytes. -/
theorem bigEndian_ne_nil {n : Nat} (h : n ≠ 0) : bigEndian n ≠ [] := by
  rw [bigEndian, if_neg h]
  exact List.append_ne_nil_of_right_ne_nil _ (List.cons_ne_nil _ _)

/-- The bytes of a number write the number. -/
theorem ofBigEndian_bigEndian (n : Nat) : ofBigEndian (bigEndian n) = n := by
  fun_induction bigEndian n with
  | case1 => rfl
  | case2 n hne ih =>
      rw [ofBigEndian] at ih ⊢
      rw [List.foldl_append, ih, List.foldl_cons, List.foldl_nil, UInt8.toNat_ofNat']
      omega

/-- The first byte of a number is not zero. -/
theorem head_bigEndian (n : Nat) : (bigEndian n).head? ≠ some 0 := by
  fun_induction bigEndian n with
  | case1 => simp
  | case2 n hne ih =>
      by_cases hzero : n / 256 = 0
      · rw [hzero, bigEndian, if_pos rfl]
        simp only [List.nil_append, List.head?_cons, ne_eq, Option.some.injEq]
        intro hbyte
        have hnat := congrArg UInt8.toNat hbyte
        rw [UInt8.toNat_ofNat', UInt8.toNat_zero] at hnat
        omega
      · rwa [List.head?_append_of_ne_nil _ (bigEndian_ne_nil hzero)]

/-- A number is written with as many bytes as it has digits. -/
theorem length_bigEndian_le {n count : Nat} (h : n < 256 ^ count) :
    (bigEndian n).length ≤ count := by
  induction count generalizing n with
  | zero =>
      have hzero : n = 0 := by simpa using h
      rw [hzero, bigEndian, if_pos rfl]
      exact Nat.le_refl 0
  | succ count ih =>
      rw [bigEndian]
      split
      · exact Nat.zero_le _
      · have hdiv : n / 256 < 256 ^ count := by
          rw [Nat.pow_succ] at h
          exact Nat.div_lt_of_lt_mul (Nat.mul_comm _ _ ▸ h)
        rw [List.length_append, List.length_singleton]
        exact Nat.succ_le_succ (ih hdiv)

/-! ## Headers -/

namespace Item

/-- The class of a first byte by its number. -/
theorem Lead.ofByte_eq (byte : UInt8) :
    Lead.ofByte byte =
      if byte.toNat < 128 then .single
      else if byte.toNat < 184 then .short false (byte.toNat - 128)
      else if byte.toNat < 192 then .long false (byte.toNat - 183)
      else if byte.toNat < 248 then .short true (byte.toNat - 192)
      else .long true (byte.toNat - 247) := by
  simp only [Lead.ofByte, UInt8.lt_iff_toNat_lt]
  rfl

/-- Cutting takes what is in front. -/
theorem cut_append (isList : Bool) (payload rest : Bytes) :
    cut isList payload.length (payload ++ rest) = .ok (⟨isList, payload⟩, rest) := by
  simp [cut]

/-- The first byte of the header of an item without payload. -/
def base (isList : Bool) : UInt8 :=
  if isList then 0xc0 else 0x80

/-- A short header announces the length of its payload. -/
theorem Lead.ofByte_short (isList : Bool) {length : Nat} (h : length < 56) :
    Lead.ofByte (base isList + UInt8.ofNat length) = .short isList length := by
  cases isList with
  | true =>
      have hbase : (base true).toNat = 192 := rfl
      have hnat : (base true + UInt8.ofNat length).toNat = 192 + length := by
        rw [UInt8.toNat_add, UInt8.toNat_ofNat', hbase]
        omega
      rw [Lead.ofByte_eq, hnat, if_neg (by omega), if_neg (by omega), if_neg (by omega),
        if_pos (by omega), Nat.add_sub_cancel_left]
  | false =>
      have hbase : (base false).toNat = 128 := rfl
      have hnat : (base false + UInt8.ofNat length).toNat = 128 + length := by
        rw [UInt8.toNat_add, UInt8.toNat_ofNat', hbase]
        omega
      rw [Lead.ofByte_eq, hnat, if_neg (by omega), if_pos (by omega), Nat.add_sub_cancel_left]

/-- A long header announces the length of its payload's length. -/
theorem Lead.ofByte_long (isList : Bool) {count : Nat} (hpos : 0 < count) (h : count ≤ 8) :
    Lead.ofByte (base isList + 55 + UInt8.ofNat count) = .long isList count := by
  cases isList with
  | true =>
      have hbase : (base true + 55).toNat = 247 := rfl
      have hnat : (base true + 55 + UInt8.ofNat count).toNat = 247 + count := by
        rw [UInt8.toNat_add, UInt8.toNat_ofNat', hbase]
        omega
      rw [Lead.ofByte_eq, hnat, if_neg (by omega), if_neg (by omega), if_neg (by omega),
        if_neg (by omega), Nat.add_sub_cancel_left]
  | false =>
      have hbase : (base false + 55).toNat = 183 := rfl
      have hnat : (base false + 55 + UInt8.ofNat count).toNat = 183 + count := by
        rw [UInt8.toNat_add, UInt8.toNat_ofNat', hbase]
        omega
      rw [Lead.ofByte_eq, hnat, if_neg (by omega), if_neg (by omega), if_pos (by omega),
        Nat.add_sub_cancel_left]

/-- An item whose payload is led by its header is read, unless it is a single byte that needs no
header. -/
theorem read_header (isList : Bool) (payload rest : Bytes) (hlength : payload.length < 2 ^ 64)
    (hsingle : isList = false → payload.length = 1 → payload.head?.any (· < 0x80) = false) :
    read (header (base isList) payload.length ++ payload ++ rest) =
      .ok (⟨isList, payload⟩, rest) := by
  by_cases hshort : payload.length < 56
  · have hcanonical : (!isList && payload.length == 1 &&
        (payload ++ rest).head?.any (· < 0x80)) = false := by
      cases isList with
      | true => rfl
      | false =>
          by_cases hone : payload.length = 1
          · match payload, hone with
            | [byte], _ => simpa using hsingle rfl rfl
          · simp [hone]
    rw [header, if_pos hshort, List.append_assoc, List.singleton_append, read,
      Lead.ofByte_short isList hshort]
    simp only [hcanonical, Bool.false_eq_true, if_false]
    exact cut_append isList payload rest
  · have hdigits : (bigEndian payload.length).length ≤ 8 := length_bigEndian_le (by omega)
    have hne : bigEndian payload.length ≠ [] := bigEndian_ne_nil (by omega)
    have hlead := Lead.ofByte_long isList (List.length_pos_iff.mpr hne) hdigits
    rw [header, if_neg hshort]
    simp only [List.cons_append, read, hlead, List.append_assoc]
    simp only [cutLong, List.splitAt_eq, List.take_left, List.drop_left, Nat.lt_irrefl, if_false,
      head_bigEndian, ofBigEndian_bigEndian, hshort]
    exact cut_append isList payload rest

/-! ## Items one after the other -/

/-- Some bytes are read as an item, whatever follows them. -/
def WrittenAs (item : Item) (bytes : Bytes) : Prop :=
  ∀ rest, read (bytes ++ rest) = .ok (item, rest)

/-- A written string is read back. -/
theorem writtenAs_string (bytes : Bytes) (h : bytes.length < 2 ^ 64) :
    WrittenAs ⟨false, bytes⟩ (Rlp.string bytes) := by
  intro rest
  cases bytes with
  | nil => exact read_header false [] rest h fun _ hone ↦ absurd hone (by simp)
  | cons byte more =>
      cases more with
      | nil =>
          rw [Rlp.string]
          split
          · rename_i hlt
            have hnat : byte.toNat < 128 := hlt
            rw [List.singleton_append, read, Lead.ofByte_eq, if_pos hnat]
          · rename_i hlt
            exact read_header false [byte] rest h fun _ _ ↦ by simpa using hlt
      | cons second more => exact read_header false _ rest h fun _ hone ↦ absurd hone (by simp)

/-- A written list is read back. -/
theorem writtenAs_list (payload : Bytes) (h : payload.length < 2 ^ 64) :
    WrittenAs ⟨true, payload⟩ (Rlp.list payload) :=
  fun rest ↦ read_header true payload rest h nofun

/-- Nothing is read from no bytes. -/
theorem WrittenAs.ne_nil {item : Item} {bytes : Bytes} (h : item.WrittenAs bytes) :
    bytes ≠ [] := by
  rintro rfl
  cases h []

/-- Items written one after the other are all read back. -/
theorem readAll_flatten {items : List Item} {pieces : List Bytes}
    (h : List.Forall₂ WrittenAs items pieces) : readAll pieces.flatten = .ok items := by
  induction h with
  | nil =>
      rw [readAll]
      rfl
  | cons hitem hitems ih =>
      rename_i item piece items pieces
      have hne : (piece ++ pieces.flatten).isEmpty = false := by
        simp [hitem.ne_nil]
      rw [List.flatten_cons, readAll, if_neg (by simp [hne])]
      split
      · rename_i herror
        rw [hitem] at herror
        cases herror
      · rename_i hok
        rw [hitem] at hok
        cases hok
        rw [ih]

end Item

end Patricia.Rlp
