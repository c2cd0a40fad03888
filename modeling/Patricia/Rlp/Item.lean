import Patricia.Fault

/-!
# RLP items

An item is a byte string or a list, written as a header with its length and a payload. This module
writes strings and lists (`Rlp.string`, `Rlp.list`), reads the item at the front of a byte string
(`Item.read`) and the run of items in a payload (`Item.readAll`). A byte below `80` is a string of
its own; every other item has exactly one header that is read back, the shortest one.
-/

namespace Patricia.Rlp

/-- The bytes of a number, the most significant first and without leading zeros. -/
def bigEndian (n : Nat) : Bytes :=
  if n = 0 then [] else bigEndian (n / 256) ++ [UInt8.ofNat n]

/-- The number that bytes write, the most significant first. -/
def ofBigEndian (bytes : Bytes) : Nat :=
  bytes.foldl (fun sum byte ↦ sum * 256 + byte.toNat) 0

/-- The header of a payload, where `base` is the header of the empty one. Lengths above 55 are
written out after the length of their own bytes. -/
def header (base : UInt8) (length : Nat) : Bytes :=
  if length < 56 then [base + UInt8.ofNat length]
  else
    let digits := bigEndian length
    (base + 55 + UInt8.ofNat digits.length) :: digits

/-- The written form of a byte string. -/
def string (bytes : Bytes) : Bytes :=
  match bytes with
  | [byte] => if byte < 0x80 then [byte] else [0x81, byte]
  | _ => header 0x80 bytes.length ++ bytes

/-- The written form of a list whose items are written one after the other in the payload. -/
def list (payload : Bytes) : Bytes :=
  header 0xc0 payload.length ++ payload

/-- An item that was read: a list of the items in its payload, or the string that is its
payload. -/
structure Item where
  isList : Bool
  payload : Bytes
deriving DecidableEq

namespace Item

/-- The item whose payload is the given number of bytes from the front, and what follows it. -/
def cut (isList : Bool) (length : Nat) (bytes : Bytes) : Except DecodeError (Item × Bytes) :=
  let (payload, rest) := bytes.splitAt length
  if payload.length < length then .error .inputTooShort else .ok (⟨isList, payload⟩, rest)

/-- The item whose header continues with the given number of length bytes. -/
def cutLong (isList : Bool) (count : Nat) (bytes : Bytes) : Except DecodeError (Item × Bytes) :=
  let (digits, rest) := bytes.splitAt count
  if digits.length < count then .error .inputTooShort
  else if digits.head? = some 0 then .error .leadingZero
  else
    let length := ofBigEndian digits
    if length < 56 then .error .nonCanonicalSize else cut isList length rest

/-- What the first byte of an item announces: a string of this one byte, a payload of a known
length, or a length that takes a number of bytes itself. -/
inductive Lead where
  | single
  | short (isList : Bool) (length : Nat)
  | long (isList : Bool) (count : Nat)

/-- The announcement of a first byte. -/
def Lead.ofByte (byte : UInt8) : Lead :=
  if byte < 0x80 then .single
  else if byte < 0xb8 then .short false (byte.toNat - 0x80)
  else if byte < 0xc0 then .long false (byte.toNat - 0xb7)
  else if byte < 0xf8 then .short true (byte.toNat - 0xc0)
  else .long true (byte.toNat - 0xf7)

/-- The item at the front of a byte string, and what follows it. A string of one byte below `80`
must not have a header. -/
def read : Bytes → Except DecodeError (Item × Bytes)
  | [] => .error .inputTooShort
  | lead :: rest =>
    match Lead.ofByte lead with
    | .single => .ok (⟨false, [lead]⟩, rest)
    | .short isList length =>
        if !isList && length == 1 && rest.head?.any (· < 0x80) then .error .nonCanonicalByte
        else cut isList length rest
    | .long isList count => cutLong isList count rest

/-- What follows a cut is no longer than what it was taken from. -/
theorem length_of_cut {isList : Bool} {length : Nat} {bytes rest : Bytes} {item : Item}
    (h : cut isList length bytes = .ok (item, rest)) :
    item.payload.length + rest.length = bytes.length := by
  simp only [cut, List.splitAt_eq] at h
  split at h
  · cases h
  · cases h
    simp only [List.length_take, List.length_drop]
    omega

/-- A long header only adds to what is taken away. -/
theorem length_of_cutLong {isList : Bool} {count : Nat} {bytes rest : Bytes} {item : Item}
    (h : cutLong isList count bytes = .ok (item, rest)) :
    item.payload.length + rest.length ≤ bytes.length := by
  simp only [cutLong, List.splitAt_eq] at h
  split at h
  · cases h
  split at h
  · cases h
  split at h
  · cases h
  have := length_of_cut h
  simp only [List.length_drop] at this
  omega

/-- Reading an item takes its payload and at least one byte. A list takes its header as well. -/
theorem length_of_read {bytes rest : Bytes} {item : Item} (h : read bytes = .ok (item, rest)) :
    item.payload.length + rest.length ≤ bytes.length ∧ rest.length < bytes.length ∧
      (item.isList → item.payload.length + rest.length < bytes.length) := by
  match bytes with
  | [] => simp [read] at h
  | lead :: tail =>
    simp only [read] at h
    split at h
    · cases h
      simp only [List.length_cons, List.length_nil]
      exact ⟨by omega, by omega, nofun⟩
    · split at h
      · cases h
      · have := length_of_cut h
        simp only [List.length_cons]
        omega
    · have := length_of_cutLong h
      simp only [List.length_cons]
      omega

/-- The items written one after the other in a payload. The headers of all of them are read, and
nothing inside them. -/
def readAll (bytes : Bytes) : Except DecodeError (List Item) :=
  if bytes.isEmpty then .ok []
  else
    match h : read bytes with
    | .error cause => .error cause
    | .ok (item, rest) =>
        have : rest.length < bytes.length := (length_of_read h).2.1
        match readAll rest with
        | .error cause => .error cause
        | .ok items => .ok (item :: items)
termination_by bytes.length

/-- The bytes of an item that has to be a string. -/
def string (item : Item) : Except DecodeError Bytes :=
  if item.isList then .error .unexpectedList else .ok item.payload

end Item

end Patricia.Rlp
