import Patricia.Path.HexPrefix

/-!
# The hex-prefix form, written and read

The form of a path is its nibbles behind the flags, packed two a byte (`Path.hexPrefix_eq`). Reading
it gives the path back (`Path.ofHexPrefix_hexPrefix`).
-/

namespace Patricia

/-- Nibbles packed two a byte. A last nibble without a partner is left out. -/
def packNibbles : List Nibble → Bytes
  | high :: low :: rest => UInt8.ofNat (16 * high.val + low.val) :: packNibbles rest
  | _ => []

/-- Packing the symbols of two nibbles puts the first one high. -/
theorem packPair_nibbleSymbol (high low : Nibble) :
    packPair (nibbleSymbol high) (nibbleSymbol low) = UInt8.ofNat (16 * high.val + low.val) := by
  revert high low
  decide

/-- Packing the symbols of nibbles is packing the nibbles. -/
theorem packPairs_map (nibbles : List Nibble) :
    Symbols.packPairs (nibbles.map nibbleSymbol) = packNibbles nibbles := by
  fun_induction packNibbles nibbles with
  | case1 high low rest ih =>
      rw [List.map_cons, List.map_cons, Symbols.packPairs, packPair_nibbleSymbol, ih]
  | case2 nibbles hno =>
      match nibbles with
      | [] => rfl
      | [nibble] => rfl
      | high :: low :: rest => exact (hno high low rest rfl).elim

/-- Unpacking gives the nibbles back if each has a partner. -/
theorem nibbles_packNibbles (nibbles : List Nibble) (heven : nibbles.length % 2 = 0) :
    (packNibbles nibbles).nibbles = nibbles := by
  fun_induction packNibbles nibbles with
  | case1 high low rest ih =>
      have hrest : rest.length % 2 = 0 := by
        simp only [List.length_cons] at heven
        omega
      have hhigh : highNibble (UInt8.ofNat (16 * high.val + low.val)) = high := by
        ext
        simp only [highNibble, UInt8.toNat_ofNat']
        omega
      have hlow : lowNibble (UInt8.ofNat (16 * high.val + low.val)) = low := by
        ext
        simp only [lowNibble, UInt8.toNat_ofNat']
        omega
      rw [Bytes.nibbles, List.flatMap_cons, hhigh, hlow]
      exact congrArg (high :: low :: ·) (ih hrest)
  | case2 nibbles hno =>
      match nibbles with
      | [] => rfl
      | [nibble] => simp at heven
      | high :: low :: rest => exact (hno high low rest rfl).elim

/-- The nibbles of a path behind its flags, an even path padded. -/
def flagged (nibbles : List Nibble) (terminated : Bool) : List Nibble :=
  let flag : UInt8 := if terminated then 2 else 0
  if nibbles.length % 2 = 1 then lowNibble (flag + 1) :: nibbles
  else lowNibble flag :: lowNibble 0 :: nibbles

/-- Flags and padding make the number of nibbles even. -/
theorem length_flagged (nibbles : List Nibble) (terminated : Bool) :
    (flagged nibbles terminated).length % 2 = 0 := by
  rw [flagged]
  split <;> simp only [List.length_cons] <;> omega

/-- No nibble is written like the terminator. -/
theorem nibbleSymbol_ne_terminator (nibble : Nibble) : nibbleSymbol nibble ≠ terminator := by
  revert nibble
  decide

namespace Path

/-- A path is written with a terminator exactly when it has one. -/
theorem isTerminated_symbols (path : Path) : path.symbols.isTerminated = path.terminated := by
  obtain ⟨nibbles, terminated⟩ := path
  cases terminated with
  | true => simp [symbols, Symbols.isTerminated]
  | false =>
      rw [Bool.eq_false_iff]
      intro hlast
      simp only [symbols, Symbols.isTerminated, Bool.false_eq_true, if_false, List.append_nil,
        beq_iff_eq, List.getLast?_map, Option.map_eq_some_iff] at hlast
      obtain ⟨nibble, -, hnibble⟩ := hlast
      exact nibbleSymbol_ne_terminator nibble hnibble

/-- The form of a path is its nibbles behind the flags, packed. -/
theorem hexPrefix_eq (path : Path) :
    path.hexPrefix = packNibbles (flagged path.nibbles path.terminated) := by
  have hfront : (if path.symbols.isTerminated then path.symbols.dropLast else path.symbols) =
      path.nibbles.map nibbleSymbol := by
    rw [isTerminated_symbols]
    obtain ⟨nibbles, terminated⟩ := path
    cases terminated <;> simp [symbols]
  rw [hexPrefix, Symbols.hexPrefix, hfront, isTerminated_symbols, ← packPairs_map, flagged,
    List.length_map]
  obtain ⟨nibbles, terminated⟩ := path
  rcases Nat.mod_two_eq_zero_or_one nibbles.length with heven | hodd
  · rw [heven]
    cases terminated <;> rfl
  · rw [hodd]
    cases terminated <;> rfl

/-- Reading the form of a path gives the path. -/
theorem ofHexPrefix_hexPrefix (path : Path) : ofHexPrefix path.hexPrefix = .ok path := by
  rw [ofHexPrefix, hexPrefix_eq, nibbles_packNibbles _ (length_flagged _ _), flagged]
  obtain ⟨nibbles, terminated⟩ := path
  have hflags : lowNibble 0 = 0 ∧ lowNibble 1 = 1 ∧ lowNibble 2 = 2 ∧ (lowNibble 3).val = 3 :=
    ⟨rfl, rfl, rfl, rfl⟩
  by_cases hodd : nibbles.length % 2 = 1
  · rw [if_pos hodd]
    cases nibbles with
    | nil => simp at hodd
    | cons first rest => cases terminated <;> simp [hflags]
  · rw [if_neg hodd]
    cases terminated <;> simp [hflags]

end Path

end Patricia
