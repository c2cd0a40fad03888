import Patricia.Proofs.Format.Exact
import Patricia.Proofs.Guarded.Symbols

/-!
# Packed paths

Each path is packed in one byte string, and a byte string packs one path at most. So writing the
hex-prefix form and reading it undo each other on paths as symbols and on packed byte strings, and
the packed ones are told by their first byte (`Path.hexPrefix_bijective`). `Path.PackedIn` says what
packing is by the nibbles of the bytes, without writing or reading them.
-/

namespace Patricia

/-- A symbol below the terminator is that of a nibble. -/
theorem nibbleSymbol_lowNibble {symbol : UInt8} (hle : symbol ≤ terminator)
    (hne : symbol ≠ terminator) : nibbleSymbol (lowNibble symbol) = symbol := by
  have hnat : symbol.toNat ≤ 16 := hle
  have hnat' : symbol.toNat ≠ 16 := fun h ↦ hne (UInt8.toNat_inj.mp h)
  rw [← UInt8.toNat_inj, toNat_nibbleSymbol, lowNibble]
  exact Nat.mod_eq_of_lt (by omega)

/-- Bytes begin with the nibbles of their first byte. -/
theorem nibbles_cons (first : UInt8) (rest : Bytes) :
    Bytes.nibbles (first :: rest) = highNibble first :: lowNibble first :: rest.nibbles :=
  rfl

/-- The bytes begin like those of a packed path: with flags of at most 3, and with a zero after them
if they are even. -/
def Packed (bytes : Bytes) : Prop :=
  ∃ first rest, bytes = first :: rest ∧ (highNibble first).val ≤ 3 ∧
    ((highNibble first).val % 2 = 0 → (lowNibble first).val = 0)

/-- Why bytes are not packed: there are none, their flags are above 3, or their flags are even and
not followed by a zero. -/
inductive Unpacked : Bytes → DecodeError → Prop
  | nothing : Unpacked [] .inputTooShort
  | flag {first : UInt8} {rest : Bytes} (hflag : 3 < (highNibble first).val) :
      Unpacked (first :: rest) .pathFlag
  | padding {first : UInt8} {rest : Bytes} (hflag : (highNibble first).val ≤ 3)
      (heven : (highNibble first).val % 2 = 0) (hlow : (lowNibble first).val ≠ 0) :
      Unpacked (first :: rest) .pathPadding

namespace Path

variable {symbols : Symbols} {bytes : Bytes} {path : Path} {cause : DecodeError}

/-- The bytes pack a path: their nibbles are the flags, 2 for a path that ends a key and 1 for an
odd number of nibbles, then a zero if that number is even, and then the nibbles of the path. -/
def PackedIn (path : Path) (bytes : Bytes) : Prop :=
  ∃ flags : Nibble,
    flags.val = (if path.terminated then 2 else 0) + path.nibbles.length % 2 ∧
      bytes.nibbles =
        flags ::
          (if path.nibbles.length % 2 = 1 then path.nibbles else lowNibble 0 :: path.nibbles)

/-- What is taken for a path is written as it was. -/
theorem symbols_of_ofSymbols (h : ofSymbols symbols = .ok path) : path.symbols = symbols := by
  rw [ofSymbols] at h
  obtain ⟨⟨⟩, hcheck, h⟩ := bind_eq_ok h
  cases h
  rw [Symbols.check] at hcheck
  split at hcheck
  · cases hcheck
  · rename_i hinside
    split at hcheck
    · rename_i hall
      simp only [List.all_eq_true, decide_eq_true_eq] at hall
      have hfront : ∀ front : Symbols, front ⊆ symbols → terminator ∉ front →
          (front.map lowNibble).map nibbleSymbol = front := by
        intro front hsub hnone
        rw [List.map_map, List.map_congr_left (g := id), List.map_id]
        intro symbol hmem
        exact nibbleSymbol_lowNibble (hall symbol (hsub hmem)) fun heq ↦ hnone (heq ▸ hmem)
      cases hlast : symbols.isTerminated with
      | true =>
          rw [Symbols.isTerminated, beq_iff_eq] at hlast
          rw [if_pos rfl, symbols_ending, hfront _ (List.dropLast_subset _) hinside]
          exact List.dropLast_append_getLast? terminator hlast
      | false =>
          rw [Symbols.isTerminated, beq_eq_false_iff_ne] at hlast
          rw [if_neg Bool.false_ne_true, symbols_onward, hfront _ (List.Subset.refl _)]
          intro hmem
          -- The terminator is not among the symbols before the last one, so it is the last one.
          have hne := List.ne_nil_of_mem hmem
          rw [← List.dropLast_append_getLast hne, List.mem_append, List.mem_singleton] at hmem
          rw [List.getLast?_eq_some_getLast hne] at hlast
          exact hlast (congrArg some (hmem.resolve_left hinside).symm)
    · cases hcheck

/-- Bytes are read as a path exactly if they are the form of the path. -/
theorem ofHexPrefix_eq_ok_iff : ofHexPrefix bytes = .ok path ↔ path.hexPrefix = bytes :=
  ⟨hexPrefix_of_read, fun h ↦ h ▸ ofHexPrefix_hexPrefix path⟩

/-- Bytes pack a path exactly if their nibbles are those of the path behind its flags. -/
theorem packedIn_iff_nibbles :
    path.PackedIn bytes ↔ bytes.nibbles = flagged path.nibbles path.terminated := by
  have hflags : ∀ (byte : UInt8) (rest : List Nibble),
      (∃ flags : Nibble, flags.val = (lowNibble byte).val ∧ bytes.nibbles = flags :: rest) ↔
        bytes.nibbles = lowNibble byte :: rest := by
    intro byte rest
    simp only [← Fin.ext_iff, exists_eq_left]
  obtain ⟨nibbles, terminated⟩ := path
  rw [PackedIn, flagged]
  rcases Nat.mod_two_eq_zero_or_one nibbles.length with hzero | hone
  · simp only [hzero, Nat.zero_ne_one, if_false]
    cases terminated with
    | false => exact hflags 0 _
    | true => exact hflags 2 _
  · simp only [hone, if_true]
    cases terminated with
    | false => exact hflags 1 _
    | true => exact hflags 3 _

/-- Bytes pack a path exactly if they are the form of the path. -/
theorem packedIn_iff : path.PackedIn bytes ↔ path.hexPrefix = bytes := by
  rw [packedIn_iff_nibbles, hexPrefix_eq]
  constructor
  · intro h
    rw [← h, packNibbles_nibbles]
  · intro h
    rw [← h, nibbles_packNibbles _ (length_flagged _ _)]

/-- Packed bytes are not those of which it is said why they are not packed, and all others are. -/
theorem not_packed_iff : ¬Packed bytes ↔ ∃ cause, Unpacked bytes cause := by
  cases bytes with
  | nil => exact ⟨fun _ ↦ ⟨_, .nothing⟩, by rintro - ⟨first, rest, heq, -⟩; cases heq⟩
  | cons first rest =>
      constructor
      · intro h
        by_cases hflag : 3 < (highNibble first).val
        · exact ⟨_, .flag hflag⟩
        · rw [Nat.not_lt] at hflag
          by_contra hnone
          refine h ⟨first, rest, rfl, hflag, fun heven ↦ ?_⟩
          by_contra hlow
          exact hnone ⟨_, .padding hflag heven hlow⟩
      · rintro ⟨cause, hcause⟩ ⟨_, _, heq, hflag, hlow⟩
        cases heq
        cases hcause with
        | flag habove => exact Nat.not_lt.mpr hflag habove
        | padding _ heven hnonzero => exact hnonzero (hlow heven)

/-- Bytes are refused as a path for the reason why they are not packed. -/
theorem ofHexPrefix_eq_error_iff :
    ofHexPrefix bytes = .error cause ↔ Unpacked bytes cause := by
  cases bytes with
  | nil =>
      constructor
      · intro h
        cases h
        exact .nothing
      · intro h
        cases h
        rfl
  | cons first rest =>
      rw [ofHexPrefix, nibbles_cons]
      dsimp only
      by_cases hflag : 3 < (highNibble first).val
      · rw [if_pos hflag]
        constructor
        · intro h
          cases h
          exact .flag hflag
        · intro h
          cases h with
          | flag => rfl
          | padding hle => exact absurd hflag (Nat.not_lt.mpr hle)
      · rw [if_neg hflag]
        split
        · rename_i hpadding
          simp only [Bool.and_eq_true, Bool.not_eq_true', beq_eq_false_iff_ne, bne_iff_ne,
            ← Fin.val_ne_zero_iff] at hpadding
          constructor
          · intro h
            cases h
            exact .padding (Nat.not_lt.mp hflag) (by omega) hpadding.2
          · intro h
            cases h with
            | flag habove => exact absurd habove hflag
            | padding => rfl
        · rename_i hpadding
          simp only [Bool.and_eq_true, Bool.not_eq_true', beq_eq_false_iff_ne, bne_iff_ne,
            ← Fin.val_ne_zero_iff, not_and, not_not] at hpadding
          constructor
          · intro h
            cases h
          · intro h
            cases h with
            | flag habove => exact absurd habove hflag
            | padding _ heven hlow => exact absurd (hpadding (by omega)) hlow

/-- Bytes are read as a path exactly if they are packed. -/
theorem exists_ofHexPrefix_iff : (∃ path, ofHexPrefix bytes = .ok path) ↔ Packed bytes := by
  rw [← not_iff_not, not_packed_iff]
  simp only [← ofHexPrefix_eq_error_iff]
  cases ofHexPrefix bytes with
  | error cause => simp
  | ok path => simp

/-- The hex-prefix form is a bijection between paths, as their symbols, and packed byte strings.
Symbols are a path exactly if they are the symbols of the path that is read from their form. Bytes
are read as a path exactly if its symbols are a path and have the bytes as their form. The bytes
that are read as some path are the packed ones, and all others are refused, for the reason why they
are not packed. -/
theorem hexPrefix_bijective :
    (∀ (symbols : Symbols) (path : Path), ofSymbols symbols = .ok path ↔
      ofHexPrefix symbols.hexPrefix = .ok path ∧ path.symbols = symbols) ∧
    (∀ (bytes : Bytes) (path : Path), ofHexPrefix bytes = .ok path ↔
      ofSymbols path.symbols = .ok path ∧ path.symbols.hexPrefix = bytes) ∧
    (∀ bytes : Bytes, (∃ path, ofHexPrefix bytes = .ok path) ↔ Packed bytes) ∧
    (∀ (bytes : Bytes) (cause : DecodeError),
      ofHexPrefix bytes = .error cause ↔ Unpacked bytes cause) ∧
    ∀ bytes : Bytes, ¬Packed bytes ↔ ∃ cause, Unpacked bytes cause := by
  refine ⟨fun symbols path ↦ ⟨fun h ↦ ?_, fun ⟨_, hsymbols⟩ ↦ ?_⟩, fun bytes path ↦ ?_,
    fun _ ↦ exists_ofHexPrefix_iff, fun _ _ ↦ ofHexPrefix_eq_error_iff, fun _ ↦ not_packed_iff⟩
  · have hsymbols := symbols_of_ofSymbols h
    refine ⟨?_, hsymbols⟩
    rw [← hsymbols]
    exact ofHexPrefix_hexPrefix path
  · rw [← hsymbols]
    exact ofSymbols_symbols path
  · rw [ofHexPrefix_eq_ok_iff, and_iff_right (ofSymbols_symbols path)]
    rfl

/-- An odd path that ends a key. -/
example : (Path.mk [0xf, 1, 0xc, 0xb, 8] true).hexPrefix = [0x3f, 0x1c, 0xb8] := by decide

end Path

end Patricia
