import Patricia.Path.Symbols

/-!
# Nibble paths

A key is spelled as nibbles, two a byte and the high one first. A `Path` is a run of nibbles which
either ends a key or leads on, so every path is a path by its type; `Path.ofSymbols` reads one
from symbols and `Path.symbols` writes it out.
-/

namespace Patricia

/-- Half a byte, a step at a branch. -/
abbrev Nibble := Fin 16

/-- The high nibble of a byte. -/
def highNibble (byte : UInt8) : Nibble :=
  ⟨byte.toNat / 16, Nat.div_lt_of_lt_mul byte.toNat_lt⟩

/-- The low nibble of a byte. -/
def lowNibble (byte : UInt8) : Nibble :=
  ⟨byte.toNat % 16, Nat.mod_lt _ (by decide)⟩

/-- The symbol of a nibble. -/
def nibbleSymbol (nibble : Nibble) : UInt8 :=
  UInt8.ofNat nibble.val

/-- The nibbles of a byte string, each byte giving its high and its low nibble. -/
def Bytes.nibbles (bytes : Bytes) : List Nibble :=
  bytes.flatMap fun byte ↦ [highNibble byte, lowNibble byte]

/-- A run of nibbles that ends a key exactly when it is terminated. -/
structure Path where
  nibbles : List Nibble
  terminated : Bool
deriving DecidableEq

namespace Path

/-- The path without nibbles that leads on. -/
def empty : Path := ⟨[], false⟩

/-- The path of a whole key. -/
def ofKey (key : Bytes) : Path :=
  ⟨key.nibbles, true⟩

/-- Neither a nibble nor the end of a key. -/
def isEmpty (path : Path) : Bool :=
  path.nibbles.isEmpty && !path.terminated

/-- A path after a run of nibbles. -/
def after (lead : List Nibble) (path : Path) : Path :=
  { path with nibbles := lead ++ path.nibbles }

/-- The symbols of a path. -/
def symbols (path : Path) : Symbols :=
  path.nibbles.map nibbleSymbol ++
    if path.terminated then [terminator] else []

/-- The path that the symbols write, if they write one. -/
def ofSymbols (symbols : Symbols) : Except Breach Path := do
  symbols.check
  let front := if symbols.isTerminated then symbols.dropLast else symbols
  return ⟨front.map lowNibble, symbols.isTerminated⟩

/-- A path as text. -/
def text (path : Path) : String :=
  path.symbols.text

end Path

end Patricia
