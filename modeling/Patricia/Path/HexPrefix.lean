import Patricia.Path.Basic

/-!
# The hex-prefix form of paths

Inside a node a path is packed two nibbles a byte. The first nibble holds two flags, whether the
path is terminated and whether the number of its nibbles is odd; an even path is padded with a
zero nibble after the flags. `Symbols.hexPrefix` writes the form and `Path.ofHexPrefix` reads it.
-/

namespace Patricia

/-- Two symbols in one byte. -/
def packPair (high low : UInt8) : UInt8 :=
  (high <<< 4) ||| low

namespace Symbols

/-- Pairs of symbols packed in bytes. A last symbol without a partner is left out. -/
def packPairs : Symbols → Bytes
  | high :: low :: rest => packPair high low :: packPairs rest
  | _ => []

/-- The symbol for the flags of a path. -/
def flag (terminated odd : Bool) : UInt8 :=
  (if terminated then 2 else 0) + (if odd then 1 else 0)

/-- The hex-prefix form of a sequence of symbols. -/
def hexPrefix (symbols : Symbols) : Bytes :=
  let terminated := symbols.isTerminated
  let front := if terminated then symbols.dropLast else symbols
  let odd := front.length % 2 == 1
  packPairs (flag terminated odd :: if odd then front else 0 :: front)

end Symbols

namespace Path

/-- The hex-prefix form of a path. -/
def hexPrefix (path : Path) : Bytes :=
  path.symbols.hexPrefix

/-- The path that a hex-prefix form writes. The flag nibble is at most 3, and the padding of an
even path is zero. -/
def ofHexPrefix (bytes : Bytes) : Except DecodeError Path :=
  match bytes.nibbles with
  | flag :: first :: rest =>
      let odd := flag.val % 2 == 1
      if 3 < flag.val then .error .pathFlag
      else if !odd && first != 0 then .error .pathPadding
      else .ok ⟨if odd then first :: rest else rest, 2 ≤ flag.val⟩
  | _ => .error .inputTooShort

end Path

end Patricia
