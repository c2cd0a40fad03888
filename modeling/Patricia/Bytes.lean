/-!
# Byte strings

Keys, values and encoded nodes are finite lists of bytes. This module names the type, writes byte
strings as hexadecimal text, the only form in which they are printed, and reads such text.
-/

namespace Patricia

/-- A finite string of bytes. -/
abbrev Bytes := List UInt8

/-- The two lower-case hexadecimal digits of a byte, the high one first. -/
def hexDigits (byte : UInt8) : List Char :=
  [Nat.digitChar (byte.toNat / 16), Nat.digitChar (byte.toNat % 16)]

/-- The value of a hexadecimal digit of either case. -/
def hexValue? (c : Char) : Option Nat :=
  if '0' ≤ c ∧ c ≤ '9' then some (c.toNat - '0'.toNat)
  else if 'a' ≤ c ∧ c ≤ 'f' then some (c.toNat - 'a'.toNat + 10)
  else if 'A' ≤ c ∧ c ≤ 'F' then some (c.toNat - 'A'.toNat + 10)
  else none

namespace Bytes

/-- Two lower-case hexadecimal digits a byte, without any lead. -/
def hex (bytes : Bytes) : String :=
  String.ofList (bytes.flatMap hexDigits)

/-- The bytes that pairs of hexadecimal digits write. -/
def ofHexDigits? : List Char → Option Bytes
  | [] => some []
  | [_] => none
  | high :: low :: rest => do
      let byte := UInt8.ofNat (16 * (← hexValue? high) + (← hexValue? low))
      return byte :: (← ofHexDigits? rest)

/-- The bytes that a hexadecimal text without any lead writes. -/
def ofHex? (text : String) : Option Bytes :=
  ofHexDigits? text.toList

/-- The hexadecimal text led by `0x`. -/
def text (bytes : Bytes) : String :=
  "0x" ++ bytes.hex

end Bytes

end Patricia
