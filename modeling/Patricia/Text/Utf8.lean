import Patricia.Bytes

/-!
# Well-formed UTF-8

`Utf8.fault?` finds the first place where a byte string stops being UTF-8. It walks the bytes once
and keeps the ranges in which the bytes still due must lie: surrogates, overlong forms and code
points above `10ffff` fall outside them already at the second byte.
-/

namespace Patricia.Utf8

/-- The first place where text stops being well formed: the index where the bad sequence begins
and how many of its bytes were still acceptable, or no count when the input ends within a
sequence that was well formed so far. -/
structure Fault where
  index : Nat
  length : Option Nat
deriving DecidableEq

/-- The report of a fault. -/
def Fault.message (fault : Fault) : String :=
  match fault.length with
  | some count =>
      "invalid utf-8 sequence of " ++ toString count ++ " bytes from index " ++
        toString fault.index
  | none => "incomplete utf-8 byte sequence from index " ++ toString fault.index

/-- Both ends of an interval of bytes. -/
structure Range where
  low : UInt8
  high : UInt8

/-- Whether a byte lies in the interval. -/
def Range.has (range : Range) (byte : UInt8) : Bool :=
  range.low ≤ byte && byte ≤ range.high

/-- The interval of all continuation bytes. -/
def continuation : Range := ⟨0x80, 0xbf⟩

/-- Where the bytes after a lead byte must lie, if the byte can lead a sequence at all. -/
def following? (lead : UInt8) : Option (List Range) :=
  if lead < 0x80 then some []
  else if lead < 0xc2 then none
  else if lead < 0xe0 then some [continuation]
  else if lead = 0xe0 then some [⟨0xa0, 0xbf⟩, continuation]
  else if lead = 0xed then some [⟨0x80, 0x9f⟩, continuation]
  else if lead < 0xf0 then some [continuation, continuation]
  else if lead = 0xf0 then some [⟨0x90, 0xbf⟩, continuation, continuation]
  else if lead < 0xf4 then some [continuation, continuation, continuation]
  else if lead = 0xf4 then some [⟨0x80, 0x8f⟩, continuation, continuation]
  else none

/-- The first fault of the bytes from `index` on, when the sequence begun at `start` is still due
bytes in the given ranges. -/
def scan (due : List Range) (start index : Nat) : Bytes → Option Fault
  | [] => if due.isEmpty then none else some ⟨start, none⟩
  | byte :: rest =>
    match due with
    | range :: later =>
        if range.has byte then scan later start (index + 1) rest
        else some ⟨start, some (index - start)⟩
    | [] =>
        match following? byte with
        | some ranges => scan ranges index (index + 1) rest
        | none => some ⟨index, some 1⟩

/-- The first place where the bytes stop being UTF-8, if there is one. -/
def fault? (bytes : Bytes) : Option Fault :=
  scan [] 0 0 bytes

end Patricia.Utf8
