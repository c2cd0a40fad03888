import Patricia.Fault

/-!
# Paths as symbols

Written out, a path is a sequence of symbols: nibbles from 0 to 15 and, at the end of a whole key,
the terminator 16. `Symbols` is that sequence with the operations on it. Nothing keeps other
bytes out of a sequence, so `Symbols.check` says when one is a path.
-/

namespace Patricia

/-- The symbols of a path as they are written out. -/
abbrev Symbols := List UInt8

/-- The symbol that ends a whole key, one past the nibbles. -/
def terminator : UInt8 := 16

/-- One end of a range of positions. -/
inductive Bound where
  | included (position : Nat)
  | excluded (position : Nat)
  | unbounded

namespace Symbols

/-- The path ends in the terminator. -/
def isTerminated (symbols : Symbols) : Bool :=
  symbols.getLast? == some terminator

/-- The terminator stands at most at the end, and every other symbol is a nibble. A misplaced
terminator is reported before a symbol that is too large. -/
def check (symbols : Symbols) : Except Breach Unit :=
  if terminator ∈ symbols.dropLast then .error .terminatorInside
  else if symbols.all (· ≤ terminator) then .ok ()
  else .error .invalidNibble

/-- The symbol at a position. -/
def at? (symbols : Symbols) (position : Nat) : Except Breach UInt8 :=
  match symbols[position]? with
  | some symbol => .ok symbol
  | none => .error .outOfRange

/-- The symbols between two ends, which must be in order and within the sequence. -/
def slice (symbols : Symbols) (first last : Bound) : Except Breach Symbols :=
  let start :=
    match first with
    | .included position => position
    | .excluded position => position + 1
    | .unbounded => 0
  let stop :=
    match last with
    | .included position => position + 1
    | .excluded position => position
    | .unbounded => symbols.length
  if start ≤ stop ∧ stop ≤ symbols.length then .ok ((symbols.take stop).drop start)
  else .error .outOfRange

/-- How many symbols two sequences share from the front. -/
def sharedLength : Symbols → Symbols → Nat
  | left :: lefts, right :: rights =>
      if left = right then sharedLength lefts rights + 1 else 0
  | _, _ => 0

/-- One sequence after the other. Nothing may follow a terminator. -/
def join (front back : Symbols) : Except Breach Symbols :=
  if front.isTerminated && !back.isEmpty then .error .joinPastTerminator
  else .ok (front ++ back)

/-- The order of the first symbols that differ, a sequence before its continuations. -/
def order : Symbols → Symbols → Ordering
  | [], [] => .eq
  | [], _ :: _ => .lt
  | _ :: _, [] => .gt
  | left :: lefts, right :: rights =>
      (compare left right).then (order lefts rights)

/-- A symbol in hexadecimal without leading zeros, and `T` for the terminator. -/
def symbolText (symbol : UInt8) : String :=
  if symbol = terminator then "T" else String.ofList (Nat.toDigits 16 symbol.toNat)

/-- The symbols one after the other, between `Path(` and a closing bracket. -/
def text (symbols : Symbols) : String :=
  "Path(" ++ String.join (symbols.map symbolText) ++ ")"

end Symbols

end Patricia
