import Patricia.Json.Value
import Patricia.Settings.Basic

/-!
# Settings as JSON

Settings are written as an object with the one member `cache_capacity`. They are read from such an
object, whose other members are passed over, or from an array of the capacity alone. The text is
read strictly: nothing but blanks may stand around the value, the member must occur once, and its
number must be written in digits alone.
-/

namespace Patricia.Settings

/-- The name under which the capacity is written. -/
def capacityName : String := "cache_capacity"

/-- The capacity among the members of an object, if it occurs once and is a number. -/
def capacityAmong? (members : List (String × Json.Value)) : Option Nat :=
  match members.filter (·.1 == capacityName) with
  | [(_, .natural capacity)] => some capacity
  | _ => none

/-- The settings that a text writes. -/
def ofJson? (text : String) : Option Settings := do
  let tokens ← Json.tokens? text
  match tokens with
  | [.openBracket, .number (some capacity), .closeBracket] => ofCapacity? capacity
  | .openBrace :: rest =>
      ofCapacity? (← capacityAmong? (← Json.members? (2 * rest.length + 1) rest))
  | _ => none

/-- The text that writes settings. -/
def toJson (settings : Settings) : String :=
  "\x7b\"" ++ capacityName ++ "\":" ++ toString settings.cacheCapacity ++ "\x7d"

end Patricia.Settings
