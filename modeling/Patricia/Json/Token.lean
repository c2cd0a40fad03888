import Patricia.Bytes

/-!
# JSON tokens

`Json.tokens?` cuts a text into the tokens of JSON and fails if any part of it is none. Numbers keep
their value where only digits write it. Strings keep their text where every escape in them stands
for a character; an escaped surrogate without its partner stands for none.
-/

namespace Patricia.Json

/-- Parts of a JSON text. A number keeps its value if it is written in digits alone, and a string
keeps its characters if its escapes stand for characters. -/
inductive Token where
  | openBrace
  | closeBrace
  | openBracket
  | closeBracket
  | comma
  | colon
  | word
  | number (value : Option Nat)
  | string (content : Option String)

/-- Blanks that may stand between tokens. -/
def isBlank (c : Char) : Bool :=
  c == ' ' || c == '\n' || c == '\t' || c == '\r'

/-- One element of a string: a character as it stands, or a unit of 16 bits that was escaped. -/
inductive Element where
  | plain (c : Char)
  | unit (value : Nat)

/-- The character of an escape other than `u`. -/
def escaped? (c : Char) : Option Char :=
  match c with
  | '"' => some '"'
  | '\\' => some '\\'
  | '/' => some '/'
  | 'b' => some '\x08'
  | 'f' => some '\x0c'
  | 'n' => some '\n'
  | 'r' => some '\r'
  | 't' => some '\t'
  | _ => none

/-- The elements of a string after its opening quote, and what follows its closing quote. -/
def elements? : List Char → Option (List Element × List Char)
  | [] => none
  | '"' :: rest => some ([], rest)
  | '\\' :: 'u' :: a :: b :: c :: d :: rest => do
      let value := ((((← hexValue? a) * 16 + (← hexValue? b)) * 16) + (← hexValue? c)) * 16 +
        (← hexValue? d)
      let (more, rest) ← elements? rest
      return (.unit value :: more, rest)
  | '\\' :: c :: rest => do
      let c ← escaped? c
      let (more, rest) ← elements? rest
      return (.plain c :: more, rest)
  | c :: rest =>
      if c.toNat < 0x20 || c == '\\' then none
      else do
        let (more, rest) ← elements? rest
        return (.plain c :: more, rest)

/-- The characters that the elements of a string stand for. Two surrogates in a row stand for one
character, and no other surrogate stands for any. -/
def characters? : List Element → Option (List Char)
  | [] => some []
  | .plain c :: rest => (characters? rest).map (c :: ·)
  | .unit high :: rest =>
      if high < 0xd800 ∨ 0xdfff < high then (characters? rest).map (Char.ofNat high :: ·)
      else
        match rest with
        | .unit low :: rest =>
            if high < 0xdc00 ∧ 0xdc00 ≤ low ∧ low < 0xe000 then
              (characters? rest).map
                (Char.ofNat (0x10000 + (high - 0xd800) * 0x400 + (low - 0xdc00)) :: ·)
            else none
        | _ => none

/-- The digits in front, and what follows them. -/
def digits (text : List Char) : List Char × List Char :=
  text.span Char.isDigit

/-- The number that digits write. -/
def ofDigits (text : List Char) : Nat :=
  text.foldl (fun sum c ↦ sum * 10 + (c.toNat - '0'.toNat)) 0

/-- What follows the fraction in front, if one is begun it has to have digits. -/
def afterFraction? (text : List Char) : Option (List Char) :=
  match text with
  | '.' :: rest =>
      let (fraction, rest) := digits rest
      if fraction.isEmpty then none else some rest
  | _ => some text

/-- What follows the exponent in front, if one is begun it has to have digits. -/
def afterExponent? (text : List Char) : Option (List Char) :=
  match text with
  | c :: rest =>
      if c == 'e' || c == 'E' then
        let rest :=
          match rest with
          | '+' :: rest => rest
          | '-' :: rest => rest
          | _ => rest
        let (exponent, rest) := digits rest
        if exponent.isEmpty then none else some rest
      else some text
  | [] => some text

/-- The number in front, and what follows it. Its digits do not begin with a needless zero. -/
def number? (text : List Char) : Option (Option Nat × List Char) := do
  let (negative, text) :=
    match text with
    | '-' :: rest => (true, rest)
    | _ => (false, text)
  let (whole, rest) := digits text
  if whole.isEmpty || (whole.head? == some '0' && whole.length != 1) then none
  else
    let last ← afterExponent? (← afterFraction? rest)
    let natural := !negative && last.length == rest.length
    return (if natural then some (ofDigits whole) else none, last)

/-- The token in front, and what follows it. -/
def token? (text : List Char) : Option (Token × List Char) :=
  match text with
  | '\x7b' :: rest => some (.openBrace, rest)
  | '\x7d' :: rest => some (.closeBrace, rest)
  | '[' :: rest => some (.openBracket, rest)
  | ']' :: rest => some (.closeBracket, rest)
  | ',' :: rest => some (.comma, rest)
  | ':' :: rest => some (.colon, rest)
  | 't' :: 'r' :: 'u' :: 'e' :: rest => some (.word, rest)
  | 'f' :: 'a' :: 'l' :: 's' :: 'e' :: rest => some (.word, rest)
  | 'n' :: 'u' :: 'l' :: 'l' :: rest => some (.word, rest)
  | '"' :: rest => do
      let (elements, rest) ← elements? rest
      return (.string ((characters? elements).map String.ofList), rest)
  | _ => do
      let (value, rest) ← number? text
      return (.number value, rest)

/-- The tokens of a text. Every token takes at least one character, so the length of the text
bounds their number. -/
def tokensWithin? : Nat → List Char → Option (List Token)
  | 0, text => if text.isEmpty then some [] else none
  | count + 1, text =>
      match text with
      | [] => some []
      | c :: rest =>
          if isBlank c then tokensWithin? count rest
          else do
            let (token, rest) ← token? text
            return token :: (← tokensWithin? count rest)

/-- The tokens of a text. -/
def tokens? (text : String) : Option (List Token) :=
  tokensWithin? text.length text.toList

end Patricia.Json
