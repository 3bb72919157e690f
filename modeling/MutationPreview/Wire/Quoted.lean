import MutationPreview.Text.Basic

/-!
# Quoted strings of the wire format

A text is written between double quotes. The quote, the backslash and control characters are
escaped; everything else is written as it is. Reading undoes any escape of the format: a code
point beyond the first plane may come as an escaped pair of surrogates, and half a pair is no
string.
-/

namespace MutationPreview.Wire

/-! ## Writing -/

/-- The hexadecimal digit of a number below sixteen. -/
def hexDigit (n : Nat) : Char :=
  if n < 10 then Char.ofNat (n + '0'.toNat) else Char.ofNat (n - 10 + 'a'.toNat)

/-- The written form of one character. -/
def escapeChar (c : Char) : Text :=
  if c = '"' then ['\\', '"']
  else if c = '\\' then ['\\', '\\']
  else if c = '\x08' then ['\\', 'b']
  else if c = '\t' then ['\\', 't']
  else if c = '\n' then ['\\', 'n']
  else if c = '\x0c' then ['\\', 'f']
  else if c = '\r' then ['\\', 'r']
  else if c.toNat < 32 then
    ['\\', 'u', '0', '0', hexDigit (c.toNat / 16), hexDigit (c.toNat % 16)]
  else [c]

/-- The written form of a text. -/
def quote (t : Text) : Text := '"' :: t.flatMap escapeChar ++ ['"']

/-! ## Reading -/

/-- The value of a hexadecimal digit. -/
def hexValue? (c : Char) : Option Nat :=
  if c.isDigit then some (c.toNat - '0'.toNat)
  else if 'a' ≤ c ∧ c ≤ 'f' then some (c.toNat - 'a'.toNat + 10)
  else if 'A' ≤ c ∧ c ≤ 'F' then some (c.toNat - 'A'.toNat + 10)
  else none

/-- The character that a letter stands for after a backslash. -/
def escaped? : Char → Option Char
  | '"' => some '"'
  | '\\' => some '\\'
  | '/' => some '/'
  | 'b' => some '\x08'
  | 'f' => some '\x0c'
  | 'n' => some '\n'
  | 'r' => some '\r'
  | 't' => some '\t'
  | _ => none

/-- Where a reader stands inside a string. -/
inductive StringState where
  /-- Between characters. -/
  | plain
  /-- After a backslash. -/
  | escape
  /-- In a numeric escape with `left` digits to come; `high` is the first half of a pair. -/
  | digits (left value : Nat) (high : Option Nat)
  /-- After the first half of a pair, before the backslash of the second. -/
  | pairSlash (high : Nat)
  /-- After the first half of a pair and a backslash. -/
  | pairLetter (high : Nat)

/-- What the unit of a finished numeric escape means. -/
inductive UnitMeaning where
  | char (c : Char)
  | firstHalf (unit : Nat)
  | broken

/-- The meaning of a unit, which may follow the first half of a pair. -/
def unitMeaning (unit : Nat) : (high : Option Nat) → UnitMeaning
  | none =>
    if 0xd800 ≤ unit ∧ unit < 0xdc00 then .firstHalf unit
    else if 0xdc00 ≤ unit ∧ unit < 0xe000 then .broken
    else .char (Char.ofNat unit)
  | some high =>
    if 0xdc00 ≤ unit ∧ unit < 0xe000 then
      .char (Char.ofNat (0x10000 + (high - 0xd800) * 0x400 + (unit - 0xdc00)))
    else .broken

/-- Puts a character in front of what was read. -/
def pushChar (c : Char) (read : Option (Text × Text)) : Option (Text × Text) :=
  read.map fun (t, rest) => (c :: t, rest)

/-- Reads the rest of a string up to its closing quote, and gives what follows it too. -/
def readStringFrom : StringState → Text → Option (Text × Text)
  | _, [] => none
  | .plain, c :: rest =>
    if c = '"' then some ([], rest)
    else if c = '\\' then readStringFrom .escape rest
    else if c.toNat < 32 then none
    else pushChar c (readStringFrom .plain rest)
  | .escape, c :: rest =>
    if c = 'u' then readStringFrom (.digits 4 0 none) rest
    else match escaped? c with
      | some x => pushChar x (readStringFrom .plain rest)
      | none => none
  | .digits left value high, c :: rest =>
    match hexValue? c with
    | none => none
    | some d =>
      let value := value * 16 + d
      if left > 1 then readStringFrom (.digits (left - 1) value high) rest
      else match unitMeaning value high with
        | .char x => pushChar x (readStringFrom .plain rest)
        | .firstHalf unit => readStringFrom (.pairSlash unit) rest
        | .broken => none
  | .pairSlash high, c :: rest => if c = '\\' then readStringFrom (.pairLetter high) rest else none
  | .pairLetter high, c :: rest =>
    if c = 'u' then readStringFrom (.digits 4 0 (some high)) rest else none

/-- Reads a string from after its opening quote on. -/
def readString (t : Text) : Option (Text × Text) := readStringFrom .plain t

/-! ## Skipping -/

/-- Where a reader that skips a string stands in it. -/
inductive SkipState where
  | plain
  | escape
  | digits (left : Nat)

/-- What follows a string, of which the escapes are checked one by one but not read. -/
def skipStringFrom : SkipState → Text → Option Text
  | _, [] => none
  | .plain, c :: rest =>
    if c = '"' then some rest
    else if c = '\\' then skipStringFrom .escape rest
    else if c.toNat < 32 then none
    else skipStringFrom .plain rest
  | .escape, c :: rest =>
    if c = 'u' then skipStringFrom (.digits 4) rest
    else if (escaped? c).isSome then skipStringFrom .plain rest
    else none
  | .digits left, c :: rest =>
    if (hexValue? c).isNone then none
    else if left > 1 then skipStringFrom (.digits (left - 1)) rest
    else skipStringFrom .plain rest

/-- Skips a string from after its opening quote on. -/
def skipString (t : Text) : Option Text := skipStringFrom .plain t

end MutationPreview.Wire
