import MutationPreview.Wire.Quoted

/-!
# Quoted strings of TOML

There are four kinds: basic strings with escapes and literal strings without, each on one line or
on several. In a string of several lines a line break is read as a line feed, a line break right
after the opening quotes is dropped, and up to two quotes may stand right before the closing ones.
-/

namespace MutationPreview.Toml

/-- A space or a tab. -/
def isSpace (c : Char) : Bool := c == ' ' || c == '\t'

/-- The text without spaces and tabs at its start. -/
def skipSpace (t : Text) : Text := t.dropWhile isSpace

/-- Whether a character may stand in a comment or a string: it is a tab or no control
character. -/
def isVisible (c : Char) : Bool := c == '\t' || (32 ≤ c.toNat && c.toNat != 127)

/-- What follows a line break. -/
def lineBreak? : Text → Option Text
  | '\n' :: rest => some rest
  | '\r' :: '\n' :: rest => some rest
  | _ => none

/-- The text without a line break at its start. -/
def dropBreak (t : Text) : Text := (lineBreak? t).getD t

/-- The character of a code point that has one. -/
def charOf? (n : Nat) : Option Char := if n.isValidChar then some (Char.ofNat n) else none

/-- Reads a number of `left` hexadecimal digits. -/
def readHex : (left value : Nat) → Text → Option (Nat × Text)
  | 0, value, t => some (value, t)
  | left + 1, value, c :: rest =>
    match Wire.hexValue? c with
    | some d => readHex left (value * 16 + d) rest
    | none => none
  | _ + 1, _, [] => none

/-- Reads a code point of a given number of digits. -/
def readCodePoint (digits : Nat) (t : Text) : Option (Char × Text) := do
  let (n, rest) ← readHex digits 0 t
  return (← charOf? n, rest)

/-- Reads an escape from after its backslash on. -/
def readEscape : Text → Option (Char × Text)
  | 'b' :: rest => some ('\x08', rest)
  | 't' :: rest => some ('\t', rest)
  | 'n' :: rest => some ('\n', rest)
  | 'f' :: rest => some ('\x0c', rest)
  | 'r' :: rest => some ('\r', rest)
  | '"' :: rest => some ('"', rest)
  | '\\' :: rest => some ('\\', rest)
  | 'u' :: rest => readCodePoint 4 rest
  | 'U' :: rest => readCodePoint 8 rest
  | _ => none

/-- Puts characters in front of what was read. -/
def pushText (front : Text) (read : Option (Text × Text)) : Option (Text × Text) :=
  read.map fun (t, rest) => (front ++ t, rest)

/-- Reads a basic string on one line from after its opening quote on. -/
def readBasic : (fuel : Nat) → Text → Option (Text × Text)
  | 0, _ | _ + 1, [] => none
  | _ + 1, '"' :: rest => some ([], rest)
  | fuel + 1, '\\' :: rest =>
    match readEscape rest with
    | some (c, rest) => pushText [c] (readBasic fuel rest)
    | none => none
  | fuel + 1, c :: rest => if isVisible c then pushText [c] (readBasic fuel rest) else none

/-- Reads a literal string on one line from after its opening quote on. -/
def readLiteral : Text → Option (Text × Text)
  | [] => none
  | '\'' :: rest => some ([], rest)
  | c :: rest => if isVisible c then pushText [c] (readLiteral rest) else none

/-- Drops spaces and line breaks. -/
def dropLayout : (fuel : Nat) → Text → Text
  | 0, t => t
  | fuel + 1, t =>
    let t := skipSpace t
    match lineBreak? t with
    | some rest => dropLayout fuel rest
    | none => t

/-- What follows a line break that a backslash hides, and the layout after it. -/
def hiddenBreak? (t : Text) : Option Text :=
  (lineBreak? (skipSpace t)).map fun rest => dropLayout rest.length rest

/-- Reads the closing quotes of a string of several lines, with up to two quotes before them. -/
def closing? (quote : Char) (t : Text) : Option (Text × Text) :=
  let quotes := (t.takeWhile (· == quote)).length
  if quotes < 3 then none
  else
    let inner := min (quotes - 3) 2
    some (List.replicate inner quote, t.drop (inner + 3))

/-- Reads a basic string of several lines from after its opening quotes on. -/
def readBasicLines : (fuel : Nat) → Text → Option (Text × Text)
  | 0, _ => none
  | fuel + 1, t =>
    match closing? '"' t, lineBreak? t, t with
    | some closed, _, _ => some closed
    | none, some rest, _ => pushText ['\n'] (readBasicLines fuel rest)
    | none, none, '\\' :: rest =>
      match hiddenBreak? rest, readEscape rest with
      | some rest, _ => readBasicLines fuel rest
      | none, some (c, rest) => pushText [c] (readBasicLines fuel rest)
      | none, none => none
    | none, none, c :: rest => if isVisible c then pushText [c] (readBasicLines fuel rest) else none
    | none, none, [] => none

/-- Reads a literal string of several lines from after its opening quotes on. -/
def readLiteralLines : (fuel : Nat) → Text → Option (Text × Text)
  | 0, _ => none
  | fuel + 1, t =>
    match closing? '\'' t, lineBreak? t, t with
    | some closed, _, _ => some closed
    | none, some rest, _ => pushText ['\n'] (readLiteralLines fuel rest)
    | none, none, c :: rest =>
      if isVisible c then pushText [c] (readLiteralLines fuel rest) else none
    | none, none, [] => none

/-- Reads a string on one line. -/
def readLineString : Text → Option (Text × Text)
  | '"' :: rest => readBasic (rest.length + 1) rest
  | '\'' :: rest => readLiteral rest
  | _ => none

/-- Reads a string of any kind. -/
def readString : Text → Option (Text × Text)
  | '"' :: '"' :: '"' :: rest => readBasicLines (rest.length + 1) (dropBreak rest)
  | '\'' :: '\'' :: '\'' :: rest => readLiteralLines (rest.length + 1) (dropBreak rest)
  | t => readLineString t

end MutationPreview.Toml
