import MutationPreview.Toml.Scalar

/-!
# Reading TOML documents

A document is read line by line: blank lines and comments, headers, and entries, which go into the
table of the last header. Values may be nested in arrays and inline tables to a fixed depth.
-/

namespace MutationPreview.Toml

/-- Values and keys must not be nested this deep. -/
def depthLimit : Nat := 80

/-! ## Layout -/

/-- Drops a comment. -/
def dropComment : Text → Text
  | '#' :: rest => rest.dropWhile isVisible
  | t => t

/-- Drops spaces, comments and line breaks. A comment counts only if a line break ends it. -/
def dropLines : (fuel : Nat) → Text → Text
  | 0, t => t
  | fuel + 1, t =>
    let t := skipSpace t
    match lineBreak? (dropComment t) with
    | some rest => dropLines fuel rest
    | none => t

/-- What follows the end of a line, which spaces and a comment may come before. -/
def lineEnd? (t : Text) : Option Text :=
  match dropComment (skipSpace t) with
  | [] => some []
  | t => lineBreak? t

/-! ## Keys -/

/-- Whether a character may stand in a key without quotes. -/
def isBare (c : Char) : Bool := c.isAlphanum || c == '_' || c == '-'

/-- Reads one part of a key. -/
def readKeyPart (t : Text) : Option (Text × Text) :=
  match t with
  | [] => none
  | c :: _ =>
    if c = '"' ∨ c = '\'' then readLineString t
    else if isBare c then some (t.takeWhile isBare, t.dropWhile isBare)
    else none

/-- Reads the parts of a key, with spaces around each. -/
def readKeyParts : (fuel : Nat) → Text → Option (List Text × Text)
  | 0, _ => none
  | fuel + 1, t => do
    let (part, rest) ← readKeyPart (skipSpace t)
    match skipSpace rest with
    | '.' :: rest => do
      let (parts, rest) ← readKeyParts fuel rest
      return (part :: parts, rest)
    | rest => return ([part], rest)

/-- A key: the path to a table, and a name in it. -/
structure Key where
  path : List Text
  name : Text

/-- Reads a key. -/
def readKey (t : Text) : Option (Key × Text) := do
  let (parts, rest) ← readKeyParts depthLimit t
  match parts.getLast? with
  | some name => if parts.length < depthLimit then some (⟨parts.dropLast, name⟩, rest) else none
  | none => none

/-! ## Values -/

/-- Reads the elements of an array and the closing bracket. A comma may stand before it. -/
def readElements (readItem : Text → Option (Item × Text)) :
    (fuel : Nat) → Text → Option (List Item × Text)
  | 0, _ => none
  | fuel + 1, t =>
    match dropLines t.length t with
    | ']' :: rest => some ([], rest)
    | t => do
      let (item, rest) ← readItem t
      match dropLines rest.length rest with
      | ',' :: rest => do
        let (items, rest) ← readElements readItem fuel rest
        return (item :: items, rest)
      | ']' :: rest => return ([item], rest)
      | _ => none

/-- Reads an entry: a key, an equals sign and a value. -/
def readEntry (readItem : Text → Option (Item × Text)) (t : Text) :
    Option (Key × Item × Text) := do
  let (key, rest) ← readKey t
  let (item, rest) ← readItem (skipSpace (← readMark '=' rest))
  return (key, item, rest)

/-- Reads the entries of an inline table and the closing brace. -/
def readInlineFrom (readItem : Text → Option (Item × Text)) :
    (fuel : Nat) → Entries → Text → Option (Entries × Text)
  | 0, _, _ => none
  | fuel + 1, es, t => do
    let (key, item, rest) ← readEntry readItem t
    let es ← es.addKey key.path key.name item
    match skipSpace rest with
    | ',' :: rest => readInlineFrom readItem fuel es rest
    | '\x7d' :: rest => return (es, rest)
    | _ => none

/-- Reads an inline table from after its opening brace on. -/
def readInline (readItem : Text → Option (Item × Text)) (t : Text) : Option (Entries × Text) :=
  match skipSpace t with
  | '\x7d' :: rest => some ([], rest)
  | _ => readInlineFrom readItem t.length [] t

/-- Reads a value with at most `depth` arrays and inline tables around its parts. -/
def readItem : (depth : Nat) → Text → Option (Item × Text)
  | depth + 1, '[' :: rest => do
    let (items, rest) ← readElements (readItem depth) (rest.length + 1) rest
    return (.array items, rest)
  | depth + 1, '\x7b' :: rest => do
    let (es, rest) ← readInline (readItem depth) rest
    return (.table .inline es, rest)
  | _, t => (readScalar t).map fun (s, rest) => (.scalar s, rest)

/-! ## Documents -/

/-- The state of a reader: the document so far, and the header that entries come under. -/
structure Draft where
  entries : Entries
  header : List Text

/-- Reads a header from after its brackets on: its key and the closing brackets. -/
def readHeader (closing t : Text) : Option (Key × Text) := do
  let (key, rest) ← readKey t
  return (key, ← lineEnd? (← Text.after? closing rest))

/-- Reads one header or entry with the end of its line. -/
def readStatement (d : Draft) : Text → Option (Draft × Text)
  | '[' :: '[' :: rest => do
    let (key, rest) ← readHeader "]]".toList rest
    let entries ← d.entries.alterAt (Entries.openElement key.name) key.path
    return (⟨entries, key.path ++ [key.name]⟩, rest)
  | '[' :: rest => do
    let (key, rest) ← readHeader "]".toList rest
    let entries ← d.entries.alterAt (Entries.openTable key.name) key.path
    return (⟨entries, key.path ++ [key.name]⟩, rest)
  | t => do
    let (key, item, rest) ← readEntry (readItem (depthLimit - 1)) t
    let entries ← d.entries.alterAt (Entries.addKey key.path key.name item) d.header
    return (⟨entries, d.header⟩, ← lineEnd? rest)

/-- Reads the rest of a document. -/
def readLines : (fuel : Nat) → Draft → Text → Option Entries
  | 0, _, _ => none
  | fuel + 1, d, t =>
    match dropLines t.length t with
    | [] => some d.entries
    | t =>
      if (dropComment t).isEmpty then some d.entries
      else match readStatement d t with
        | some (d, rest) => readLines fuel d rest
        | none => none

/-- Reads a document. A byte order mark at its start is passed over. -/
def read (t : Text) : Option Entries :=
  let t := match t with
    | '\ufeff' :: rest => rest
    | t => t
  readLines (t.length + 1) ⟨[], []⟩ t

end MutationPreview.Toml
