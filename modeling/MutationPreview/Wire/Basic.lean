import MutationPreview.Record
import MutationPreview.Wire.Skip

/-!
# The wire format of records

Records travel as an array of objects with the members `sql`, `isError` and `message` in this
order. The compact form has no blanks, the indented form has one member a line.

A reader takes the members in any order and skips members of other names. All three must be there,
and none twice. A record may also come as an array of the three values.
-/

namespace MutationPreview.Wire

/-! ## Writing -/

/-- A truth value. -/
def writeBool (b : Bool) : Text := if b then "true".toList else "false".toList

/-- The names and written values of a record's members. -/
def membersOf (r : Record) : List (Text × Text) :=
  [("sql".toList, quote r.sql), ("isError".toList, writeBool r.isError),
    ("message".toList, quote r.message)]

/-- The compact form of a record. -/
def compactRecord (r : Record) : Text :=
  let members := (membersOf r).map fun (name, value) => quote name ++ ':' :: value
  '\x7b' :: List.intercalate [','] members ++ ['\x7d']

/-- The compact form of records. -/
def compact (records : List Record) : Text :=
  '[' :: List.intercalate [','] (records.map compactRecord) ++ [']']

/-- The indented form of a record. -/
def indentedRecord (r : Record) : Text :=
  let members := (membersOf r).map fun (name, value) =>
    "    ".toList ++ quote name ++ ": ".toList ++ value
  "  \x7b\n".toList ++ List.intercalate ",\n".toList members ++ "\n  \x7d".toList

/-- The indented form of records. -/
def indented : List Record → Text
  | [] => "[]".toList
  | records =>
    "[\n".toList ++ List.intercalate ",\n".toList (records.map indentedRecord) ++ "\n]".toList

/-! ## Reading -/

/-- Reads a string value. -/
def readText (t : Text) : Option (Text × Text) := (expect '"' t).bind readString

/-- Reads a truth value. -/
def readBool (t : Text) : Option (Bool × Text) :=
  match skipSpace t with
  | 't' :: rest => (Text.after? "rue".toList rest).map fun rest => (true, rest)
  | 'f' :: rest => (Text.after? "alse".toList rest).map fun rest => (false, rest)
  | _ => none

/-- The members of a record that have been read. -/
structure Draft where
  sql : Option Text := none
  isError : Option Bool := none
  message : Option Text := none

/-- The record of a draft that has all members. -/
def Draft.record? (d : Draft) : Option Record :=
  match d.sql, d.isError, d.message with
  | some sql, some isError, some message => some ⟨sql, isError, message⟩
  | _, _, _ => none

/-- Reads the value of the member with a given name. -/
def readMember (d : Draft) (name : Text) (t : Text) : Option (Draft × Text) :=
  if name = "sql".toList then
    if d.sql.isSome then none
    else (readText t).map fun (sql, rest) => ({ d with sql := some sql }, rest)
  else if name = "isError".toList then
    if d.isError.isSome then none
    else (readBool t).map fun (isError, rest) => ({ d with isError := some isError }, rest)
  else if name = "message".toList then
    if d.message.isSome then none
    else (readText t).map fun (message, rest) => ({ d with message := some message }, rest)
  else (skipAny t).map fun rest => (d, rest)

/-- Reads the members of a record and the closing brace. -/
def readMembers : (fuel : Nat) → Draft → Text → Option (Record × Text)
  | 0, _, _ => none
  | fuel + 1, d, t => do
    let (name, rest) ← readText t
    let value ← expect ':' rest
    let (d, rest) ← readMember d name value
    match expect ',' rest with
    | some more => readMembers fuel d more
    | none => do
      let rest ← expect '\x7d' rest
      return (← d.record?, rest)

/-- Reads the three values of a record that comes as an array, and the closing bracket. -/
def readValues (t : Text) : Option (Record × Text) := do
  let (sql, rest) ← readText t
  let (isError, rest) ← readBool (← expect ',' rest)
  let (message, rest) ← readText (← expect ',' rest)
  return (⟨sql, isError, message⟩, ← expect ']' rest)

/-- Reads one record. -/
def readRecord (t : Text) : Option (Record × Text) :=
  match skipSpace t with
  | '\x7b' :: rest => readMembers rest.length ⟨none, none, none⟩ rest
  | '[' :: rest => readValues rest
  | _ => none

/-- Reads the records of an array and the closing bracket. -/
def readElements : (fuel : Nat) → Text → Option (List Record × Text)
  | 0, _ => none
  | fuel + 1, t => do
    let (r, rest) ← readRecord t
    match expect ',' rest with
    | some more => do
      let (others, rest) ← readElements fuel more
      return (r :: others, rest)
    | none => return ([r], ← expect ']' rest)

/-- Reads records from a text that holds nothing else. -/
def read (t : Text) : Option (List Record) := do
  let rest ← expect '[' t
  let (records, rest) ← match expect ']' rest with
    | some after => some ([], after)
    | none => readElements rest.length rest
  if (skipSpace rest).isEmpty then return records else none

end MutationPreview.Wire
