import MutationPreview.Config.Basic
import MutationPreview.Toml.Document

/-!
# Configurations from documents

A configuration file is a TOML document with a name for each field. Fields that it does not name
keep their defaults, and names that are no field are passed over.
-/

namespace MutationPreview.Config

open Toml

/-- A text. -/
def readText : Item → Option Text
  | .scalar (.string t) => some t
  | _ => none

/-- A number that is not negative. -/
def readNat : Item → Option Nat
  | .scalar (.integer (.ofNat n)) => some n
  | _ => none

/-- A text of one character. -/
def readChar : Item → Option Char
  | .scalar (.string [c]) => some c
  | _ => none

/-- An array of texts of one character. -/
def readChars : Item → Option (List Char)
  | .array items => items.mapM readChar
  | _ => none

/-- The entry that a date stands for where a table is expected. -/
def dateEntry : Text × Text := ("$__toml_private_datetime".toList, [])

/-- A table of texts. -/
def readTexts : Item → Option (List (Text × Text))
  | .table _ entries => entries.mapM fun (name, item) => (readText item).map fun t => (name, t)
  | .scalar .date => some [dateEntry]
  | _ => none

/-- Sets the field of a given name. -/
def setField (c : Config) (name : Text) (item : Item) : Option Config :=
  match String.ofList name with
  | "match_timeout_ms" => (readNat item).map fun n => { c with matchTimeoutMs := n }
  | "literal_placeholder" => (readText item).map fun t => { c with literalTemplate := t }
  | "subquery_placeholder" => (readText item).map fun t => { c with subqueryTemplate := t }
  | "resolved_placeholder" => (readText item).map fun t => { c with resolvedMark := t }
  | "error_marker" => (readText item).map fun t => { c with errorMarker := t }
  | "entity_function" => (readText item).map fun t => { c with entityFunction := t }
  | "entity_token" => (readText item).map fun t => { c with entityToken := t }
  | "temp_prefix" => (readText item).map fun t => { c with stagingMark := t }
  | "terminator" => (readChar item).map fun x => { c with terminator := x }
  | "disallowed_quotes" => (readChars item).map fun xs => { c with disallowedQuotes := xs }
  | "messages" => (readTexts item).map fun ms => { c with messages := ms }
  | _ => some c

/-- The configuration that the entries of a document describe. -/
def ofEntries : Config → Entries → Option Config
  | c, [] => some c
  | c, (name, item) :: rest => (c.setField name item).bind fun c => ofEntries c rest

/-- The configuration of a document, checked. -/
def ofDocument (t : Text) : Except ConfigFault Config :=
  match (Toml.read t).bind (ofEntries {}) with
  | none => .error .malformed
  | some c => c.check

end MutationPreview.Config
