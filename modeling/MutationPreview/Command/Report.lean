import MutationPreview.Predicate
import MutationPreview.Record
import MutationPreview.Statement
import MutationPreview.Wire.Basic

/-!
# What the command line prints

Records as text for people, the kinds of the statements of a batch, and the table of accepted
forms.
-/

namespace MutationPreview.Command

/-- A line of text. -/
def line (t : Text) : Text := t ++ ['\n']

/-- The mark of success or failure. -/
def statusMark (failed : Bool) : Text := if failed then "✗".toList else "✓".toList

/-- A ruler of a given width. -/
def ruler (width : Nat) : Text := List.replicate width '─'

/-- The text at the left end of a column. -/
def padRight (width : Nat) (t : Text) : Text := t ++ List.replicate (width - t.length) ' '

/-- The text at the right end of a column. -/
def padLeft (width : Nat) (t : Text) : Text := List.replicate (width - t.length) ' ' ++ t

/-- The record with a given number, its lines indented under a ruler. -/
def recordBlock (n : Nat) (r : Record) : Text :=
  line (statusMark r.isError ++ " #".toList ++ Text.ofNat n ++ ' ' :: r.message) ++
    line (ruler 60) ++
    (Text.lines r.sql).flatMap (fun l => line ("  ".toList ++ l)) ++
    line []

/-- All records one after the other, and how many were converted. -/
def recordTable (records : List Record) : Text :=
  if records.isEmpty then line "(no statements)".toList
  else
    let failed := (records.filter Record.isError).length
    (records.mapIdx fun i r => recordBlock (i + 1) r).flatten ++
      line (Text.ofNat (records.length - failed) ++ " converted, ".toList ++ Text.ofNat failed ++
        " failed".toList)

/-- How many statements there are, and the kind of each. -/
def kindList (kinds : List StatementKind) : Text :=
  line (statusMark false ++ ' ' :: Text.ofNat kinds.length ++
      " statement(s) ready to convert".toList) ++
    (kinds.mapIdx fun i kind =>
      line ("  ".toList ++ padLeft 3 (Text.ofNat (i + 1)) ++ ". ".toList ++ kind.name)).flatten

/-- A row of the table of forms. -/
def formRow (number form shape : Text) : Text :=
  line (padRight 4 number ++ ' ' :: padRight 26 form ++ ' ' :: shape)

/-- The table of accepted forms. -/
def formTable : Text :=
  line "Accepted predicate forms".toList ++ line [] ++
    formRow "#".toList "Form".toList "Shape".toList ++ line (ruler 80) ++
    (PredicateForm.all.mapIdx fun i form =>
      formRow (Text.ofNat (i + 1)) form.name form.description).flatten ++
    line [] ++
    line "Predicates are split on WHERE, AND and OR; each piece must match one form.".toList

end MutationPreview.Command
