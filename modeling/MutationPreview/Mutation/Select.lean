import MutationPreview.Mutation.Head

/-!
# From a mutation to a query

The held text of a mutation is turned into a query on the same rows: a delete selects everything
from its table, an update selects the fields that it assigns from its target, and a merge becomes
the query that it uses.
-/

namespace MutationPreview

/-! ## Assigned fields -/

/-- Splits at commas outside brackets, with `depth` brackets open. A closing bracket too many is
an ordinary character. -/
def splitCommas : (depth : Nat) → Text → List Text
  | _, [] => [[]]
  | depth, c :: rest =>
    if c = ',' ∧ depth = 0 then [] :: splitCommas depth rest
    else
      let depth := if c = '(' then depth + 1 else if c = ')' then depth - 1 else depth
      match splitCommas depth rest with
      | [] => [[c]]
      | piece :: pieces => (c :: piece) :: pieces

/-- The left side of an assignment. -/
def leftSide? (assignment : Text) : Option Text := (Text.cut? ['='] assignment).map (·.1)

/-- The field that a target names, without its alias. -/
def fieldOf? (target : Text) : Option Text :=
  ((Grammar.assignmentTarget.find? target).bind fun m => m.part? .field).map Capture.text

/-- The fields that the left side of an assignment names. -/
def fieldsOfSide (side : Text) : List Text :=
  (Text.splitOn ',' (stripBrackets side)).filterMap fieldOf?

/-- The fields that an update assigns, in order. -/
def assignedFields (t : Text) : List Text :=
  match (Grammar.assignmentList.find? t).bind fun m => m.part? .assignments with
  | none => []
  | some list => ((splitCommas 0 list.text).filterMap leftSide?).flatMap fieldsOfSide

/-! ## Queries -/

/-- The text before a match, then `select`, then the text from the match's `where` on. -/
def spliceSelect (m : Match) (whereWord : Capture) (select : Text) : Text :=
  m.start.passed ++ select ++ whereWord.start.after

namespace Mutation

/-- The query text of a delete. -/
def deleteSelect? (t : Text) : Option Text := do
  let m ← Grammar.deleteHeader.find? t
  let table ← m.part? .table
  let whereWord ← m.part? .whereWord
  return spliceSelect m whereWord ("select *\nfrom ".toList ++ table.text ++ "\n".toList)

/-- The query text of an update that assigns the given fields. -/
def updateSelect? (profile : Profile) (fields : List Text) (t : Text) : Option Text := do
  let m ← Grammar.updateSpan.find? t
  let target ← m.part? .target
  let whereWord ← m.part? .whereWord
  let source := Text.trimBlank (profile.stagingMark.replaceAll (fun _ => []) target.text)
  return spliceSelect m whereWord
    ("select ".toList ++ List.intercalate ", ".toList fields ++ "\nfrom ".toList ++ source ++
      "\n".toList)

/-- The query text of a mutation. -/
def select (profile : Profile) (held : Held) : Mutation → Except Failure Text
  | delete =>
    match deleteSelect? held.text with
    | some t => .ok t
    | none => .error (.badShape .delete .deleteInvalid)
  | update =>
    let fields := assignedFields held.text
    if fields.isEmpty then .error (.badShape .update .setInvalid)
    else match updateSelect? profile fields held.text with
      | some t => .ok t
      | none => .error (.badShape .update .updateInvalid)
  | merge =>
    match profile.budget.bounded (mergeSource? held) with
    | .error limit => .error (.timeout limit)
    | .ok none => .error (.badShape .merge .mergeInvalid)
    | .ok (some t) => .ok t

/-- Turns the held text of a mutation into a query. -/
def toQuery (profile : Profile) (held : Held) (m : Mutation) : Except Failure Held :=
  match m.select profile held with
  | .ok text => .ok { held with text }
  | .error failure => .error failure

end Mutation

end MutationPreview
