import MutationPreview.Held
import MutationPreview.Mutation.Basic
import MutationPreview.Profile

/-!
# Checking the head of a mutation

The head of a statement is checked on its held text. The report also says which text carries the
predicates: for an update and a delete it starts at the statement's `where`, for a merge at the
`where` of the query that it uses.
-/

namespace MutationPreview

/-- The text from a part of a match on, or nothing. -/
def fromPart (m? : Option Match) (name : Part) : Text :=
  match m?.bind fun m => m.part? name with
  | some p => p.start.after
  | none => []

/-- The query that a merge uses: the text of the subquery after `using`, without its brackets. -/
def mergeSource? (held : Held) : Option Text := do
  let m ← Grammar.mergeHeader.find? held.text
  let source ← m.part? .source
  let subquery ← held.subquery? source.text
  return Text.trimBlank (stripBrackets subquery)

/-- The text of a query from its own `where` on; a `where` inside a subquery is not its own. The
place is found in the masked query, which has the same byte offsets. -/
def ownParameters (query : Text) : Text :=
  match (Grammar.selectHead.find? (Subquery.mask query)).bind fun m => m.part? .whereWord with
  | some p => Text.dropBytes query p.start.offset
  | none => []

namespace Mutation

/-- Checks the head of a delete. -/
def deleteHead (held : Held) : HeadReport :=
  let m? := Grammar.deleteHeader.find? held.text
  { checks := [⟨m?.isSome, .deleteInvalid⟩]
    parameters := fromPart m? .whereWord }

/-- Checks the head of an update. -/
def updateHead (held : Held) : HeadReport :=
  { checks := [
      ⟨Grammar.updateHeader.hasMatch held.text, .updateInvalid⟩,
      ⟨Grammar.assignmentList.hasMatch held.text, .setInvalid⟩]
    parameters := fromPart (Grammar.updateSpan.find? held.text) .whereWord }

/-- Checks the head of a merge. -/
def mergeHead (held : Held) : HeadReport :=
  let source? := mergeSource? held
  { checks := [
      ⟨source?.isSome, .mergeInvalid⟩,
      ⟨Grammar.matchedClause.hasMatch held.text, .matchedInvalid⟩]
    parameters := (source?.map ownParameters).getD [] }

/-- Checks the head of a mutation. Only the head of a merge is under the time limit. -/
def head (budget : Budget) (held : Held) : Mutation → Except Timeout HeadReport
  | delete => .ok (deleteHead held)
  | update => .ok (updateHead held)
  | merge => budget.bounded (mergeHead held)

end Mutation

end MutationPreview
