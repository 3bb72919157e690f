import MutationPreview.Text.Basic

/-!
# Records

The outcome of one statement.
-/

namespace MutationPreview

/-- The outcome of one statement: the query or the statement itself, and a message. -/
structure Record where
  sql : Text
  isError : Bool
  message : Text
deriving DecidableEq, Repr

end MutationPreview
