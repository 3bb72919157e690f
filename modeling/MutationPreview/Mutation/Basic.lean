import MutationPreview.Failure

/-!
# Mutations

The statements that can be converted, and what checking the head of one reports.
-/

namespace MutationPreview

/-- The kinds of statements that can be converted. -/
inductive Mutation where
  | update
  | delete
  | merge
deriving DecidableEq, Repr

/-- The kind of a mutation among all statements. -/
def Mutation.kind : Mutation → StatementKind
  | update => .update
  | delete => .delete
  | merge => .merge

/-- The mutation that a statement is. -/
def Statement.mutation (s : Statement) : Except Failure Mutation :=
  match s.kind with
  | .update => .ok .update
  | .delete => .ok .delete
  | .merge => .ok .merge
  | .unknown => .error (.unsupported s.keyword)

/-- One check of a head: whether it passed, and the message if it did not. -/
structure HeadCheck where
  passed : Bool
  key : MessageKey
deriving DecidableEq, Repr

/-- The checks of a head in order, and the text that carries the predicates, from `where` on. -/
structure HeadReport where
  checks : List HeadCheck
  parameters : Text
deriving DecidableEq, Repr

/-- The message of the first check that did not pass. -/
def HeadReport.failure? (r : HeadReport) : Option MessageKey :=
  (r.checks.find? fun check => !check.passed).map HeadCheck.key

/-- Whether all checks passed. -/
def HeadReport.passed (r : HeadReport) : Bool := r.failure?.isNone

end MutationPreview
