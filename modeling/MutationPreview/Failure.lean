import MutationPreview.Budget
import MutationPreview.Message
import MutationPreview.Statement

/-!
# Failures

Why a batch or a statement is not converted, and how each cause is worded.
-/

namespace MutationPreview

/-- Why a whole batch is refused, in the order in which the causes are looked for. -/
inductive Precondition where
  | missingSqlAndId
  | missingSql
  | missingId
  | smartQuote
  | noTerminator
deriving DecidableEq, Repr

namespace Precondition

/-- The message for the user. -/
def key : Precondition → MessageKey
  | missingSqlAndId => .requirements
  | missingSql => .sqlRequired
  | missingId => .idRequired
  | smartQuote => .invalidQuote
  | noTerminator => .noTerminator

/-- The wording of the cause. -/
def cause : Precondition → Text
  | missingSqlAndId => "sql and id are empty".toList
  | missingSql => "sql is empty".toList
  | missingId => "id is empty".toList
  | smartQuote => "sql contains a smart quote".toList
  | noTerminator => "sql has no statement terminator".toList

end Precondition

/-- Why a batch or a statement is not converted. -/
inductive Failure where
  /-- The batch is refused. -/
  | refused (cause : Precondition)
  /-- The statement does not have the shape of its kind. -/
  | badShape (kind : StatementKind) (key : MessageKey)
  /-- Predicates of the statement have no accepted form. -/
  | badPredicates (kind : StatementKind) (fragments : List Text)
  /-- A bounded step reached its limit. -/
  | timeout (limit : Timeout)
  /-- The first word is none that can be converted. -/
  | unsupported (keyword : Text)
  /-- What came out is no query. -/
  | notQuery (kind : StatementKind) (sql : Text)
  /-- The configuration has a fault. -/
  | configuration (detail : Text)
deriving DecidableEq, Repr

/-- The wording of a failure. -/
def Failure.message : Failure → Text
  | refused cause => "Precondition failed: ".toList ++ cause.cause
  | badShape kind key =>
    kind.name ++ " statement has an invalid shape (".toList ++ key.name ++ ")".toList
  | badPredicates kind fragments =>
    kind.name ++ " statement has ".toList ++ Text.ofNat fragments.length ++
      " unrecognized predicate(s)".toList
  | timeout limit => limit.message
  | unsupported keyword => "Unsupported statement: '".toList ++ keyword ++ "'".toList
  | notQuery kind _ => kind.name ++ " statement did not produce a SELECT".toList
  | configuration detail => "Configuration error: ".toList ++ detail

/-- Takes a step under a time limit as a step that may fail. -/
def liftTimeout {α : Type} : Except Timeout α → Except Failure α
  | .ok a => .ok a
  | .error limit => .error (.timeout limit)

end MutationPreview
