import MutationPreview.Clause
import MutationPreview.Mutation.Select
import MutationPreview.Record
import MutationPreview.Tidy

/-!
# Conversion of a batch

A job is a batch with the identifier that its previews are for. A batch that misses a precondition
is refused as a whole. Otherwise each statement gives one record: it is held, its head and its
predicates are checked, it is turned into a query, and the query is tidied and reverted. Whatever
fails on the way fails for that statement only.
-/

namespace MutationPreview

/-- A batch to be converted, with the identifier in normal form. -/
structure Job where
  profile : Profile
  catalog : Catalog
  sql : Text
  identifier : Text

namespace Job

/-- The job for a batch; the identifier loses blanks at its ends and is upper-cased. -/
def ofInput (profile : Profile) (catalog : Catalog) (sql identifier : Text) : Job :=
  { profile, catalog, sql, identifier := Text.upper (Text.trimBlank identifier) }

/-! ## Preconditions -/

/-- The first precondition that the batch misses. -/
def missed? (job : Job) : Option Precondition :=
  let noSql := Text.isBlank job.sql
  let noId := job.identifier.isEmpty
  if noSql && noId then some .missingSqlAndId
  else if noSql then some .missingSql
  else if noId then some .missingId
  else if job.sql.any job.profile.disallowedQuotes.contains then some .smartQuote
  else if !job.sql.contains job.profile.terminator then some .noTerminator
  else none

/-- The message for the precondition that the batch misses. -/
def refusal? (job : Job) : Option Text :=
  job.missed?.map fun cause => job.catalog.resolve cause.key []

/-- The statements of the batch. -/
def statements (job : Job) : List Statement := statementsOf job.profile.terminator job.sql

/-! ## One statement -/

/-- Marks every occurrence of the fragments, one fragment after the other; a fragment that was
`seen` before is passed over. -/
def markFrom (marker : Text) : (seen fragments : List Text) → Text → Text
  | _, [], sql => sql
  | seen, fragment :: rest, sql =>
    if seen.contains fragment then markFrom marker seen rest sql
    else markFrom marker (fragment :: seen) rest (Text.replace fragment (marker ++ fragment) sql)

/-- Puts the marker in front of every occurrence of each fragment. -/
def annotate (marker : Text) (fragments : List Text) (sql : Text) : Text :=
  markFrom marker [] fragments sql

/-- The query of a statement. -/
def preview (job : Job) (statement : Statement) : Except Failure Text := do
  let mutation ← statement.mutation
  let held := Held.ofText job.profile.literalFormat job.profile.subqueryFormat statement.sql
  let report ← liftTimeout (mutation.head job.profile.budget held)
  match report.failure? with
  | some key => throw (.badShape mutation.kind key)
  | none => pure ()
  let findings ← liftTimeout (checkParameters job.profile held report.parameters)
  if !findings.valid then throw (.badPredicates mutation.kind findings.fragments)
  let query ← mutation.toQuery job.profile held
  let sql := (tidy job.profile job.identifier query).revert
  if !Grammar.queryHead.hasMatch (sql.dropWhile isBlank) then throw (.notQuery mutation.kind sql)
  return sql

/-- The message that a statement of its kind was not converted. -/
def notConverted (job : Job) (statement : Statement) : Text :=
  job.catalog.resolve .notConverted [statement.kind.name]

/-- The record of a statement that failed. -/
def failureRecord (job : Job) (statement : Statement) (failure : Failure) : Record :=
  match failure with
  | .badShape _ key => ⟨statement.sql, true, job.catalog.resolve key []⟩
  | .badPredicates _ fragments =>
    ⟨annotate job.profile.errorMarker fragments statement.sql, true, job.notConverted statement⟩
  | .timeout _ => ⟨statement.sql, true, job.catalog.resolve .timeout []⟩
  | .unsupported keyword => ⟨statement.sql, true, job.catalog.resolve .unsupported [keyword]⟩
  | .notQuery _ sql => ⟨sql, true, job.notConverted statement⟩
  | .refused _ | .configuration _ => ⟨statement.sql, true, job.notConverted statement⟩

/-- The record of a statement. -/
def record (job : Job) (statement : Statement) : Record :=
  match job.preview statement with
  | .ok sql => ⟨sql, false, job.catalog.resolve .converted [statement.kind.name]⟩
  | .error failure => job.failureRecord statement failure

/-! ## The batch -/

/-- The records of all statements in order, unless the batch is refused. -/
def records (job : Job) : Except Precondition (List Record) :=
  match job.missed? with
  | some cause => .error cause
  | none => .ok (job.statements.map job.record)

/-- The kinds of the statements, whether or not the batch is refused. -/
def kinds (job : Job) : List StatementKind := job.statements.map Statement.kind

end Job

/-- Converts a batch with a configuration. -/
def convertWith (config : Config) (sql identifier : Text) : Except Failure (List Record) :=
  match config.profile, config.catalog with
  | .error fault, _ | _, .error fault => .error (.configuration fault.detail)
  | .ok profile, .ok catalog =>
    match (Job.ofInput profile catalog sql identifier).records with
    | .ok records => .ok records
    | .error cause => .error (.refused cause)

/-- Converts a batch with the default configuration. -/
def convert (sql identifier : String) : Except Failure (List Record) :=
  convertWith {} sql.toList identifier.toList

end MutationPreview
