import MutationPreview.Budget
import MutationPreview.Grammar

/-!
# Forms of predicates

Every predicate of an accepted clause has one of seven forms. The forms are tried in a fixed order,
each against the whole fragment.
-/

namespace MutationPreview

/-- The accepted forms, in the order in which they are tried. -/
inductive PredicateForm where
  | regexpLike
  | regexpExtract
  | regexpPosition
  | comparison
  | nullTest
  | like
  | inList
deriving DecidableEq, Repr

namespace PredicateForm

open Pattern

/-- All forms in order. -/
def all : List PredicateForm :=
  [regexpLike, regexpExtract, regexpPosition, comparison, nullTest, like, inList]

/-- The name of the form. -/
def name : PredicateForm → Text
  | regexpLike => "RegexpLike".toList
  | regexpExtract => "RegexpExtractCompare".toList
  | regexpPosition => "RegexpPositionCompare".toList
  | comparison => "Comparison".toList
  | nullTest => "NullTest".toList
  | like => "Like".toList
  | inList => "InList".toList

/-- What the form looks like. -/
def description : PredicateForm → Text
  | regexpLike => "[NOT] REGEXP_LIKE(expr, 'pattern'[, 'flags'])".toList
  | regexpExtract =>
    "REGEXP_SUBSTR|REGEXP_REPLACE(expr, 'pattern', ...) = value | IN (a, b, ...)".toList
  | regexpPosition => "REGEXP_INSTR(expr, 'pattern', ...) = value | IN (a, b, ...)".toList
  | comparison => "expr = | != | < | > | <= | >= value".toList
  | nullTest => "expr IS [NOT] NULL".toList
  | like => "expr [NOT] LIKE 'pattern'".toList
  | inList => "expr [NOT] IN (a, b, ...)".toList

/-! ## Pieces of the forms -/

/-- At least one character, the more the better. -/
def something : Pattern := many1 fun _ => true

/-- The opening bracket of a call, an expression, a comma and a quoted pattern. -/
def callStart : Pattern := chain [
  blanks, just '(', few1, just ',', blanks, just '\'', few1, just '\'']

/-- An optional further argument of a call. -/
def furtherArgument (argument : Pattern) : Pattern :=
  optional (chain [just ',', blanks, argument, blanks])

/-- A quoted flag of a call. -/
def flag : Pattern := chain [
  just '\'', char (fun c => "cinmx".toList.any fun x => sameLetter x c), just '\'']

/-- The end of a call. -/
def callEnd : Pattern := chain [blanks, just ')']

/-- The comparison of a call's value: with one value, or with a list of at least two. -/
def compared : Pattern := seq blanks (alt
  (chain [just '=', blanks, optional (just '('), something, optional (just ')')])
  (chain [word "in".toList, blanks, just '(', something, just ',', something, just ')']))

/-- An optional `not` after blanks. -/
def optionalNot : Pattern := optional (seq blanks1 (word "not".toList))

/-- The pattern of a form. -/
def pattern : PredicateForm → Pattern
  | regexpLike => chain [
      blanks, optional (seq (word "not".toList) blanks1), word "regexp_like".toList, callStart,
      furtherArgument flag, callEnd]
  | regexpExtract => chain [
      blanks, word "regexp_".toList, alt (word "substr".toList) (word "replace".toList), callStart,
      furtherArgument (char isDigit), furtherArgument (many1 isDigit),
      furtherArgument flag, callEnd, compared]
  | regexpPosition => chain [
      blanks, word "regexp_instr".toList, callStart,
      furtherArgument (char isDigit), furtherArgument (many1 isDigit),
      furtherArgument (many1 isDigit), furtherArgument flag, callEnd, compared]
  | comparison => chain [
      textStart, few1,
      firstOf [
        seq (optional (char fun c => c == '<' || c == '>')) (just '='),
        seq (just '!') (just '='), just '>', just '<'],
      blanks, many1 fun c => !isBlank c]
  | nullTest => chain [
      textStart, few1, blanks1, word "is".toList, optionalNot, blanks1,
      word "null".toList]
  | like => chain [
      textStart, few1, optionalNot, blanks1, word "like".toList, blanks1,
      optional (seq (just '(') blanks), just '\'', optional (just '%'), something,
      optional (just '%'), just '\'', optional (chain [blanks, just ')', blanks])]
  | inList => chain [
      textStart, few1, optionalNot, blanks1, word "in".toList, blanks1, just '(', blanks,
      something, blanks, just ')']

/-- Whether a fragment has a form. -/
def accepts (form : PredicateForm) (fragment : Text) : Bool := form.pattern.hasMatch fragment

/-- The first form that a fragment has. -/
def classify? (fragment : Text) : Option PredicateForm :=
  all.find? fun form => form.accepts fragment

/-- The first form that a fragment has, within a time limit. -/
def classify (budget : Budget) (fragment : Text) : Except Timeout (Option PredicateForm) :=
  budget.bounded (classify? fragment)

end PredicateForm

end MutationPreview
