import MutationPreview.Budget
import MutationPreview.Config.Basic
import MutationPreview.Grammar
import MutationPreview.Token

/-!
# Profiles

A profile is a checked configuration in the form that a conversion works with: token formats and
patterns in place of templates and words.
-/

namespace MutationPreview

/-- A configuration ready for use. -/
structure Profile where
  literalFormat : TokenFormat
  subqueryFormat : TokenFormat
  resolvedMark : Text
  errorMarker : Text
  entityFunction : Text
  entityCall : Pattern
  entityToken : Pattern
  stagingMark : Pattern
  terminator : Char
  disallowedQuotes : List Char
  budget : Budget

/-- The profile of a configuration. -/
def Config.profile (c : Config) : Except ConfigFault Profile := do
  let c ← c.check
  let literalFormat ← TokenFormat.parse c.literalTemplate
  let subqueryFormat ← TokenFormat.parse c.subqueryTemplate
  return {
    literalFormat
    subqueryFormat
    resolvedMark := c.resolvedMark
    errorMarker := c.errorMarker
    entityFunction := c.entityFunction
    entityCall := Grammar.entityCall c.entityFunction
    entityToken := Grammar.entityToken c.entityToken
    stagingMark := Grammar.stagingMark c.stagingMark
    terminator := c.terminator
    disallowedQuotes := c.disallowedQuotes
    budget := ⟨c.matchTimeoutMs⟩ }

end MutationPreview
