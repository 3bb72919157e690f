import MutationPreview.Config.Fault
import MutationPreview.Message
import MutationPreview.Text.CharClass

/-!
# Configurations

A configuration chooses the words and marks of a conversion. Every field has a default. A
configuration is checked before it is used (`Config.check`); of several faults, the first in the
order of the checks is reported.
-/

namespace MutationPreview

/-- The choices of a conversion. -/
structure Config where
  /-- Time limit of each bounded step, in milliseconds. -/
  matchTimeoutMs : Nat := 250
  /-- Template of the tokens for string literals. -/
  literalTemplate : Text := "STR_".toList ++ numberSlot
  /-- Template of the tokens for subqueries. -/
  subqueryTemplate : Text := "(SUB_".toList ++ numberSlot ++ ")".toList
  /-- What stands for a nested subquery while the clause around it is checked. -/
  resolvedMark : Text := "(SUB_RESOLVED)".toList
  /-- Put in front of every rejected predicate. -/
  errorMarker : Text := "[PARAMERROR]".toList
  /-- The function that the identifier is an argument of. -/
  entityFunction : Text := "toentityid".toList
  /-- The bare token that stands for a call of that function. -/
  entityToken : Text := ":entityid".toList
  /-- The mark of staging tables, dropped from previews. -/
  stagingMark : Text := "tmp_".toList
  /-- Ends every statement. -/
  terminator : Char := ';'
  /-- Characters that a batch must not hold. -/
  disallowedQuotes : List Char := ['’']
  /-- Message templates by the name of the message. -/
  messages : List (Text × Text) := []
deriving DecidableEq, Repr

namespace Config

/-- Sets the template of a message. -/
def setMessage (c : Config) (key : MessageKey) (template : Text) : Config :=
  { c with messages := c.messages.filter (·.1 ≠ key.name) ++ [(key.name, template)] }

/-- The overrides that named templates stand for. -/
def overridesOf : List (Text × Text) → Except ConfigFault (List (MessageKey × Text))
  | [] => .ok []
  | (name, template) :: rest =>
    match MessageKey.ofName? name with
    | none => .error (.unknownMessage name)
    | some key =>
      match overridesOf rest with
      | .error fault => .error fault
      | .ok others => .ok ((key, template) :: others)

/-- The catalog with the overrides of the configuration. -/
def catalog (c : Config) : Except ConfigFault Catalog :=
  match overridesOf c.messages with
  | .error fault => .error fault
  | .ok overrides => .ok { overrides }

/-- The fault of the fields that are not messages, if there is one. -/
def fieldFault? (c : Config) : Option ConfigFault :=
  if !Text.occursIn numberSlot c.literalTemplate then
    some (.slotMissing "literal_placeholder".toList c.literalTemplate)
  else if !Text.occursIn numberSlot c.subqueryTemplate then
    some (.slotMissing "subquery_placeholder".toList c.subqueryTemplate)
  else if c.literalTemplate.contains '\'' then some .quoteInLiteral
  else if Text.isBlank c.resolvedMark then some (.blankField "resolved_placeholder".toList)
  else if Text.isBlank c.entityFunction then some (.blankField "entity_function".toList)
  else if Text.isBlank c.entityToken then some (.blankField "entity_token".toList)
  else none

/-- Accepts the configurations that a conversion can work with. -/
def check (c : Config) : Except ConfigFault Config :=
  match c.fieldFault? with
  | some fault => .error fault
  | none =>
    match c.catalog with
    | .error fault => .error fault
    | .ok _ => .ok c

end Config

end MutationPreview
