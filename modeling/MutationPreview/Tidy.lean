import MutationPreview.Held
import MutationPreview.Profile

/-!
# Tidying a query

The held text of a query is tidied before it is reverted: stray words `using` and marks of staging
tables are dropped, the identifier is put into entity expressions, words such as `from` and `and`
start a line, and runs of spaces become one space. The identifier is held like any literal, so
that reversion writes it.
-/

namespace MutationPreview

/-- A value as a quoted literal; quotes inside it are doubled. -/
def quoteLiteral (value : Text) : Text :=
  '\'' :: Text.replace "'".toList "''".toList value ++ ['\'']

/-- A call of the entity function. -/
def entityCallText (profile : Profile) (token : Text) : Text :=
  profile.entityFunction ++ '(' :: token ++ [')']

/-- Puts the token of the identifier into entity calls whose argument is a held literal, and
writes such a call for every bare entity token. -/
def injectIdentifier (profile : Profile) (literals : Ledger) (token : Text) (t : Text) : Text :=
  let call := entityCallText profile token
  let inCalls := profile.entityCall.replaceAll (fun m =>
    match m.part? .argument with
    | some argument => if literals.holds argument.text then call else m.text
    | none => m.text) t
  profile.entityToken.replaceAll (fun _ => call) inCalls

/-- Starts a line at each connective. -/
def breakLines (t : Text) : Text :=
  Grammar.lineStart.replaceAll (fun m =>
    match m.part? .connective with
    | some connective => '\n' :: connective.text ++ [' ']
    | none => m.text) t

/-- Turns runs of spaces into one space. -/
def collapseSpaces (t : Text) : Text := Grammar.spaceRun.replaceAll (fun _ => [' ']) t

/-- Tidies the text of a held query. -/
def tidy (profile : Profile) (identifier : Text) (held : Held) : Held :=
  let t := Grammar.usingKeyword.replaceAll (fun _ => []) held.text
  let t := profile.stagingMark.replaceAll (fun _ => []) t
  let (held, token) := held.holdLiteral (quoteLiteral identifier)
  let t := injectIdentifier profile held.literals token t
  { held with text := collapseSpaces (breakLines t) }

end MutationPreview
