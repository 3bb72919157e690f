import MutationPreview.Pattern.Search

/-!
# The grammar of statements

The patterns by which statements and clauses are recognised. They are read on held text, in which
tokens stand for literals and subqueries. Words are matched in any letter case, and a pattern may
match anywhere in a text unless it says otherwise.
-/

namespace MutationPreview

namespace Pattern

/-- A word on its own. -/
def wholeWord (t : Text) : Pattern := chain [wordEdge, word t, wordEdge]

/-- The `where` of a clause, singled out. -/
def wherePart : Pattern := part .whereWord (wholeWord "where".toList)

/-- A name qualified by a schema. -/
def qualifiedName : Pattern := chain [name, just '.', name]

/-- A word such as an alias, with the blanks after it, or nothing. -/
def optionalName : Pattern := optional (chain [name, blanks1])

/-- Any number of characters, the fewer the better. -/
def anything : Pattern := few fun _ => true

end Pattern

namespace Grammar

open Pattern

/-- A single-quoted literal. -/
def literal : Pattern := chain [just '\'', many (· != '\''), just '\'']

/-! ## Headers -/

/-- The head `delete from <schema>.<table> [alias] where` -/
def deleteHeader : Pattern := chain [
  wordEdge, word "delete".toList, blanks1, word "from".toList, blanks1,
  part .table qualifiedName, blanks1, optionalName,
  part .whereWord (word "where".toList), wordEdge]

/-- The head `update <schema>.<table> [alias] set` -/
def updateHeader : Pattern := chain [
  wordEdge, word "update".toList, blanks1, qualifiedName, blanks1, optionalName,
  word "set".toList, wordEdge]

/-- The list `set <assignments> where`, with an equals sign among the assignments. -/
def assignmentList : Pattern := chain [
  wordEdge, word "set".toList, wordEdge, blanks,
  part .assignments (chain [few1, just '=', few1]), blanks, wholeWord "where".toList]

/-- The stretch `update <target> set … where`, whatever the target. -/
def updateSpan : Pattern := chain [
  wordEdge, word "update".toList, blanks1, part .target few1, blanks1,
  word "set".toList, wordEdge, anything, wherePart]

/-- A whole text that names one field: `[(] [alias.]<field> [)]` -/
def assignmentTarget : Pattern := chain [
  textStart, blanks, optional (just '('), blanks, optional (chain [name, just '.']),
  part .field name, blanks, optional (just ')'), blanks, textEnd]

/-- The head `merge into <schema>.<table>[@link] [alias] using (<source>) [alias] on` -/
def mergeHeader : Pattern := chain [
  wordEdge, word "merge".toList, blanks1, word "into".toList, blanks1, qualifiedName,
  optional (chain [just '@', name]), blanks1, optionalName,
  word "using".toList, blanks, part .source (chain [just '(', few1, just ')']), blanks,
  optionalName, word "on".toList, wordEdge]

/-- The clause `when [not] matched then update|insert|delete` -/
def matchedClause : Pattern := chain [
  wordEdge, word "when".toList, blanks1, optional (chain [word "not".toList, blanks1]),
  word "matched".toList, blanks1, word "then".toList, blanks1,
  firstOf [word "update".toList, word "insert".toList, word "delete".toList], wordEdge]

/-- A whole text that starts `select … where`. -/
def selectHead : Pattern := chain [
  textStart, blanks, word "select".toList, wordEdge, anything, wherePart]

/-! ## Clauses -/

/-- The word `where`. -/
def whereKeyword : Pattern := wholeWord "where".toList

/-- What divides one predicate from the next: a connective with a blank on either side, or at the
start of the text. -/
def boundary : Pattern := chain [
  alt textStart (char isBlank),
  firstOf [word "where".toList, word "and".toList, word "or".toList], char isBlank]

/-! ## Layout -/

/-- The word `using`. -/
def usingKeyword : Pattern := wholeWord "using".toList

/-- A space or a line feed. -/
def isGap (c : Char) : Bool := c == ' ' || c == '\n'

/-- A word that starts a line of the preview, with the gaps around it. -/
def lineStart : Pattern := chain [
  many1 isGap,
  part .connective (firstOf [word "from".toList, word "join".toList, word "and".toList,
    word "where".toList, word "or".toList]),
  many1 isGap]

/-- Two or more spaces. -/
def spaceRun : Pattern := chain [just ' ', just ' ', many (· == ' ')]

/-- The start of a query. -/
def queryHead : Pattern := chain [
  textStart, alt (word "select".toList) (word "with".toList), wordEdge]

/-! ## Words that a configuration chooses -/

/-- The mark of staging tables at the start of a word. -/
def stagingMark (mark : Text) : Pattern := chain [wordEdge, word mark]

/-- A call of the entity function with one argument, which holds neither brackets nor blanks. -/
def entityCall (function : Text) : Pattern := chain [
  wordEdge, word function, blanks, just '(', blanks,
  part .argument (many1 fun c => !(c == '(' || c == ')' || isBlank c)), blanks, just ')']

/-- The bare entity token. If it ends like a word, it must end a word. -/
def entityToken (token : Text) : Pattern :=
  if token.getLast?.any fun c => isAlphanumeric c || c == '_' then chain [word token, wordEdge]
  else word token

end Grammar

end MutationPreview
