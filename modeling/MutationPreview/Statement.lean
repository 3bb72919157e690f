import MutationPreview.Text.CharClass

/-!
# Statements of a batch

A batch is cut after every terminator that does not lie between two paired quotes. Quotes pair
from left to right; a quote that nothing closes is an ordinary character. Each piece loses the
noise at its ends, and its first word decides its kind.
-/

namespace MutationPreview

/-- The kind of a statement, decided by its first word. -/
inductive StatementKind where
  | update
  | delete
  | merge
  | unknown
deriving DecidableEq, Repr

namespace StatementKind

/-- The name of the kind in messages. -/
def name : StatementKind → Text
  | update => "Update".toList
  | delete => "Delete".toList
  | merge => "Merge".toList
  | unknown => "Unknown".toList

/-- The kind that a first word stands for, in any letter case. -/
def ofKeyword (word : Text) : StatementKind :=
  if Text.sameAscii word "update".toList then update
  else if Text.sameAscii word "delete".toList then delete
  else if Text.sameAscii word "merge".toList then merge
  else unknown

end StatementKind

/-- A statement: its kind, its first word as written, and its text. -/
structure Statement where
  kind : StatementKind
  keyword : Text
  sql : Text
deriving DecidableEq, Repr

/-- The first word of a statement: its leading run of letters, numbers and underscores, or else
everything up to the first blank. -/
def leadingWord (sql : Text) : Text :=
  match sql.takeWhile fun c => isAlphanumeric c || c == '_' with
  | [] => Text.firstWord sql
  | word => word

/-- The statement with a given text. -/
def Statement.ofText (sql : Text) : Statement :=
  let keyword := leadingWord sql
  { kind := .ofKeyword keyword, keyword, sql }

/-! ## Cutting a batch -/

/-- The pieces of a batch and what follows the last of them. -/
structure Pieces where
  pieces : List Text
  rest : Text
deriving DecidableEq, Repr

/-- Puts a character in front of the first piece, or of the rest when there is no piece. -/
def Pieces.push (c : Char) : Pieces → Pieces
  | ⟨[], rest⟩ => ⟨[], c :: rest⟩
  | ⟨piece :: pieces, rest⟩ => ⟨(c :: piece) :: pieces, rest⟩

/-- Cuts a text that starts inside quotes or outside them. A quote is read before the terminator
is, and opens only if there is one to close it. -/
def cutFrom (terminator : Char) : (quoted : Bool) → Text → Pieces
  | _, [] => ⟨[], []⟩
  | true, c :: rest => (cutFrom terminator (c != '\'') rest).push c
  | false, c :: rest =>
    if c = '\'' then (cutFrom terminator (rest.contains '\'') rest).push c
    else
      let others := cutFrom terminator false rest
      if c = terminator then ⟨[c] :: others.pieces, others.rest⟩ else others.push c

/-- The pieces of a batch, each with the terminator that ends it, and the text after the last
terminator. -/
def cutBatch (terminator : Char) (batch : Text) : Pieces := cutFrom terminator false batch

/-- The characters that are dropped from both ends of a piece. -/
def isNoise (c : Char) : Bool :=
  [' ', '.', '\'', '"', '\n', '\r', '\t', '\x0b', '\x0c'].contains c

/-- The statement of a piece, if the piece holds more than noise, terminators and blanks. -/
def Statement.ofPiece? (terminator : Char) (piece : Text) : Option Statement :=
  let sql := Text.trim isNoise piece
  if Text.isBlank (Text.trimEnd (· == terminator) sql) then none else some (.ofText sql)

/-- The statements of a batch in order. -/
def statementsOf (terminator : Char) (batch : Text) : List Statement :=
  (cutBatch terminator batch).pieces.filterMap (Statement.ofPiece? terminator)

end MutationPreview
