import MutationPreview.Grammar
import MutationPreview.Ledger
import MutationPreview.Subquery

/-!
# Held statements

A held statement is a working copy in which tokens stand for string literals and for outermost
subqueries. Literals are held first, so that brackets inside quotes are out of the way when the
subqueries are found; the text of a held subquery therefore carries literal tokens. Reverting
puts the subqueries back first and then the literals.
-/

namespace MutationPreview

/-- A statement with its literals and subqueries held back. -/
structure Held where
  text : Text
  literals : Ledger
  subqueries : Ledger
deriving DecidableEq, Repr

/-- The text with every line break turned into a space, and no spaces at its ends. -/
def joinLines (raw : Text) : Text :=
  Text.trim (· == ' ') (raw.map fun c => if c == '\r' || c == '\n' then ' ' else c)

namespace Held

/-- Holds the literals and then the subqueries of a text. -/
def ofText (literalFormat subqueryFormat : TokenFormat) (raw : Text) : Held :=
  let cleaned := joinLines raw
  let (literals, t) := Ledger.holdSpans Match.text ⟨literalFormat.avoiding cleaned, []⟩
    (Grammar.literal.segments cleaned)
  let (subqueries, text) := Ledger.holdSpans Subquery.cover ⟨subqueryFormat.avoiding t, []⟩
    (Subquery.segments t)
  { text, literals, subqueries }

/-- Holds one more literal and gives its token. -/
def holdLiteral (h : Held) (literal : Text) : Held × Text :=
  let (literals, token) := h.literals.hold literal
  ({ h with literals }, token)

/-- The text of a held subquery, brackets included. -/
def subquery? (h : Held) (token : Text) : Option Text := h.subqueries.get? token

/-- The text with everything put back. -/
def revert (h : Held) : Text := h.literals.revert (h.subqueries.revert h.text)

end Held

end MutationPreview
