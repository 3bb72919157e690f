import MutationPreview.Text.Basic
import MutationPreview.Text.CodeRanges

/-!
# Character classes

The classes are those of the Unicode standard, and on ASCII they are decided without the tables.
Two editions of the standard are in use. Patterns go by the sixteenth: `isDigit` and `isWord` are
theirs. Keywords and configured tokens go by the seventeenth: `isAlphanumeric` is theirs. So a
letter that the seventeenth edition added may stand in a keyword, and is no part of a word to a
pattern. White space is the same in both.
-/

namespace MutationPreview

/-- White space. -/
def isBlank (c : Char) : Bool := CodeRanges.blank.has c.toNat

/-- Whether a character is new in the seventeenth edition. -/
def isAddedLast (c : Char) : Bool := CodeRanges.addedLast.has c.toNat

/-- Decimal digits of every script, to patterns. -/
def isDigit (c : Char) : Bool :=
  if c.toNat < 128 then c.isDigit else CodeRanges.decimalDigit.has c.toNat && !isAddedLast c

/-- Letters and numbers of every script, new ones included. -/
def isAlphanumeric (c : Char) : Bool :=
  if c.toNat < 128 then c.isAlphanum
  else CodeRanges.alphabetic.has c.toNat || CodeRanges.decimalDigit.has c.toNat ||
    CodeRanges.otherNumber.has c.toNat

/-- The characters that words are made of, to patterns: letters, marks, decimal digits and
connectors. -/
def isWord (c : Char) : Bool :=
  if c.toNat < 128 then c.isAlphanum || c == '_'
  else (CodeRanges.alphabetic.has c.toNat || CodeRanges.decimalDigit.has c.toNat ||
    CodeRanges.wordJoiner.has c.toNat) && !isAddedLast c

/-- The text without blanks at either end. -/
def Text.trimBlank (t : Text) : Text := Text.trim isBlank t

/-- Whether a text holds nothing but blanks. -/
def Text.isBlank (t : Text) : Bool := t.all MutationPreview.isBlank

/-- The first run of characters that are not blank. -/
def Text.firstWord (t : Text) : Text :=
  (t.dropWhile MutationPreview.isBlank).takeWhile fun c => !MutationPreview.isBlank c

end MutationPreview
