import MutationPreview.Text.Basic
import MutationPreview.Text.CaseRun

/-!
# Letter case

Two characters are the same letter when simple case folding sends them to one character. So the
long s is an s and the Kelvin sign is a k, while the dotless i and the dotted capital I are
letters of their own. Upper-casing uses the full mapping, under which one letter may become
several characters. Folding serves patterns and goes by the sixteenth edition of the Unicode
standard, like their character classes; upper-casing goes by the seventeenth.
-/

namespace MutationPreview

/-- The least character of the class of `c` under simple case folding. -/
def foldCase (c : Char) : Char :=
  if c.toNat < 128 then c.toUpper else Char.ofNat (CaseRun.map CaseRun.folding c.toNat)

/-- Whether two characters are the same letter up to case. -/
def sameLetter (a b : Char) : Bool := a == b || foldCase a == foldCase b

/-- The upper-case form of one character. -/
def upperChar (c : Char) : Text :=
  if c.toNat < 128 then [c.toUpper]
  else match CaseRun.expanded.lookup c.toNat with
    | some codes => codes.map Char.ofNat
    | none => [Char.ofNat (CaseRun.map CaseRun.upper c.toNat)]

/-- The upper-case form of a text. -/
def Text.upper (t : Text) : Text := t.flatMap upperChar

end MutationPreview
