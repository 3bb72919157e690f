import MutationPreview.Pattern.Basic
import MutationPreview.Text.Segment

/-!
# Matches of a pattern in a text

The match of a pattern at a place is its preferred reading there. A search takes the leftmost
place that has one. The matches of a whole text are found from left to right without overlap: the
search goes on where the last match ended, and there an empty match does not count.

`Pattern.segments` is the text with its matches singled out; listing, replacing and splitting are
read off it.
-/

namespace MutationPreview

/-- A match: where it starts and stops, and the parts that it singles out. -/
structure Match where
  start : Cursor
  stop : Cursor
  parts : List Capture
deriving DecidableEq, Repr

namespace Match

/-- The text that was matched. -/
def text (m : Match) : Text := m.start.upTo m.stop

/-- The part of a given name. -/
def part? (m : Match) (name : Part) : Option Capture := m.parts.find? fun p => p.name = name

end Match

/-- The text of a part. -/
def Capture.text (c : Capture) : Text := c.start.upTo c.stop

namespace Pattern

/-- The match at a given place. -/
def matchAt? (p : Pattern) (here : Cursor) : Option Match :=
  p.run (fun r => some ⟨here, r.here, r.parts⟩) ⟨here, []⟩

/-- The leftmost match in a text that continues `before` with `after`, from between the two on. -/
def findFrom? (p : Pattern) : (before after : Text) → Option Match
  | before, [] => p.matchAt? ⟨before, []⟩
  | before, c :: rest =>
    match p.matchAt? ⟨before, c :: rest⟩ with
    | some m => some m
    | none => findFrom? p (c :: before) rest

/-- The leftmost match in a text. -/
def find? (p : Pattern) (t : Text) : Option Match := p.findFrom? [] t

/-- Whether a text has a match. -/
def hasMatch (p : Pattern) (t : Text) : Bool := (p.find? t).isSome

/-- The segments of a text that continues `before` with `after`. The next `skip` characters lie in
the last match, and `fresh` says whether an empty match counts at the first place after them. -/
def segmentsFrom (p : Pattern) : (skip : Nat) → (fresh : Bool) → (before after : Text) →
    List (Segment Match)
  | 0, fresh, before, [] =>
    match p.matchAt? ⟨before, []⟩ with
    | some m => if fresh then [.span m] else []
    | none => []
  | _ + 1, _, _, [] => []
  | skip + 1, fresh, before, c :: rest => segmentsFrom p skip fresh (c :: before) rest
  | 0, fresh, before, c :: rest =>
    match p.matchAt? ⟨before, c :: rest⟩ with
    | none => .plain c :: segmentsFrom p 0 true (c :: before) rest
    | some m =>
      match m.text.length with
      | size + 1 => .span m :: segmentsFrom p size false (c :: before) rest
      | 0 =>
        let others := .plain c :: segmentsFrom p 0 true (c :: before) rest
        if fresh then .span m :: others else others

/-- A text with the matches of a pattern singled out. -/
def segments (p : Pattern) (t : Text) : List (Segment Match) := p.segmentsFrom 0 true [] t

/-- All matches in a text, without overlap. -/
def findAll (p : Pattern) (t : Text) : List Match := Segment.spans (p.segments t)

/-- Puts `f m` in place of every match `m`. -/
def replaceAll (p : Pattern) (f : Match → Text) (t : Text) : Text :=
  Segment.join f (p.segments t)

/-- The texts between the matches. -/
def split (p : Pattern) (t : Text) : List Text := Segment.gaps (p.segments t)

end Pattern

end MutationPreview
