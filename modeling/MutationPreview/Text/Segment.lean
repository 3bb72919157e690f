import MutationPreview.Text.Basic

/-!
# Texts with some of their spans singled out

A scan that finds spans in a text returns the whole text as a list of segments: single characters
that lie in no span, and the spans. Whatever is done to the spans then (replacing, blanking,
cutting) is a recursion on that list, without positions. `Segment.byteSpans` is the view in
positions.
-/

namespace MutationPreview

/-- One segment of a text: a character outside all spans, or a span. -/
inductive Segment (α : Type) where
  | plain (c : Char)
  | span (a : α)

namespace Segment

variable {α : Type}

/-- The text of the segments, with `cover` for the text of a span. -/
def join (cover : α → Text) : List (Segment α) → Text
  | [] => []
  | plain c :: rest => c :: join cover rest
  | span a :: rest => cover a ++ join cover rest

/-- The spans in order. -/
def spans : List (Segment α) → List α
  | [] => []
  | plain _ :: rest => spans rest
  | span a :: rest => a :: spans rest

/-- The texts between the spans; there is one more than there are spans. -/
def gaps : List (Segment α) → List Text
  | [] => [[]]
  | plain c :: rest =>
    match gaps rest with
    | [] => [[c]]
    | gap :: more => (c :: gap) :: more
  | span _ :: rest => [] :: gaps rest

/-- First and last byte offsets of the spans, in a text that starts at `offset`; the last offset
of a span is the first one after it. -/
def byteSpans (cover : α → Text) : Nat → List (Segment α) → List (Nat × Nat)
  | _, [] => []
  | offset, plain c :: rest => byteSpans cover (offset + c.utf8Size) rest
  | offset, span a :: rest =>
    let stop := offset + (cover a).bytes
    (offset, stop) :: byteSpans cover stop rest

/-- The joined text of two lists of segments in a row. -/
theorem join_append (cover : α → Text) (a b : List (Segment α)) :
    join cover (a ++ b) = join cover a ++ join cover b := by
  induction a with
  | nil => rfl
  | cons s a ih => cases s <;> simp [join, ih]

end Segment

end MutationPreview
