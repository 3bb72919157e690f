import MutationPreview.Text.CharClass
import MutationPreview.Text.Segment

/-!
# Subqueries

A subquery is a bracketed stretch `(select …)`. Brackets are paired by one scan that keeps a frame
for each bracket still open. When a bracket closes a select, all that its frame holds becomes one
span; any other bracket gives its contents back to the frame around it. A bracket that never
closes is an ordinary character, and the subqueries after it stay.

So only outermost subqueries are singled out, as segments of the text (`Subquery.segments`).
String literals are expected to be hidden before, so that brackets inside quotes are not seen.

Main statement: the segments make up the text (`Subquery.join_segments`).
-/

namespace MutationPreview

/-- Strips exactly one pair of enclosing brackets, if there is one, and blanks around it. -/
def stripBrackets (t : Text) : Text :=
  let core := Text.trimBlank t
  match core with
  | '(' :: rest => if rest.getLast? = some ')' then rest.dropLast else core
  | _ => core

/-- Whether the text after an opening bracket starts a select: blanks, the word in any ASCII letter
case, and then no ASCII letter, digit or underscore. -/
def opensSelect (rest : Text) : Bool :=
  let t := rest.dropWhile isBlank
  Text.sameAscii (t.take 6) "select".toList &&
    !(t.drop 6).head?.any fun c => c.isAlphanum || c == '_'

namespace Subquery

/-- The text of the subquery with a given body. -/
def cover (body : Text) : Text := '(' :: body ++ [')']

/-- A bracket still open: whether it opens a select, and what came after it, latest first. -/
structure Frame where
  select : Bool
  body : List (Segment Text)

/-- What a frame becomes when its bracket closes, latest first. -/
def Frame.close (f : Frame) : List (Segment Text) :=
  if f.select then [.span (Segment.join cover f.body.reverse)]
  else .plain ')' :: f.body ++ [.plain '(']

/-- The state of the scan: what lies outside all open brackets, latest first, and the open
brackets, innermost first. -/
structure Scan where
  ground : List (Segment Text)
  frames : List Frame

namespace Scan

/-- Adds segments, latest first, inside the innermost open bracket. -/
def write (new : List (Segment Text)) : Scan → Scan
  | ⟨ground, []⟩ => ⟨new ++ ground, []⟩
  | ⟨ground, f :: frames⟩ => ⟨ground, { f with body := new ++ f.body } :: frames⟩

/-- Reads one character, with `rest` after it. -/
def step (s : Scan) (c : Char) (rest : Text) : Scan :=
  if c = '(' then { s with frames := ⟨opensSelect rest, []⟩ :: s.frames }
  else if c = ')' then
    match s with
    | ⟨ground, f :: frames⟩ => write f.close ⟨ground, frames⟩
    | ⟨ground, []⟩ => ⟨.plain ')' :: ground, []⟩
  else write [.plain c] s

/-- Reads the rest of the text. -/
def run : Scan → Text → Scan
  | s, [] => s
  | s, c :: rest => run (s.step c rest) rest

/-- All segments in order; brackets still open are ordinary characters. -/
def segments (s : Scan) : List (Segment Text) :=
  ((s.frames.flatMap fun (f : Frame) => f.body ++ [Segment.plain '(']) ++ s.ground).reverse

end Scan

/-- A text with its outermost subqueries singled out, each by its body. -/
def segments (t : Text) : List (Segment Text) := (Scan.run ⟨[], []⟩ t).segments

/-- The outermost subqueries, brackets included, in order. -/
def find (t : Text) : List Text := (Segment.spans (segments t)).map cover

/-- Whether a text has a subquery. -/
def occursIn (t : Text) : Bool := !(Segment.spans (segments t)).isEmpty

/-- The text with every outermost subquery blanked out by as many spaces as it has bytes, so that
byte offsets outside the subqueries stay the same. -/
def mask (t : Text) : Text :=
  Segment.join (fun body => List.replicate (Text.bytes (cover body)) ' ') (segments t)

/-! ## The segments make up the text -/

/-- The text that a scan has read. -/
def Scan.text (s : Scan) : Text := Segment.join cover s.segments

theorem Frame.join_close (f : Frame) :
    Segment.join cover f.close.reverse = '(' :: Segment.join cover f.body.reverse ++ [')'] := by
  unfold Frame.close
  split
  · simp [Segment.join, cover]
  · simp [Segment.join, Segment.join_append]

theorem Scan.text_write (new : List (Segment Text)) (s : Scan) :
    (s.write new).text = s.text ++ Segment.join cover new.reverse := by
  rcases s with ⟨ground, _ | ⟨f, frames⟩⟩ <;>
    simp [Scan.write, Scan.text, Scan.segments, Segment.join, Segment.join_append]

theorem Scan.text_step (s : Scan) (c : Char) (rest : Text) :
    (s.step c rest).text = s.text ++ [c] := by
  unfold Scan.step
  split
  · rename_i hc
    simp [Scan.text, Scan.segments, Segment.join, Segment.join_append, hc]
  · split
    · rename_i hc
      rcases s with ⟨ground, _ | ⟨f, frames⟩⟩
      · simp [Scan.text, Scan.segments, Segment.join, Segment.join_append, hc]
      · rw [Scan.text_write, Frame.join_close, hc]
        simp [Scan.text, Scan.segments, Segment.join, Segment.join_append]
    · rw [Scan.text_write]
      simp [Segment.join]

theorem Scan.text_run (s : Scan) (t : Text) : (s.run t).text = s.text ++ t := by
  induction t generalizing s with
  | nil => simp [Scan.run]
  | cons c rest ih => rw [Scan.run, ih, Scan.text_step]; simp

/-- The segments of a text make up the text. -/
theorem join_segments (t : Text) : Segment.join cover (segments t) = t := by
  have h := Scan.text_run ⟨[], []⟩ t
  simpa [Scan.text, segments, Scan.segments, Segment.join] using h

end Subquery

end MutationPreview
