import MutationPreview.Text.Case
import MutationPreview.Text.CharClass

/-!
# Patterns

A pattern describes stretches of text. Its readings from one place of a text are ordered by
preference: a choice prefers its left branch, `many` prefers to go on, `few` prefers to stop. The
preferred reading is the match.

`Pattern.readings` lists all readings in order of preference; it says what a pattern means.
`Pattern.run` finds the first reading that a continuation accepts without listing the others, and
`Pattern.run_eq` says that it is the first of that list.
-/

namespace MutationPreview

/-! ## Places in a text -/

/-- A place in a text: the characters before it, nearest first, and the characters after it. -/
structure Cursor where
  before : Text
  after : Text
deriving DecidableEq, Repr

namespace Cursor

/-- Offset of the place in bytes. -/
def offset (c : Cursor) : Nat := Text.bytes c.before

/-- The text up to the place. -/
def passed (c : Cursor) : Text := c.before.reverse

/-- The text from one place to a later place of the same text. -/
def upTo (first last : Cursor) : Text :=
  first.after.take (first.after.length - last.after.length)

/-- Whether exactly one side of the place is part of a word. -/
def atWordEdge (c : Cursor) : Bool := c.before.head?.any isWord != c.after.head?.any isWord

end Cursor

/-! ## Patterns -/

/-- The parts of a statement or clause that a pattern can single out. -/
inductive Part where
  | table
  | whereWord
  | assignments
  | target
  | field
  | source
  | argument
  | connective
deriving DecidableEq, Repr

/-- Patterns over characters. Repetition is over a class of characters, which is all that the
grammar of statements needs, and makes every pattern total. -/
inductive Pattern where
  /-- Nothing. -/
  | empty
  /-- One character of a class. -/
  | char (p : Char → Bool)
  /-- The start of the text. -/
  | textStart
  /-- The end of the text. -/
  | textEnd
  /-- The edge of a word. -/
  | wordEdge
  /-- One after the other. -/
  | seq (p q : Pattern)
  /-- The first, or else the second. -/
  | alt (p q : Pattern)
  /-- Any number of characters of a class, the more the better. -/
  | many (p : Char → Bool)
  /-- Any number of characters of a class, the fewer the better. -/
  | few (p : Char → Bool)
  /-- A part to be singled out. -/
  | part (name : Part) (p : Pattern)

/-- A part that was singled out, by the places where it starts and stops. -/
structure Capture where
  name : Part
  start : Cursor
  stop : Cursor
deriving DecidableEq, Repr

/-- How far a pattern has been read, and the parts singled out so far, the latest first. -/
structure Reading where
  here : Cursor
  parts : List Capture
deriving DecidableEq, Repr

/-! ## Readings in order of preference -/

/-- The places reached by passing characters of a class, nearest place first. -/
def Cursor.advances (p : Char → Bool) : (before after : Text) → List Cursor
  | before, [] => [⟨before, []⟩]
  | before, c :: rest =>
    ⟨before, c :: rest⟩ :: if p c then Cursor.advances p (c :: before) rest else []

/-- The readings of a pattern from one place on, the preferred one first. -/
def Pattern.readings : Pattern → Reading → List Reading
  | .empty, r => [r]
  | .char p, r =>
    match r.here.after with
    | [] => []
    | c :: rest => if p c then [{ r with here := ⟨c :: r.here.before, rest⟩ }] else []
  | .textStart, r => if r.here.before.isEmpty then [r] else []
  | .textEnd, r => if r.here.after.isEmpty then [r] else []
  | .wordEdge, r => if r.here.atWordEdge then [r] else []
  | .seq p q, r => (p.readings r).flatMap q.readings
  | .alt p q, r => p.readings r ++ q.readings r
  | .many p, r =>
    (Cursor.advances p r.here.before r.here.after).reverse.map fun here => { r with here }
  | .few p, r => (Cursor.advances p r.here.before r.here.after).map fun here => { r with here }
  | .part name p, r =>
    (p.readings r).map fun s => { s with parts := ⟨name, r.here, s.here⟩ :: s.parts }

/-! ## The first reading that a continuation accepts -/

/-- The answer of `k` at the farthest place that has one. -/
def Cursor.farthest {β : Type} (p : Char → Bool) (k : Cursor → Option β) :
    (before after : Text) → Option β
  | before, [] => k ⟨before, []⟩
  | before, c :: rest =>
    if p c then
      match Cursor.farthest p k (c :: before) rest with
      | some b => some b
      | none => k ⟨before, c :: rest⟩
    else k ⟨before, c :: rest⟩

/-- The answer of `k` at the nearest place that has one. -/
def Cursor.nearest {β : Type} (p : Char → Bool) (k : Cursor → Option β) :
    (before after : Text) → Option β
  | before, [] => k ⟨before, []⟩
  | before, c :: rest =>
    match k ⟨before, c :: rest⟩ with
    | some b => some b
    | none => if p c then Cursor.nearest p k (c :: before) rest else none

/-- The answer of `k` at the preferred reading that has one. -/
def Pattern.run {β : Type} : Pattern → (Reading → Option β) → Reading → Option β
  | .empty, k, r => k r
  | .char p, k, r =>
    match r.here.after with
    | [] => none
    | c :: rest => if p c then k { r with here := ⟨c :: r.here.before, rest⟩ } else none
  | .textStart, k, r => if r.here.before.isEmpty then k r else none
  | .textEnd, k, r => if r.here.after.isEmpty then k r else none
  | .wordEdge, k, r => if r.here.atWordEdge then k r else none
  | .seq p q, k, r => p.run (fun s => q.run k s) r
  | .alt p q, k, r =>
    match p.run k r with
    | some b => some b
    | none => q.run k r
  | .many p, k, r => Cursor.farthest p (fun here => k { r with here }) r.here.before r.here.after
  | .few p, k, r => Cursor.nearest p (fun here => k { r with here }) r.here.before r.here.after
  | .part name p, k, r =>
    p.run (fun s => k { s with parts := ⟨name, r.here, s.here⟩ :: s.parts }) r

private theorem findSome?_flatMap {α γ β : Type} (f : α → List γ) (k : γ → Option β)
    (l : List α) : (l.flatMap f).findSome? k = l.findSome? fun a => (f a).findSome? k := by
  induction l with
  | nil => rfl
  | cons a l ih =>
    simp only [List.flatMap_cons, List.findSome?_append, List.findSome?_cons, ih]
    cases (f a).findSome? k <;> rfl

theorem Cursor.farthest_eq {β : Type} (p : Char → Bool) (k : Cursor → Option β)
    (before after : Text) :
    Cursor.farthest p k before after = (Cursor.advances p before after).reverse.findSome? k := by
  induction after generalizing before with
  | nil => simp [Cursor.farthest, Cursor.advances]
  | cons c rest ih =>
    by_cases hc : p c
    · simp only [Cursor.farthest, Cursor.advances, hc, if_true, ih, List.reverse_cons,
        List.findSome?_append, List.findSome?_singleton]
      cases List.findSome? k (Cursor.advances p (c :: before) rest).reverse <;> rfl
    · simp [Cursor.farthest, Cursor.advances, hc]

theorem Cursor.nearest_eq {β : Type} (p : Char → Bool) (k : Cursor → Option β)
    (before after : Text) :
    Cursor.nearest p k before after = (Cursor.advances p before after).findSome? k := by
  induction after generalizing before with
  | nil =>
    simp only [Cursor.nearest, Cursor.advances, List.findSome?_cons, List.findSome?_nil]
    cases k ⟨before, []⟩ <;> rfl
  | cons c rest ih =>
    simp only [Cursor.nearest, Cursor.advances, List.findSome?_cons]
    cases k ⟨before, c :: rest⟩ with
    | some b => rfl
    | none => by_cases hc : p c <;> simp [hc, ih]

/-- Running a pattern gives the answer of the first reading, in order of preference, that the
continuation accepts. -/
theorem Pattern.run_eq {β : Type} (p : Pattern) (k : Reading → Option β) (r : Reading) :
    p.run k r = (p.readings r).findSome? k := by
  induction p generalizing k r with
  | empty =>
    simp only [Pattern.run, Pattern.readings, List.findSome?_cons, List.findSome?_nil]
    cases k r <;> rfl
  | char p =>
    rcases r with ⟨⟨before, _ | ⟨c, rest⟩⟩, parts⟩
    · rfl
    · by_cases hc : p c
      · simp only [Pattern.run, Pattern.readings, hc, if_true, List.findSome?_cons,
          List.findSome?_nil]
        cases k ⟨⟨c :: before, rest⟩, parts⟩ <;> rfl
      · simp [Pattern.run, Pattern.readings, hc]
  | textStart | textEnd | wordEdge =>
    simp only [Pattern.run, Pattern.readings]
    split
    · simp only [List.findSome?_cons, List.findSome?_nil]
      cases k r <;> rfl
    · rfl
  | seq p q ihp ihq =>
    simp only [Pattern.run, Pattern.readings, ihp, findSome?_flatMap]
    exact congrArg (fun f => List.findSome? f (p.readings r)) (funext fun s => ihq k s)
  | alt p q ihp ihq =>
    simp only [Pattern.run, Pattern.readings, ihp, ihq, List.findSome?_append]
    cases List.findSome? k (p.readings r) <;> rfl
  | many p =>
    simp only [Pattern.run, Pattern.readings, Cursor.farthest_eq, List.findSome?_map,
      Function.comp_def]
  | few p =>
    simp [Pattern.run, Pattern.readings, Cursor.nearest_eq, List.findSome?_map, Function.comp_def]
  | part name p ih =>
    simp [Pattern.run, Pattern.readings, ih, List.findSome?_map, Function.comp_def]

/-! ## Building patterns -/

namespace Pattern

/-- One pattern after the other. -/
def chain : List Pattern → Pattern
  | [] => empty
  | [p] => p
  | p :: q :: rest => seq p (chain (q :: rest))

/-- The first pattern of the list that leads to a match. -/
def firstOf : List Pattern → Pattern
  | [] => char fun _ => false
  | [p] => p
  | p :: q :: rest => alt p (firstOf (q :: rest))

/-- The pattern or nothing, preferably the pattern. -/
def optional (p : Pattern) : Pattern := alt p empty

/-- One given character. -/
def just (c : Char) : Pattern := char (· == c)

/-- A word in any letter case. -/
def word (t : Text) : Pattern := chain (t.map fun c => char (sameLetter c))

/-- Any one character. -/
def anyChar : Pattern := char fun _ => true

/-- At least one character of a class, the more the better. -/
def many1 (p : Char → Bool) : Pattern := seq (char p) (many p)

/-- At least one character, the fewer the better. -/
def few1 : Pattern := seq anyChar (few fun _ => true)

/-- At least one blank. -/
def blanks1 : Pattern := many1 isBlank

/-- Any number of blanks. -/
def blanks : Pattern := many isBlank

/-- A run of word characters. -/
def name : Pattern := many1 isWord

end Pattern

end MutationPreview
