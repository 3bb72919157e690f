import MutationPreview.Text.Basic

/-!
# TOML documents

A document is a table of items. Tables come about in four ways, which decide whether they may be
added to later: by a header, as the parent of a header, by a dotted key, or inline. An inline table
is complete as it stands.

Adding an entry or a header to a document fails where the document has been given that name
already in a way that does not go with it.
-/

namespace MutationPreview.Toml

/-- How a table came about. -/
inductive Origin where
  /-- By a header of its own. -/
  | header
  /-- As the parent of a header. -/
  | parent
  /-- By a dotted key. -/
  | dotted
  /-- Between braces. -/
  | inline
deriving DecidableEq, Repr

/-- Values that hold no others. Of floats and dates only their being there is kept. -/
inductive Scalar where
  | string (t : Text)
  | integer (n : Int)
  | boolean (b : Bool)
  | float
  | date
deriving DecidableEq, Repr

/-- What a name of a document stands for. -/
inductive Item where
  | scalar (s : Scalar)
  | array (items : List Item)
  | table (origin : Origin) (entries : List (Text × Item))
  /-- Tables under one repeated header, the latest first. -/
  | tables (latest : List (Text × Item)) (earlier : List (List (Text × Item)))

/-- Names with what they stand for, in the order in which they came. -/
abbrev Entries := List (Text × Item)

namespace Entries

/-- Puts an item in the place of the entry with a name, or at the end if there is none. -/
def set (es : Entries) (name : Text) (item : Item) : Entries :=
  if es.any (·.1 = name) then es.map fun e => if e.1 = name then (name, item) else e
  else es ++ [(name, item)]

/-- Adds an entry under a new name. -/
def add? (es : Entries) (name : Text) (item : Item) : Option Entries :=
  if es.any (·.1 = name) then none else some (es ++ [(name, item)])

/-- Changes the table at the end of a path of headers. Tables on the way that are not there yet
are made; under a repeated header the latest table counts. -/
def alterAt (change : Entries → Option Entries) : (path : List Text) → Entries → Option Entries
  | [], es => change es
  | name :: path, es =>
    match es.lookup name with
    | none => (alterAt change path []).map fun inner => es.set name (.table .parent inner)
    | some (.table .inline _) => none
    | some (.table origin inner) =>
      (alterAt change path inner).map fun inner => es.set name (.table origin inner)
    | some (.tables latest earlier) =>
      (alterAt change path latest).map fun latest => es.set name (.tables latest earlier)
    | some (.scalar _) | some (.array _) => none

/-- Adds an entry under a dotted key. The table that the key ends in must have come about by
dotted keys; `fromDotted` says whether this one has, and `onPath` whether a dot was passed. -/
def addDotted (name : Text) (item : Item) :
    (path : List Text) → (onPath fromDotted : Bool) → Entries → Option Entries
  | [], onPath, fromDotted, es => if onPath == fromDotted then es.add? name item else none
  | next :: path, _, _, es =>
    match es.lookup next with
    | none => (addDotted name item path true true []).map fun inner =>
        es.set next (.table .dotted inner)
    | some (.table .dotted inner) => (addDotted name item path true true inner).map fun inner =>
        es.set next (.table .dotted inner)
    | some (.table .parent inner) => (addDotted name item path true false inner).map fun inner =>
        es.set next (.table .parent inner)
    | some (.tables latest earlier) =>
        (addDotted name item path true false latest).map fun latest =>
          es.set next (.tables latest earlier)
    | some (.table .header _) | some (.table .inline _) => none
    | some (.scalar _) | some (.array _) => none

/-- Adds an entry under a key of one or more parts. -/
def addKey (path : List Text) (name : Text) (item : Item) (es : Entries) : Option Entries :=
  addDotted name item path false false es

/-- Opens the table of a header inside its parent. -/
def openTable (name : Text) (es : Entries) : Option Entries :=
  match es.lookup name with
  | none => some (es.set name (.table .header []))
  | some (.table .parent inner) => some (es.set name (.table .header inner))
  | some _ => none

/-- Opens one more table of a repeated header inside its parent. -/
def openElement (name : Text) (es : Entries) : Option Entries :=
  match es.lookup name with
  | none => some (es.set name (.tables [] []))
  | some (.tables latest earlier) => some (es.set name (.tables [] (latest :: earlier)))
  | some _ => none

end Entries

end MutationPreview.Toml
