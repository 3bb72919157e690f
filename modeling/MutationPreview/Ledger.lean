import MutationPreview.Text.Segment
import MutationPreview.Token

/-!
# Ledgers of held text

A ledger holds stretches of text under numbered tokens. The value with number `n` stands at place
`n` of the list, so the tokens are those numbered 1 to the number of values, by construction.

Reversion is one pass from left to right. Where the lead of the tokens stands, the longest token
that is held there is put back; if there is none, the lead is copied. What has been put back is
not read again.
-/

namespace MutationPreview

/-- Held values, with the format of their tokens. -/
structure Ledger where
  format : TokenFormat
  values : List Text
deriving DecidableEq, Repr

namespace Ledger

/-- The tokens and their values, by number. -/
def entries (l : Ledger) : List (Text × Text) :=
  l.values.mapIdx fun i value => (l.format.token (i + 1), value)

/-- The entries in ascending order of their tokens. -/
def sortedEntries (l : Ledger) : List (Text × Text) :=
  l.entries.mergeSort fun a b => !decide (b.1 < a.1)

/-- The value of a token. -/
def get? (l : Ledger) (token : Text) : Option Text := l.entries.lookup token

/-- Whether a text is the token of a held value. -/
def holds (l : Ledger) (token : Text) : Bool := (l.get? token).isSome

/-! ## Holding -/

/-- Holds a value and gives its token. A value that is held already keeps its token. -/
def hold (l : Ledger) (value : Text) : Ledger × Text :=
  match l.values.findIdx? (· = value) with
  | some i => (l, l.format.token (i + 1))
  | none => ({ l with values := l.values ++ [value] }, l.format.token (l.values.length + 1))

/-- Holds the spans of a text from left to right and puts their tokens in their place. -/
def holdSpans {α : Type} (cover : α → Text) : Ledger → List (Segment α) → Ledger × Text
  | l, [] => (l, [])
  | l, .plain c :: rest =>
    let (l, t) := holdSpans cover l rest
    (l, c :: t)
  | l, .span a :: rest =>
    let (l, token) := l.hold (cover a)
    let (l, t) := holdSpans cover l rest
    (l, token ++ t)

/-! ## Reverting -/

/-- The held value of the token that has the first `n` of the given digits, for the greatest such
`n`; `rest` is the text from the digits on. -/
def longest? (l : Ledger) (rest : Text) : (n : Nat) → Option (Text × Text)
  | 0 => none
  | n + 1 =>
    let token := l.format.lead ++ rest.take (n + 1) ++ l.format.trail
    let found := if l.format.trail.isPrefixOf (rest.drop (n + 1)) then l.get? token else none
    match found with
    | some value => some (token, value)
    | none => longest? l rest n

/-- The longest held token at the start of a text, with its value. -/
def tokenAt? (l : Ledger) (t : Text) : Option (Text × Text) :=
  match Text.after? l.format.lead t with
  | none => none
  | some rest => l.longest? rest (rest.takeWhile Char.isDigit).length

/-- What reversion does at one place: the value for a token, the lead itself where no token
follows it. -/
def revertRule (l : Ledger) (t : Text) : Option (Nat × Text) :=
  match l.tokenAt? t with
  | some (token, value) => some (token.length - 1, value)
  | none =>
    if l.format.lead.isPrefixOf t then some (l.format.lead.length - 1, l.format.lead) else none

/-- Puts held values back in place of their tokens. -/
def revert (l : Ledger) (t : Text) : Text :=
  if l.values.isEmpty then t else Text.substitute l.revertRule t

end Ledger

end MutationPreview
