import MutationPreview.Wire.Quoted

/-!
# Skipping values of the wire format

Values under names that a record does not have are skipped, whatever they are and however deep.
They are still checked to be values of the format.
-/

namespace MutationPreview.Wire

/-- The blanks of the format. -/
def isSpace (c : Char) : Bool := c == ' ' || c == '\n' || c == '\t' || c == '\r'

/-- The text without blanks at its start. -/
def skipSpace (t : Text) : Text := t.dropWhile isSpace

/-- What follows a given sign, with blanks before it. -/
def expect (sign : Char) (t : Text) : Option Text :=
  match skipSpace t with
  | c :: rest => if c = sign then some rest else none
  | [] => none

/-- Skips at least one digit. -/
def skipDigits : Text → Option Text
  | c :: rest => if c.isDigit then some (rest.dropWhile Char.isDigit) else none
  | [] => none

/-- Skips the whole part of a number. A leading zero stands alone. -/
def skipWhole : Text → Option Text
  | '0' :: c :: rest => if c.isDigit then none else some (c :: rest)
  | t => skipDigits t

/-- Skips the fraction of a number, if it has one. -/
def skipFraction : Text → Option Text
  | '.' :: rest => skipDigits rest
  | t => some t

/-- Skips the exponent of a number, if it has one. -/
def skipExponent : Text → Option Text
  | c :: rest =>
    if c = 'e' ∨ c = 'E' then
      match rest with
      | '+' :: digits | '-' :: digits => skipDigits digits
      | digits => skipDigits digits
    else some (c :: rest)
  | [] => some []

/-- Skips a number. -/
def skipNumber (t : Text) : Option Text :=
  let unsigned := match t with
    | '-' :: rest => rest
    | t => t
  ((skipWhole unsigned).bind skipFraction).bind skipExponent

mutual

/-- Skips one value. -/
def skipValue : (fuel : Nat) → Text → Option Text
  | 0, _ => none
  | fuel + 1, t =>
    match skipSpace t with
    | '"' :: rest => skipString rest
    | 't' :: rest => Text.after? "rue".toList rest
    | 'f' :: rest => Text.after? "alse".toList rest
    | 'n' :: rest => Text.after? "ull".toList rest
    | '[' :: rest =>
      match expect ']' rest with
      | some after => some after
      | none => skipElements fuel rest
    | '\x7b' :: rest =>
      match expect '\x7d' rest with
      | some after => some after
      | none => skipMembers fuel rest
    | number => skipNumber number

/-- Skips the elements of an array and its closing bracket. -/
def skipElements : (fuel : Nat) → Text → Option Text
  | 0, _ => none
  | fuel + 1, t =>
    match skipValue fuel t with
    | none => none
    | some rest =>
      match expect ',' rest with
      | some more => skipElements fuel more
      | none => expect ']' rest

/-- Skips the members of an object and its closing brace. -/
def skipMembers : (fuel : Nat) → Text → Option Text
  | 0, _ => none
  | fuel + 1, t =>
    match ((expect '"' t).bind skipString).bind (expect ':') with
    | none => none
    | some value =>
      match skipValue fuel value with
      | none => none
      | some rest =>
        match expect ',' rest with
        | some more => skipMembers fuel more
        | none => expect '\x7d' rest

end

/-- Skips one value. No value takes more than two calls a character. -/
def skipAny (t : Text) : Option Text := skipValue (2 * t.length + 2) t

end MutationPreview.Wire
