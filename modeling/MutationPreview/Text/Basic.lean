/-!
# Texts

A text is a list of characters. The library works on texts throughout and meets `String` only
at its edges, so that every scan is a recursion on the characters themselves.

Positions that leave the library are counted in bytes of the UTF-8 form (`Text.bytes`).
Substitution of any kind is one left-to-right pass (`Text.substitute`): what has been written is
never looked at again.
-/

namespace MutationPreview

/-- A text: its characters in order. -/
abbrev Text := List Char

/-! ## Measure -/

/-- Length of the UTF-8 form. -/
def Text.bytes : Text → Nat
  | [] => 0
  | c :: rest => c.utf8Size + Text.bytes rest

/-- What is left after the characters that cover the first `n` bytes. -/
def Text.dropBytes : Text → Nat → Text
  | [], _ => []
  | c :: rest, n => if n = 0 then c :: rest else Text.dropBytes rest (n - c.utf8Size)

/-- The decimal numeral of a number. -/
def Text.ofNat (n : Nat) : Text := Nat.toDigits 10 n

/-! ## Trimming -/

/-- The text without the characters of a class at its end. -/
def Text.trimEnd (p : Char → Bool) (t : Text) : Text := (t.reverse.dropWhile p).reverse

/-- The text without the characters of a class at either end. -/
def Text.trim (p : Char → Bool) (t : Text) : Text := Text.trimEnd p (t.dropWhile p)

/-! ## Searching and cutting -/

/-- What follows `lead` when the text starts with it. -/
def Text.after? : (lead t : Text) → Option Text
  | [], t => some t
  | _ :: _, [] => none
  | a :: lead, c :: t => if a = c then Text.after? lead t else none

/-- Whether `needle` occurs somewhere in the text. -/
def Text.occursIn (needle : Text) : Text → Bool
  | [] => needle.isEmpty
  | c :: rest => needle.isPrefixOf (c :: rest) || Text.occursIn needle rest

/-- The text before and the text after the first occurrence of `mark`. -/
def Text.cut? (mark : Text) : Text → Option (Text × Text)
  | [] => (Text.after? mark []).map fun rest => ([], rest)
  | c :: t =>
    match Text.after? mark (c :: t) with
    | some rest => some ([], rest)
    | none => (Text.cut? mark t).map fun (before, rest) => (c :: before, rest)

/-- The pieces between the occurrences of a character; there is one more piece than there are
occurrences. -/
def Text.splitOn (separator : Char) : Text → List Text
  | [] => [[]]
  | c :: rest =>
    if c = separator then [] :: Text.splitOn separator rest
    else match Text.splitOn separator rest with
      | [] => [[c]]
      | piece :: pieces => (c :: piece) :: pieces

/-- The lines of a text. A line ends with a line feed, or with a carriage return and a line feed;
neither belongs to the line, and nothing stands after the last one. -/
def Text.lines (t : Text) : List Text :=
  let pieces := Text.splitOn '\n' t
  let ended := pieces.dropLast.map fun line =>
    if line.getLast? = some '\r' then line.dropLast else line
  match pieces.getLast? with
  | some (c :: line) => ended ++ [c :: line]
  | _ => ended

/-- Equality up to the case of ASCII letters. -/
def Text.sameAscii (a b : Text) : Bool := a.map Char.toLower == b.map Char.toLower

/-! ## Substitution -/

/-- Substitution with `skip` characters still covered by the last step. -/
def Text.substituteFrom (rule : Text → Option (Nat × Text)) : Nat → Text → Text
  | _, [] => []
  | skip + 1, _ :: rest => Text.substituteFrom rule skip rest
  | 0, c :: rest =>
    match rule (c :: rest) with
    | some (more, out) => out ++ Text.substituteFrom rule more rest
    | none => c :: Text.substituteFrom rule 0 rest

/-- One pass from left to right. At each place that is not covered yet, `rule` sees what is left
of the text: `some (more, out)` puts `out` in place of the next `more + 1` characters, `none`
copies one character. -/
def Text.substitute (rule : Text → Option (Nat × Text)) (t : Text) : Text :=
  Text.substituteFrom rule 0 t

/-- Puts `new` in place of every occurrence of the non-empty text `old`. -/
def Text.replace (old new t : Text) : Text :=
  Text.substitute (fun rest => if old.isPrefixOf rest then some (old.length - 1, new) else none) t

end MutationPreview
