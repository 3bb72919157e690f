import MutationPreview.Toml.Basic
import MutationPreview.Toml.Quoted

/-!
# Scalars of TOML

Numbers, dates and truth values. Digits may be divided by single underscores. A date is checked
against the calendar, an integer must fit into 64 bits, and a float must not be so large that
only infinity stands for it.
-/

namespace MutationPreview.Toml

/-! ## Digits -/

/-- The value of a run of digits. -/
def digitsValue (base : Nat) (t : Text) : Nat :=
  t.foldl (fun n c => n * base + (Wire.hexValue? c).getD 0) 0

/-- Reads digits of a class with single underscores between them, without the underscores. -/
def readDigitsFrom (p : Char → Bool) : Text → Text × Text
  | '_' :: c :: rest =>
    if p c then
      let (digits, rest) := readDigitsFrom p rest
      (c :: digits, rest)
    else ([], '_' :: c :: rest)
  | c :: rest =>
    if p c then
      let (digits, rest) := readDigitsFrom p rest
      (c :: digits, rest)
    else ([], c :: rest)
  | [] => ([], [])

/-- Reads at least one digit. -/
def readDigits (p : Char → Bool) : Text → Option (Text × Text)
  | c :: rest =>
    if p c then
      let (digits, rest) := readDigitsFrom p rest
      some (c :: digits, rest)
    else none
  | [] => none

/-- Reads a sign: whether it is a minus. -/
def readSign : Text → Bool × Text
  | '-' :: rest => (true, rest)
  | '+' :: rest => (false, rest)
  | t => (false, t)

/-- Reads the digits of a decimal integer. A leading zero stands alone. -/
def readDecimal : Text → Option (Text × Text)
  | '0' :: rest => some (['0'], rest)
  | t => readDigits Char.isDigit t

/-! ## Integers -/

/-- Whether an integer fits into 64 bits. -/
def fits (n : Int) : Bool := -9223372036854775808 ≤ n && n ≤ 9223372036854775807

/-- Reads an integer in a base other than ten from after its mark on. -/
def readRadix (base : Nat) (t : Text) : Option (Int × Text) := do
  let (digits, rest) ← readDigits (fun c => (Wire.hexValue? c).any (· < base)) t
  return (Int.ofNat (digitsValue base digits), rest)

/-- Reads an integer. -/
def readInteger (t : Text) : Option (Int × Text) := do
  let (n, rest) ← match t with
    | '0' :: 'x' :: rest => readRadix 16 rest
    | '0' :: 'o' :: rest => readRadix 8 rest
    | '0' :: 'b' :: rest => readRadix 2 rest
    | t => do
      let (negative, rest) := readSign t
      let (digits, rest) ← readDecimal rest
      let n := Int.ofNat (digitsValue 10 digits)
      some (if negative then -n else n, rest)
  if fits n then return (n, rest) else none

/-! ## Floats -/

/-- Reads the exponent of a float. -/
def readExponent : Text → Option (Int × Text)
  | c :: rest =>
    if c = 'e' ∨ c = 'E' then do
      let (negative, rest) := readSign rest
      let (digits, rest) ← readDigits Char.isDigit rest
      let n := Int.ofNat (digitsValue 10 digits)
      return (if negative then -n else n, rest)
    else none
  | [] => none

/-- Whether `digits · 10 ^ exponent` is so large that only infinity stands for it, which is so from
half a step above the largest finite value on. -/
def isHuge (digits : Text) (exponent : Int) : Bool :=
  let digits := digits.dropWhile (· == '0')
  let magnitude := Int.ofNat digits.length + exponent
  if digits.isEmpty || magnitude < 300 then false
  else if magnitude > 400 then true
  else
    let n := digitsValue 10 digits
    let limit := Nat.pow 2 1024 - Nat.pow 2 970
    let scale := Nat.pow 10 exponent.natAbs
    if exponent < 0 then n ≥ limit * scale else n * scale ≥ limit

/-- Reads a float in digits: a whole part with a fraction, an exponent or both. -/
def readPointFloat (t : Text) : Option Text := do
  let (negative, unsigned) := readSign t
  let (whole, rest) ← readDecimal unsigned
  let (digits, exponent, rest) ← match rest with
    | '.' :: rest => do
      let (fraction, rest) ← readDigits Char.isDigit rest
      let shift := -Int.ofNat fraction.length
      match readExponent rest with
      | some (n, rest) => some (whole ++ fraction, n + shift, rest)
      | none => some (whole ++ fraction, shift, rest)
    | rest => do
      let (n, rest) ← readExponent rest
      some (whole, n, rest)
  if !negative && isHuge digits exponent then none else return rest

/-- Reads a float, and gives what follows it. -/
def readFloat (t : Text) : Option Text :=
  match readPointFloat t with
  | some rest => some rest
  | none =>
    let unsigned := (readSign t).2
    match Text.after? "inf".toList unsigned with
    | some rest => some rest
    | none => Text.after? "nan".toList unsigned

/-! ## Dates -/

/-- Reads a number of exactly `count` decimal digits within bounds. -/
def readField (count low high : Nat) (t : Text) : Option (Nat × Text) :=
  let digits := t.take count
  let n := digitsValue 10 digits
  if digits.length = count && digits.all Char.isDigit && low ≤ n && n ≤ high then
    some (n, t.drop count)
  else none

/-- Reads a given sign. -/
def readMark (mark : Char) : Text → Option Text
  | c :: rest => if c = mark then some rest else none
  | [] => none

/-- The number of days of a month. -/
def daysIn (year month : Nat) : Nat :=
  if month = 2 then if year % 4 = 0 ∧ (year % 100 ≠ 0 ∨ year % 400 = 0) then 29 else 28
  else if month = 4 ∨ month = 6 ∨ month = 9 ∨ month = 11 then 30
  else 31

/-- Reads a day of the calendar. -/
def readDay (t : Text) : Option Text := do
  let (year, rest) ← readField 4 0 9999 t
  let (month, rest) ← readField 2 1 12 (← readMark '-' rest)
  let (_, rest) ← readField 2 1 (daysIn year month) (← readMark '-' rest)
  return rest

/-- Reads a time of day; a minute may have a leap second. -/
def readTime (t : Text) : Option Text := do
  let (_, rest) ← readField 2 0 23 t
  let (_, rest) ← readField 2 0 59 (← readMark ':' rest)
  let (_, rest) ← readField 2 0 60 (← readMark ':' rest)
  match rest with
  | '.' :: fraction => do
    let (_, rest) ← readField 1 0 9 fraction
    return rest.dropWhile Char.isDigit
  | rest => return rest

/-- Reads the offset of a time zone, if there is one. -/
def readOffset : Text → Text
  | [] => []
  | c :: rest =>
    if c = 'Z' ∨ c = 'z' then rest
    else if c = '+' ∨ c = '-' then
      let offset := do
        let (_, rest) ← readField 2 0 23 rest
        let (_, rest) ← readField 2 0 59 (← readMark ':' rest)
        return rest
      offset.getD (c :: rest)
    else c :: rest

/-- Reads a time of day after a day, if there is one. -/
def readTimeOfDay : Text → Text
  | [] => []
  | c :: rest =>
    if c = 'T' ∨ c = 't' ∨ c = ' ' then
      match readTime rest with
      | some rest => readOffset rest
      | none => c :: rest
    else c :: rest

/-- Reads a day with or without a time, or a time alone. -/
def readDate (t : Text) : Option Text :=
  match readDay t with
  | some rest => some (readTimeOfDay rest)
  | none => readTime t

/-! ## Scalars -/

/-- Reads a scalar. -/
def readScalar (t : Text) : Option (Scalar × Text) :=
  match t with
  | [] => none
  | c :: _ =>
    if c = '"' ∨ c = '\'' then (readString t).map fun (s, rest) => (.string s, rest)
    else if c = 't' then (Text.after? "true".toList t).map fun rest => (.boolean true, rest)
    else if c = 'f' then (Text.after? "false".toList t).map fun rest => (.boolean false, rest)
    else match readDate t with
      | some rest => some (.date, rest)
      | none =>
        match readFloat t with
        | some rest => some (.float, rest)
        | none => (readInteger t).map fun (n, rest) => (.integer n, rest)

end MutationPreview.Toml
