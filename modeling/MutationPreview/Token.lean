import MutationPreview.Config.Fault

/-!
# Tokens

A token stands for a stretch of text that is held back. It is a number between a lead and a trail,
which a template such as `STR_{n}` gives. The lead is lengthened by underscores until the text
around the tokens does not hold it (`TokenFormat.avoiding`), so that a token is never mistaken for
text that was there before.
-/

namespace MutationPreview

/-- What stands before and after the number of a token. -/
structure TokenFormat where
  lead : Text
  trail : Text
deriving DecidableEq, Repr

namespace TokenFormat

/-- The format of a template: its first number slot divides lead and trail, and one of the two is
not empty. -/
def parse (template : Text) : Except ConfigFault TokenFormat :=
  match Text.cut? numberSlot template with
  | none => .error (.noSlot template)
  | some (lead, trail) =>
    if lead.isEmpty && trail.isEmpty then .error .onlySlot else .ok ⟨lead, trail⟩

/-- The token with a given number. -/
def token (f : TokenFormat) (n : Nat) : Text := f.lead ++ Text.ofNat n ++ f.trail

/-- Whether a lead can be told from the text: it is not empty and the text does not hold it. -/
def isFresh (t lead : Text) : Bool := !lead.isEmpty && !Text.occursIn lead t

/-- The first of `lead`, `lead_`, `lead__`, … that is fresh, trying at most `fuel` underscores. -/
def lengthen (t : Text) : (fuel : Nat) → (lead : Text) → Text
  | 0, lead => lead
  | fuel + 1, lead => if isFresh t lead then lead else lengthen t fuel (lead ++ ['_'])

/-- The format with the shortest fresh lead. A lead longer than the text is fresh, so the length
of the text bounds the search. -/
def avoiding (f : TokenFormat) (t : Text) : TokenFormat :=
  { f with lead := lengthen t (t.length + 1) f.lead }

end TokenFormat

end MutationPreview
