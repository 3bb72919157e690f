import MutationPreview.Text.Basic

/-!
# Time limits

Steps whose input comes from the user run under a time limit. Steps take no time here, so the only
limit that is ever reached is zero, and a limit of zero is reached by every step.
-/

namespace MutationPreview

/-- A time limit in milliseconds. -/
structure Budget where
  limitMs : Nat
deriving DecidableEq, Repr

/-- A limit that was reached. -/
structure Timeout where
  limitMs : Nat
deriving DecidableEq, Repr

/-- The wording of a reached limit. -/
def Timeout.message (t : Timeout) : Text :=
  "Pattern match exceeded its ".toList ++ Text.ofNat t.limitMs ++ "ms budget".toList

/-- The value of a step, unless the step reaches the limit. -/
def Budget.bounded {α : Type} (b : Budget) (value : α) : Except Timeout α :=
  if b.limitMs = 0 then .error ⟨b.limitMs⟩ else .ok value

end MutationPreview
