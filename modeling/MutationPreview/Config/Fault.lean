import MutationPreview.Text.Basic

/-!
# Faults of a configuration

What can be wrong with a configuration, and how each fault is worded.
-/

namespace MutationPreview

/-- The mark in a token template where the number goes. -/
def numberSlot : Text := "\x7bn\x7d".toList

/-- What is wrong with a configuration. -/
inductive ConfigFault where
  /-- A token template of the configuration lacks the slot for the number. -/
  | slotMissing (field template : Text)
  /-- The template for literal tokens holds a quote. -/
  | quoteInLiteral
  /-- A field that must not be blank is blank. -/
  | blankField (field : Text)
  /-- A message override names no message. -/
  | unknownMessage (name : Text)
  /-- A token template lacks the slot for the number. -/
  | noSlot (template : Text)
  /-- A token template holds nothing but the slot. -/
  | onlySlot
  /-- The text is no configuration document. -/
  | malformed
deriving DecidableEq, Repr

/-- The wording of a fault. -/
def ConfigFault.detail : ConfigFault → Text
  | slotMissing field template =>
    field ++ " must contain '".toList ++ numberSlot ++ "': '".toList ++ template ++ ['\'']
  | quoteInLiteral => "literal_placeholder must not contain a single quote".toList
  | blankField field => field ++ " must not be empty".toList
  | unknownMessage name => "unknown message key '".toList ++ name ++ ['\'']
  | noSlot template =>
    "placeholder '".toList ++ template ++ "' has no ".toList ++ numberSlot ++ " slot".toList
  | onlySlot => "placeholder is only a sequence slot".toList
  | malformed => "TOML parse error".toList

end MutationPreview
