import MutationPreview.Text.Basic

/-!
# Messages to the user

Every message is looked up by its key in a catalog. A template has numbered slots for arguments;
a catalog may override the built-in templates.
-/

namespace MutationPreview

/-- The messages that a conversion can produce. -/
inductive MessageKey where
  | requirements
  | sqlRequired
  | idRequired
  | invalidQuote
  | noTerminator
  | deleteInvalid
  | updateInvalid
  | setInvalid
  | mergeInvalid
  | matchedInvalid
  /-- The argument is the statement kind. -/
  | notConverted
  /-- The argument is the statement kind. -/
  | converted
  | timeout
  /-- The argument is the leading word. -/
  | unsupported
deriving DecidableEq, Repr

namespace MessageKey

/-- All keys, in the order in which they are listed. -/
def all : List MessageKey :=
  [requirements, sqlRequired, idRequired, invalidQuote, noTerminator, deleteInvalid, updateInvalid,
    setInvalid, mergeInvalid, matchedInvalid, notConverted, converted, timeout, unsupported]

/-- The name under which a configuration refers to the key. -/
def name : MessageKey → Text
  | requirements => "default-requirements".toList
  | sqlRequired => "sql-required".toList
  | idRequired => "id-required".toList
  | invalidQuote => "invalid-single-quote".toList
  | noTerminator => "no-terminator".toList
  | deleteInvalid => "delete-invalid".toList
  | updateInvalid => "update-invalid-update".toList
  | setInvalid => "update-invalid-set".toList
  | mergeInvalid => "merge-invalid".toList
  | matchedInvalid => "merge-invalid-matched-clause".toList
  | notConverted => "not-converted".toList
  | converted => "successfully-converted".toList
  | timeout => "timeout".toList
  | unsupported => "unsupported-statement".toList

/-- The key of a given name. -/
def ofName? (t : Text) : Option MessageKey := all.find? fun key => key.name = t

/-- The built-in template. -/
def template : MessageKey → Text
  | requirements => "SQL and an identifier are required.".toList
  | sqlRequired => "SQL is required.".toList
  | idRequired => "An identifier is required.".toList
  | invalidQuote =>
    "SQL contains an invalid single quote (’). Use a plain single quote (') instead.".toList
  | noTerminator => "Every statement must end with a semicolon (;).".toList
  | deleteInvalid =>
    "Delete statement is invalid. ".toList ++
      "Expected: DELETE FROM <schema>.<table> [alias] WHERE ...".toList
  | updateInvalid =>
    "Update statement is invalid. Expected: UPDATE <schema>.<table> [alias] SET ...".toList
  | setInvalid =>
    "Update SET clause is invalid. Expected: SET <field> = <value>[, ...] WHERE ...".toList
  | mergeInvalid =>
    "Merge statement is invalid. ".toList ++
      "Expected: MERGE INTO <schema>.<table> [alias] USING (<select>) [alias] ON ...".toList
  | matchedInvalid =>
    "Merge statement needs a WHEN [NOT] MATCHED THEN UPDATE|INSERT|DELETE clause.".toList
  | notConverted => "\x7b0\x7d statement was not converted.".toList
  | converted => "\x7b0\x7d statement converted successfully.".toList
  | timeout => "Statement took too long to validate and was not converted.".toList
  | unsupported =>
    "Unsupported statement '\x7b0\x7d'. ".toList ++
      "Only UPDATE, DELETE and MERGE can be converted.".toList

end MessageKey

/-! ## Templates -/

/-- The slot of the argument with a given index. -/
def argumentSlot (i : Nat) : Text := '\x7b' :: Text.ofNat i ++ ['\x7d']

/-- Fills the slots of the arguments, of which the first has index `i`. -/
def fillFrom : (i : Nat) → (args : List Text) → (template : Text) → Text
  | _, [], t => t
  | i, arg :: args, t => fillFrom (i + 1) args (Text.replace (argumentSlot i) arg t)

/-- Fills the slots of a template, one argument after the other. A slot without an argument stays
as it is, and a slot that an argument brings in counts for the arguments after it. -/
def fillTemplate (template : Text) (args : List Text) : Text := fillFrom 0 args template

/-! ## Catalogs -/

/-- A catalog: the built-in templates, except where it overrides them. -/
structure Catalog where
  overrides : List (MessageKey × Text) := []
deriving Repr

namespace Catalog

/-- The template of a key. -/
def template (c : Catalog) (key : MessageKey) : Text := (c.overrides.lookup key).getD key.template

/-- The message of a key with its arguments filled in. -/
def resolve (c : Catalog) (key : MessageKey) (args : List Text) : Text :=
  fillTemplate (c.template key) args

end Catalog

end MutationPreview
