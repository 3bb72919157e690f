import MutationPreview.Text.Basic

/-!
# Reading command lines

A command line has options, at most one batch, and at most one command, which has options and a
batch of its own. Options may come before or after the batch; `--` ends them. An option takes its
value after an equals sign, right behind its letter, or as the next argument, which must not look
like an option. No option may be given twice on one level; what a command is given itself goes
before what was given ahead of it.
-/

namespace MutationPreview.Command

/-- How records are printed. -/
inductive OutputFormat where
  | json
  | pretty
  | table
deriving DecidableEq, Repr

/-- The format of a given name. -/
def OutputFormat.ofName? (t : Text) : Option OutputFormat :=
  if t = "json".toList then some .json
  else if t = "pretty".toList then some .pretty
  else if t = "table".toList then some .table
  else none

/-- What is to be done. -/
inductive Action where
  /-- Convert the batch. -/
  | convert
  /-- Look for preconditions that the batch misses. -/
  | check
  /-- Show the accepted forms of predicates. -/
  | grammar
deriving DecidableEq, Repr

/-- Why a command line is not carried out. -/
inductive Stop where
  /-- It cannot be understood. -/
  | usage
  /-- It asks for the version. -/
  | version
  /-- It asks for help. -/
  | help
deriving DecidableEq, Repr

/-- What is given on one level of a command line. -/
structure Given where
  sql : Option Text := none
  file : Option Text := none
  identifier : Option Text := none
  config : Option Text := none
  format : Option OutputFormat := none
  verbose : Bool := false
deriving DecidableEq, Repr

/-- The options that take a value. -/
inductive ValueOption where
  | file
  | identifier
  | config
  | format
deriving DecidableEq, Repr

namespace ValueOption

/-- Whether an option may be given to an action. The format comes before a command only. -/
def suits (action : Action) (o : ValueOption) : Bool := o != .format || action == .convert

/-- The option with a given long name. -/
def ofLong? (t : Text) : Option ValueOption :=
  if t = "file".toList then some .file
  else if t = "id".toList then some .identifier
  else if t = "config".toList then some .config
  else if t = "format".toList then some .format
  else none

/-- The option with a given letter. -/
def ofLetter? : Char → Option ValueOption
  | 'F' => some .file
  | 'i' => some .identifier
  | 'c' => some .config
  | 'f' => some .format
  | _ => none

end ValueOption

namespace Given

/-- Sets a value that has not been given before. A path must not be empty. -/
def put (g : Given) (o : ValueOption) (value : Text) : Except Stop Given :=
  match o with
  | .file =>
    if g.file.isSome || value.isEmpty then .error .usage else .ok { g with file := some value }
  | .identifier =>
    if g.identifier.isSome then .error .usage else .ok { g with identifier := some value }
  | .config =>
    if g.config.isSome || value.isEmpty then .error .usage else .ok { g with config := some value }
  | .format =>
    match g.format, OutputFormat.ofName? value with
    | none, some format => .ok { g with format := some format }
    | _, _ => .error .usage

/-- Sets the flag for a detailed log. -/
def putVerbose (g : Given) : Except Stop Given :=
  if g.verbose then .error .usage else .ok { g with verbose := true }

/-- Sets the batch, if the action has one. -/
def putSql (action : Action) (g : Given) (value : Text) : Except Stop Given :=
  if g.sql.isSome || action == .grammar then .error .usage else .ok { g with sql := some value }

end Given

/-- Reads a long option from after its hyphens on. An option that takes a value but has none yet
is returned with what is given. -/
def readLong (action : Action) (g : Given) (body : Text) :
    Except Stop (Given × Option ValueOption) :=
  let (name, attached) := match Text.cut? ['='] body with
    | some (name, value) => (name, some value)
    | none => (body, none)
  match (ValueOption.ofLong? name).filter (ValueOption.suits action), attached with
  | some o, some value => (g.put o value).map fun g => (g, none)
  | some o, none => .ok (g, some o)
  | none, some _ => .error .usage
  | none, none =>
    if name = "verbose".toList then g.putVerbose.map fun g => (g, none)
    else if name = "help".toList then .error .help
    else if name = "version".toList ∧ action = .convert then .error .version
    else .error .usage

/-- Reads the letters of short options. -/
def readLetters (action : Action) : Given → Text → Except Stop (Given × Option ValueOption)
  | g, [] => .ok (g, none)
  | g, c :: rest =>
    match (ValueOption.ofLetter? c).filter (ValueOption.suits action), rest with
    | some o, [] => .ok (g, some o)
    | some o, '=' :: value => (g.put o value).map fun g => (g, none)
    | some o, value => (g.put o value).map fun g => (g, none)
    | none, rest =>
      if c = 'v' then do readLetters action (← g.putVerbose) rest
      else if c = 'h' then .error .help
      else if c = 'V' ∧ action = .convert then .error .version
      else .error .usage

/-- Reads the arguments after `--`. -/
def readPlain (action : Action) : Given → List Text → Except Stop Given
  | g, [] => .ok g
  | g, arg :: rest => do readPlain action (← g.putSql action arg) rest

/-- Whether an argument looks like an option. -/
def looksLikeOption : Text → Bool
  | '-' :: _ :: _ => true
  | _ => false

/-- The command that an argument names. -/
def commandOf? (arg : Text) : Option (Except Stop Action) :=
  if arg = "check".toList then some (.ok .check)
  else if arg = "grammar".toList then some (.ok .grammar)
  else if arg = "help".toList then some (.error .help)
  else none

/-- Reads one level of a command line. A command ends the level and is returned with the arguments
after it. -/
def readLevel (action : Action) :
    Given → List Text → Except Stop (Given × Option (Action × List Text))
  | g, [] => .ok (g, none)
  | g, arg :: rest =>
    if arg = "--".toList then (readPlain action g rest).map fun g => (g, none)
    else if looksLikeOption arg then
      let read := match Text.after? "--".toList arg with
        | some body => readLong action g body
        | none => readLetters action g (arg.drop 1)
      match read, rest with
      | .error stop, _ => .error stop
      | .ok (g, none), rest => readLevel action g rest
      | .ok (_, some _), [] => .error .usage
      | .ok (g, some o), value :: rest =>
        if looksLikeOption value then .error .usage
        else match g.put o value with
          | .error stop => .error stop
          | .ok g => readLevel action g rest
    else
      match (commandOf? arg).filter fun _ => action == .convert with
      | some (.ok inner) => .ok (g, some (inner, rest))
      | some (.error stop) => .error stop
      | none =>
        match g.putSql action arg with
        | .error stop => .error stop
        | .ok g => readLevel action g rest

/-- A command line that can be carried out. -/
structure Invocation where
  action : Action
  sql : Option Text
  file : Option Text
  identifier : Option Text
  config : Option Text
  format : OutputFormat
deriving DecidableEq, Repr

/-- The invocation of an action with what is given to it and what was given ahead of it. -/
def Invocation.ofGiven (action : Action) (inner outer : Given) : Invocation where
  action
  sql := inner.sql <|> outer.sql
  file := inner.file <|> outer.file
  identifier := inner.identifier <|> outer.identifier
  config := inner.config <|> outer.config
  format := outer.format.getD .json

/-- Reads a command line. -/
def Invocation.read (args : List Text) : Except Stop Invocation := do
  match ← readLevel .convert {} args with
  | (outer, none) => return .ofGiven .convert {} outer
  | (outer, some (action, rest)) =>
    let (inner, _) ← readLevel action {} rest
    return .ofGiven action inner outer

end MutationPreview.Command
