import MutationPreview.Command.Invocation
import MutationPreview.Command.Report
import MutationPreview.Config.Document
import MutationPreview.Job

/-!
# Carrying out a command line

The outcome of a command line is a function of its arguments and its surroundings: the files that
it may read, its standard input, and the environment. The configuration is settled before the batch
is read. The exit code is 0 if all went well, 1 if anything failed, and 2 if the command line
cannot be understood.
-/

namespace MutationPreview.Command

/-- Why a file cannot be read. -/
inductive ReadFault where
  | missing
  | directory
  | notDirectory
  | other (detail : Text)
deriving DecidableEq, Repr

/-- The wording of a fault. -/
def ReadFault.message : ReadFault → Text
  | missing => "No such file or directory (os error 2)".toList
  | directory => "Is a directory (os error 21)".toList
  | notDirectory => "Not a directory (os error 20)".toList
  | other detail => detail

/-- What a command line can see. -/
structure Surroundings where
  /-- The text of a file. -/
  read : Text → Except ReadFault Text
  /-- Standard input. -/
  input : Text
  /-- The identifier that the environment gives. -/
  identifier : Option Text
  /-- The directory of the user's configuration. -/
  configDir : Option Text

/-- What a command line leaves behind. -/
structure Outcome where
  exit : Nat
  stdout : Text := []
  stderr : Text := []
deriving DecidableEq, Repr

/-! ## Files -/

/-- The parts of a path. -/
def pathParts (path : Text) : List Text :=
  (Text.splitOn '/' path).filter fun part => part ≠ [] ∧ part ≠ ['.']

/-- Reads a file of a directory that holds just the given files, by their paths in it. -/
def readAmong (files : List (Text × Text)) (path : Text) : Except ReadFault Text :=
  let parts := pathParts path
  let known := files.map fun (name, content) => (pathParts name, content)
  if path.head? = some '/' then .error .missing
  else match known.lookup parts with
    | some content => if path.getLast? = some '/' then .error .notDirectory else .ok content
    | none =>
      if known.any fun (name, _) => parts.isPrefixOf name then .error .directory
      else if parts.isEmpty then .error .directory
      else if known.any fun (name, _) => name.isPrefixOf parts then .error .notDirectory
      else .error .missing

/-- Whether a file is there, readable or not. -/
def Surroundings.isFile (s : Surroundings) (path : Text) : Bool :=
  match s.read path with
  | .ok _ | .error (.other _) => true
  | .error _ => false

/-- The places where a configuration is looked for. -/
def searchPaths (configDir : Option Text) : List Text :=
  "dml-preview.toml".toList ::
    (configDir.map fun dir => dir ++ "/dml-preview/config.toml".toList).toList

/-- All files that an invocation may read. -/
def Invocation.paths (i : Invocation) (configDir : Option Text) : List Text :=
  i.file.toList ++ match i.config with
    | some path => [path]
    | none => searchPaths configDir

/-- Whether an invocation reads standard input. -/
def Invocation.wantsInput (i : Invocation) : Bool :=
  i.action != .grammar && i.sql.isNone && i.file.isNone

/-! ## Configuration and batch -/

/-- The wording of a configuration's fault. -/
def faultText (fault : ConfigFault) : Text := (Failure.configuration fault.detail).message

/-- Loads the configuration of a file; a fault is worded with the given context. -/
def loadFile (s : Surroundings) (context path : Text) : Except Text Config :=
  match s.read path with
  | .error fault =>
    .error (context ++ ": IO error: ".toList ++ fault.message ++ ": ".toList ++ fault.message)
  | .ok content =>
    match Config.ofDocument content with
    | .error fault => .error (context ++ ": ".toList ++ faultText fault)
    | .ok config => .ok config

/-- Loads the configuration that is asked for, or the first that is found, or the default. -/
def loadConfig (s : Surroundings) (path? : Option Text) : Except Text Config :=
  match path? with
  | some path => loadFile s ("Failed to load ".toList ++ path) path
  | none =>
    match (searchPaths s.configDir).find? s.isFile with
    | some path => loadFile s "Failed to load configuration".toList path
    | none => .ok {}

/-- The batch: given on the command line, or in a file, or on standard input. -/
def loadSql (s : Surroundings) (i : Invocation) : Except Text Text :=
  match i.sql, i.file with
  | some sql, _ => .ok sql
  | none, some path =>
    match s.read path with
    | .ok content => .ok content
    | .error fault =>
      .error ("Failed to read ".toList ++ path ++ ": ".toList ++ fault.message)
  | none, none => .ok s.input

/-- The job of an invocation. -/
def loadJob (s : Surroundings) (i : Invocation) : Except Text Job := do
  let config ← loadConfig s i.config
  match config.profile, config.catalog with
  | .error fault, _ | _, .error fault => throw (faultText fault)
  | .ok profile, .ok catalog =>
    let sql ← loadSql s i
    return .ofInput profile catalog sql ((i.identifier <|> s.identifier).getD [])

/-! ## Actions -/

/-- The records of a conversion in the format asked for. -/
def render (format : OutputFormat) (records : List Record) : Text :=
  match format with
  | .json => line (Wire.compact records)
  | .pretty => line (Wire.indented records)
  | .table => recordTable records

/-- A message that tells of a failure. -/
def failureLine (message : Text) : Text := line (statusMark true ++ ' ' :: message)

/-- Converts the batch and prints the records. -/
def runConvert (format : OutputFormat) (job : Job) : Outcome :=
  match job.records with
  | .error cause => { exit := 1, stderr := failureLine (job.catalog.resolve cause.key []) }
  | .ok records =>
    { exit := if records.any Record.isError then 1 else 0, stdout := render format records }

/-- Looks for a precondition that the batch misses. -/
def runCheck (job : Job) : Outcome :=
  match job.refusal? with
  | some message => { exit := 1, stdout := failureLine message }
  | none => { exit := 0, stdout := kindList job.kinds }

/-- Carries out an invocation. -/
def Invocation.run (i : Invocation) (s : Surroundings) : Outcome :=
  match i.action with
  | .grammar => { exit := 0, stdout := formTable }
  | action =>
    match loadJob s i with
    | .error message => { exit := 1, stderr := line ("Error: ".toList ++ message) }
    | .ok job => if action = .check then runCheck job else runConvert i.format job

/-! ## Command lines -/

/-- The version of the command. -/
def versionText : Text := line "dml-preview 0.3.0".toList

/-- How the command is used. -/
def usageText : Text :=
  line "Usage: dml-preview [OPTIONS] [SQL] [check [SQL] | grammar]".toList ++ line [] ++
    line "  -F, --file <FILE>      Read the SQL batch from a file".toList ++
    line "  -i, --id <ID>          Identifier injected into entity-id expressions".toList ++
    line "  -c, --config <CONFIG>  Configuration file".toList ++
    line "  -f, --format <FORMAT>  Output format: json, pretty or table".toList ++
    line "  -v, --verbose          Verbose logging on stderr".toList ++
    line "  -h, --help             Print help".toList ++
    line "  -V, --version          Print version".toList

/-- The outcome of a command line that is not carried out. -/
def Stop.outcome : Stop → Outcome
  | usage => { exit := 2, stderr := usageText }
  | version => { exit := 0, stdout := versionText }
  | help => { exit := 0, stdout := usageText }

/-- The outcome of a command line. -/
def run (s : Surroundings) (args : List Text) : Outcome :=
  match Invocation.read args with
  | .error stop => stop.outcome
  | .ok invocation => invocation.run s

end MutationPreview.Command
