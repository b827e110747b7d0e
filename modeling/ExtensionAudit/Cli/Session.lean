import ExtensionAudit.Cli.Arguments
import ExtensionAudit.Cli.Output
import ExtensionAudit.Engine.Validate
/-
  What the command line does: from the arguments, the environment and the file
  system to what is printed, the exit code, and the file system afterwards.
-/

namespace ExtensionAudit.Cli

/-- What surrounds a command: variables, programs by their paths, and the process it runs in. -/
structure Environment where
  setting : String → Option String
  programAt : Path → Interpreter
  process : Nat

/-- Why a command does not end well. -/
inductive Trouble where
  | notADirectory (path : Path)
  | failed (failure : Failure)
  | errorsFound (count : Nat)
  deriving DecidableEq, Repr

def Trouble.message : Trouble → String
  | notADirectory path => "'" ++ path.toString ++ "' is not a directory"
  | failed failure => failure.message
  | errorsFound count => "validation failed with " ++ toString count ++ " error(s)"

/-- What a command comes to: the lines it prints, its trouble, and the file system. -/
structure Reply where
  lines : List String
  trouble : Option Trouble
  fs : FileSystem

namespace Reply

def success (fs : FileSystem) (lines : List String) : Reply := ⟨lines, none, fs⟩

def failure (fs : FileSystem) (lines : List String) (f : Failure) : Reply :=
  ⟨lines, some (.failed f), fs⟩

end Reply

/-! ## Commands -/

def withDirectory (fs : FileSystem) (p : Path) (next : Path → Reply) : Reply :=
  if fs.isDirectory p then
    next (Path.absolute (FileSystem.pathOf fs.workingDirectory) p)
  else ⟨[], some (.notADirectory p), fs⟩

def withExtension (fs : FileSystem) (p : Path) (next : Extension → Reply) : Reply :=
  withDirectory fs p fun root =>
    match Extension.discover fs root with
    | .ok e => next e
    | .error f => .failure fs [] f

def troubleOf (fs : List Finding) : Option Trouble :=
  if countOf .error fs = 0 then none else some (.errorsFound (countOf .error fs))

def runUnder (fs : FileSystem) (heading : List String) (run : Run Outcome)
    (shown : Outcome → List String) : Reply :=
  match run.run.run ⟨fs, .never, []⟩ with
  | (.ok o, w) => ⟨heading ++ shown o, troubleOf o.findings, w.fs⟩
  | (.error f, w) => .failure w.fs heading f

def validation (fs : FileSystem) (heading : String) (json : Bool) (run : Run Outcome) : Reply :=
  runUnder fs (if json then [] else [heading]) run fun o => findingsLines o.findings json

def repair (fs : FileSystem) (heading : String) (root : Path) (run : Run Outcome) : Reply :=
  runUnder fs [heading] run fun o => fixedLines root o.fixed ++ findingsLines o.findings false

def description (fs : FileSystem) (e : Extension) (json : Bool) : Reply :=
  match Changelogs.load fs e.path with
  | .error f => .failure fs [] f
  | .ok c =>
    let latest := c.english.latest?.map (·.version)
    .success fs
      (if json then [(e.summary.toJson latest).print] else summaryLines e.summary latest)

def projectDescription (fs : FileSystem) (root : Path) : Reply :=
  match ((Scope.ofProject fs root .skip).run.run .never).1 with
  | .ok s => .success fs (scopeLines s)
  | .error f => .failure fs [] f

def execute (s : Setup) (fs : FileSystem) : Command → Reply
  | .validateProject p policy json => withDirectory fs p fun root =>
    validation fs ("=> Validating project " ++ root.toString) json
      (Run.validateProject s root policy .check)
  | .fixProject p policy => withDirectory fs p fun root =>
    repair fs ("=> Fixing project " ++ root.toString) root
      (Run.validateProject s root policy .fix)
  | .describeProject p => withDirectory fs p (projectDescription fs)
  | .validateExtension p json => withExtension fs p fun e =>
    validation fs
      ("=> Validating " ++ e.manifest.name ++ " (" ++ e.kind.manifestType ++ ")") json
      (Run.validateExtension s e .check)
  | .fixExtension p => withExtension fs p fun e =>
    repair fs ("=> Fixing " ++ e.manifest.name) e.path (Run.validateExtension s e .fix)
  | .describeExtension p json => withExtension fs p fun e => description fs e json

/-! ## The whole command line -/

def programName : String := "onlishop-cli"

def release : String := "0.1.0"

/-- The directory where the user's programs keep what can be had again. -/
def userCache (setting : String → Option String) : Path :=
  match (setting "XDG_CACHE_HOME").map Path.ofString, (setting "HOME").map Path.ofString with
  | some dir, home =>
    if dir.isAbsolute then dir else ((home.map (·.child ".cache")).getD (.ofString "/tmp"))
  | none, some home => home.child ".cache"
  | none, none => .ofString "/tmp"

def cacheDirectory (setting : String → Option String) (given : Option Path) : Path :=
  given.getD ((userCache setting).child programName)

/-- What a command works with. -/
def setupFor (env : Environment) (i : Invocation) : Except Failure Setup := do
  let directories := Interpreter.searchDirectories (env.setting "PATH")
  let find (version : String) :=
    (Interpreter.names version).map (Interpreter.named env.programAt directories)
  return ⟨← Registry.builtin, .cached (cacheDirectory env.setting i.cacheDir),
    Interpreter.linter find, env.process⟩

/-- What the command line answers: its output, its messages, the exit code, and the file system
afterwards. -/
structure Response where
  output : List String
  messages : List String
  exitCode : Nat
  fs : FileSystem

namespace Response

/-- The response to a reply. -/
def ofReply (r : Reply) : Response where
  output := r.lines
  messages := (r.trouble.map fun t => "error: " ++ t.message).toList
  exitCode := if r.trouble.isSome then 1 else 0
  fs := r.fs

/-- How the program is called. -/
def usageLine : String :=
  "Usage: " ++ programName ++ " [OPTIONS] <project|extension> <ACTION> [PATH]"

/-- The response to arguments that name no command. -/
def ofRefusal (fs : FileSystem) : Refusal → Response
  | .usage => ⟨[], [usageLine], 2, fs⟩
  | .help => ⟨[usageLine], [], 0, fs⟩
  | .version => ⟨[programName ++ " " ++ release], [], 0, fs⟩

end Response

def respond (env : Environment) (fs : FileSystem) (arguments : List String) : Response :=
  match read env.setting arguments with
  | .error refusal => .ofRefusal fs refusal
  | .ok i =>
    match setupFor env i with
    | .error f => .ofReply (.failure fs [] f)
    | .ok s => .ofReply (execute s fs i.command)

end ExtensionAudit.Cli
