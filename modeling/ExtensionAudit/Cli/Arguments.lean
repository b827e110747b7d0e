import ExtensionAudit.Extension.Project
/-
  What the arguments of the command line ask for. Arguments stand on three levels:
  in front of the subject (`project` or `extension`), between it and the action,
  and behind the action. The common options may stand on every level, and the
  innermost one counts.
-/

namespace ExtensionAudit.Cli

/-- What can be asked for. -/
inductive Command where
  | validateProject (root : Path) (policy : DiscoveryPolicy) (json : Bool)
  | fixProject (root : Path) (policy : DiscoveryPolicy)
  | describeProject (root : Path)
  | validateExtension (path : Path) (json : Bool)
  | fixExtension (path : Path)
  | describeExtension (path : Path) (json : Bool)
  deriving DecidableEq, Repr

/-- A command and the options that all commands have. -/
structure Invocation where
  command : Command
  verbose : Bool
  cacheDir : Option Path
  deriving DecidableEq, Repr

/-- Why there is no command. -/
inductive Refusal where
  | usage
  | help
  | version
  deriving DecidableEq, Repr

/-! ## Single arguments -/

inductive Argument where
  | word (s : Text)
  | long (name : Text) (value : Option Text)
  | short (letters : Text)
  | endOfOptions
  deriving DecidableEq, Repr

def Argument.ofText : Text → Argument
  | ['-', '-'] => .endOfOptions
  | '-' :: '-' :: s =>
    match s.dropWhile (· != '=') with
    | _ :: value => .long (s.takeWhile (· != '=')) (some value)
    | [] => .long s none
  | '-' :: c :: s => .short (c :: s)
  | s => .word s

/-- Whether an argument can be the value of the option in front of it. -/
def canBeValue : Text → Bool
  | '-' :: _ :: _ => false
  | s => !s.isEmpty

/-- What may stand on a level: these switches besides the common options, the request for the
version, and a path. Where there is no path, a word ends the level. -/
structure Level where
  switches : List String
  showsVersion : Bool
  takesPath : Bool

/-- What stands on a level. -/
structure Given where
  switches : List String
  cacheDir : Option Text
  path : Option Text

namespace Given

def nothing : Given := ⟨[], none, none⟩

def has (g : Given) (name : String) : Bool := g.switches.contains name

def addSwitch (g : Given) (name : String) : Except Refusal Given :=
  if g.has name then .error .usage else .ok { g with switches := name :: g.switches }

/-- Takes the cache directory, which may be given once. -/
def setCacheDir (g : Given) (value : Text) : Except Refusal Given :=
  if g.cacheDir.isSome || value.isEmpty then .error .usage
  else .ok { g with cacheDir := some value }

def setPath (g : Given) (value : Text) : Except Refusal Given :=
  if g.path.isSome || value.isEmpty then .error .usage else .ok { g with path := some value }

end Given

/-- The long name of the option for the cache directory. -/
def cacheDirOption : Text := "cache-dir".toList

namespace Level

/-- Takes an option without a value. -/
def takeSwitch (l : Level) (g : Given) (name : String) : Except Refusal Given :=
  if name = "help" then .error .help
  else if name = "version" && l.showsVersion then .error .version
  else if ("verbose" :: l.switches).contains name then g.addSwitch name
  else .error .usage

def longName (letter : Char) : String :=
  match letter with
  | 'v' => "verbose"
  | 'h' => "help"
  | 'V' => "version"
  | c => String.singleton c

/-- Takes letters that each stand for an option. -/
def takeLetters (l : Level) (g : Given) (letters : Text) : Except Refusal Given :=
  letters.foldlM (fun g c => l.takeSwitch g (longName c)) g

/-- Reads a level: what is given there, and the arguments from the word on that ends it. Once
the options have ended (`plain`), all arguments are words. -/
def read (l : Level) (plain : Bool) (g : Given) : List Text → Except Refusal (Given × List Text)
  | [] => .ok (g, [])
  | arg :: rest =>
    match if plain then .word arg else Argument.ofText arg with
    | .word w =>
      if l.takesPath then do l.read plain (← g.setPath w) rest else .ok (g, arg :: rest)
    | .endOfOptions => if l.takesPath then l.read true g rest else .error .usage
    | .short letters => do l.read plain (← l.takeLetters g letters) rest
    | .long name (some value) =>
      if name = cacheDirOption then do l.read plain (← g.setCacheDir value) rest
      else .error .usage
    | .long name none =>
      if name = cacheDirOption then
        match rest with
        | value :: rest =>
          if canBeValue value then do l.read plain (← g.setCacheDir value) rest
          else .error .usage
        | [] => .error .usage
      else do l.read plain (← l.takeSwitch g (String.ofList name)) rest

end Level

/-! ## Subjects and actions -/

/-- Something to do: its name, the switches it takes, and the command it stands for. -/
structure Action where
  name : String
  switches : List String
  command : Path → (String → Bool) → Command

/-- Something to work on: its name, the variable that may hold its path and the path that is
meant without one, and what can be done. -/
structure Subject where
  name : String
  pathVariable : Option String
  defaultPath : Option String
  actions : List Action

/-- The switch that makes an extension that cannot be loaded end the run. -/
def strictSwitch : String := "strict-discovery"

def jsonSwitch : String := "json"

def policyOf (has : String → Bool) : DiscoveryPolicy :=
  if has strictSwitch then .abort else .skip

def projectSubject : Subject where
  name := "project"
  pathVariable := some "ONLISHOP_PROJECT_ROOT"
  defaultPath := some "."
  actions := [
    ⟨"validate", [strictSwitch, jsonSwitch],
      fun path has => .validateProject path (policyOf has) (has jsonSwitch)⟩,
    ⟨"fix", [strictSwitch], fun path has => .fixProject path (policyOf has)⟩,
    ⟨"debug", [], fun path _ => .describeProject path⟩]

def extensionSubject : Subject where
  name := "extension"
  pathVariable := none
  defaultPath := none
  actions := [
    ⟨"validate", [jsonSwitch], fun path has => .validateExtension path (has jsonSwitch)⟩,
    ⟨"fix", [], fun path _ => .fixExtension path⟩,
    ⟨"info", [jsonSwitch], fun path has => .describeExtension path (has jsonSwitch)⟩]

def subjects : List Subject := [projectSubject, extensionSubject]

/-- The variable that may hold the cache directory. -/
def cacheDirVariable : String := "ONLISHOP_CLI_CACHE_DIR"

/-- The value that is given, or else that of a variable, which must not be empty. -/
def orVariable (setting : String → Option String) (name : String) (given : Option Text) :
    Except Refusal (Option Text) :=
  match given with
  | some value => .ok (some value)
  | none =>
    match setting name with
    | some "" => .error .usage
    | value => .ok (value.map String.toList)

def pathFor (setting : String → Option String) (s : Subject) (given : Option Text) :
    Except Refusal Path := do
  let path ← match s.pathVariable with
    | some name => orVariable setting name given
    | none => pure given
  match path.or (s.defaultPath.map String.toList) with
  | some path => return ⟨path⟩
  | none => throw .usage

/-- The word that asks for help, and may itself be asked about. -/
def helpWord : String := "help"

/-- What the word for help may have behind it where an action is expected. -/
def Subject.topics (s : Subject) : List (List String) :=
  [] :: [helpWord] :: s.actions.map ([·.name])

/-- What the word for help may have behind it where a subject is expected. -/
def topics : List (List String) :=
  [] :: [helpWord] :: subjects.flatMap fun s => s.topics.map (s.name :: ·)

/-- The member of a list that the first argument names, and the arguments behind it. There may be
a request for help on one of the topics instead. -/
def choose {α : Type} (name : α → String) (choices : List α) (topics : List (List String)) :
    List Text → Except Refusal (α × List Text)
  | [] => .error .usage
  | word :: rest =>
    match choices.find? fun a => name a = String.ofList word with
    | some a => .ok (a, rest)
    | none =>
      let asked := String.ofList word = helpWord && topics.contains (rest.map String.ofList)
      .error (if asked then .help else .usage)

/-- What the arguments ask for, given the variables of the environment. -/
def read (setting : String → Option String) (arguments : List String) :
    Except Refusal Invocation := do
  let cacheDir (g : Given) := orVariable setting cacheDirVariable g.cacheDir
  let (outer, rest) ← Level.read ⟨[], true, false⟩ false .nothing (arguments.map String.toList)
  let (subject, rest) ← choose Subject.name subjects topics rest
  let (middle, rest) ← Level.read ⟨[], false, false⟩ false .nothing rest
  let (action, rest) ← choose Action.name subject.actions subject.topics rest
  let (inner, _) ← Level.read ⟨action.switches, false, true⟩ false .nothing rest
  let path ← pathFor setting subject inner.path
  let levels := [inner, middle, outer]
  let directories ← levels.mapM cacheDir
  let written := levels.findSome? Given.cacheDir
  return {
    command := action.command path inner.has
    verbose := levels.any (·.has "verbose")
    cacheDir := (written.or (directories.findSome? id)).map Path.mk }

end ExtensionAudit.Cli
