import ExtensionAudit.Files.Path
import ExtensionAudit.Version.ConstraintSyntax
/-
  The failures that end an operation. Broken rules are findings; a failure is a
  thing that could not be read, resolved, reached or written. Each cause has its
  constructor, and the wording of all of them is in one function.
-/

namespace ExtensionAudit

/-- Why an operation on a file, or starting a program, failed. -/
inductive IoKind where
  | notFound
  | alreadyExists
  | isADirectory
  | notADirectory
  | permissionDenied
  | linkLoop
  | nameTooLong
  | busy
  | notAProgram
  /-- a path with a zero character in it -/
  | invalidPath
  /-- the path of a program with a zero character in it -/
  | invalidProgram
  | invalidText
  deriving DecidableEq, Repr

/-- The wording of a cause, with the number that the system has for it. -/
def IoKind.message : IoKind → String
  | .notFound => "No such file or directory (os error 2)"
  | .alreadyExists => "File exists (os error 17)"
  | .isADirectory => "Is a directory (os error 21)"
  | .notADirectory => "Not a directory (os error 20)"
  | .permissionDenied => "Permission denied (os error 13)"
  | .linkLoop => "Too many levels of symbolic links (os error 40)"
  | .nameTooLong => "File name too long (os error 36)"
  | .busy => "Device or resource busy (os error 16)"
  | .notAProgram => "Exec format error (os error 8)"
  | .invalidPath => "file name contained an unexpected NUL byte"
  | .invalidProgram => "nul byte found in provided data"
  | .invalidText => "stream did not contain valid UTF-8"

/-- The package whose requirement decides the platform version. -/
def platformPackage : String := "onlishop/core"

/-- Why an operation ended without a result. -/
inductive Failure where
  | manifestUnreadable (file : String) (path : Path) (kind : IoKind)
  | manifestMalformed (file : String) (path : Path)
  | missingDependency (package : String)
  | unsupportedType (path : Path) (found : String)
  | missingBundleName (path : Path)
  | missingPluginClass (path : Path)
  | invalidConstraint (text : String) (fault : ConstraintFault)
  | invalidVersion (text : String) (fault : VersionFault)
  | invalidRequirement (root : Path) (text : String) (fault : ConstraintFault)
  | unusableRelease (root : Path) (text : String) (fault : ConstraintFault)
  | io (path : Path) (kind : IoKind)
  | cancelled
  | configMalformed (path : Path)
  | unsupportedFormat (ending : String)
  | lockFailed (path : Path)
  | unavailable (service reason : String)
  | noPhpVersion (constraint : String)
  | migrationFailed (migration reason : String)
  deriving DecidableEq, Repr

namespace Failure

/-- The wording of a constraint that cannot be read. -/
def constraintMessage (text : String) (fault : ConstraintFault) : String :=
  "invalid version constraint '" ++ text ++ "': " ++ fault.message

/-- The wording of a platform version that cannot be resolved. -/
def resolutionMessage (root : Path) (reason : String) : String :=
  "could not resolve platform version for " ++ root.toString ++ ": " ++ reason

def message : Failure → String
  | manifestUnreadable file path kind =>
    "could not read " ++ file ++ " at " ++ path.toString ++ ": " ++ kind.message
  | manifestMalformed file path =>
    "could not parse " ++ file ++ " at " ++ path.toString ++ ": <json>"
  | missingDependency package => "missing " ++ package ++ " requirement in composer.json"
  | unsupportedType path found =>
    "unsupported extension type '" ++ found ++ "' at " ++ path.toString
  | missingBundleName path =>
    "composer.json at " ++ path.toString ++ " does not contain onlishop-bundle-name in extra"
  | missingPluginClass path =>
    "extension name is empty: composer.json at " ++ path.toString ++
      " has no onlishop-plugin-class"
  | invalidConstraint text fault => constraintMessage text fault
  | invalidVersion text fault => "invalid version '" ++ text ++ "': " ++ fault.message
  | invalidRequirement root text fault =>
    resolutionMessage root
      ("invalid " ++ platformPackage ++ " requirement: " ++ constraintMessage text fault)
  | unusableRelease root text fault => resolutionMessage root (constraintMessage text fault)
  | io path kind => "I/O error at " ++ path.toString ++ ": " ++ kind.message
  | cancelled => "operation cancelled"
  | configMalformed path => "Failed to parse YAML config at " ++ path.toString ++ ": <yaml>"
  | unsupportedFormat ending => "Unsupported config format: " ++ ending
  | lockFailed path => "Lock acquisition failed for " ++ path.toString
  | unavailable service reason => service ++ " unavailable: " ++ reason
  | noPhpVersion constraint =>
    "could not find a PHP version for platform constraint " ++ constraint
  | migrationFailed migration reason => "fixer " ++ migration ++ " failed: " ++ reason

end Failure

/-- Reads a constraint, failing with its text. -/
def Constraint.read (s : String) : Except Failure Constraint :=
  (Constraint.parse s).mapError (.invalidConstraint (Constraint.textOf s))

/-- Reads a version, failing with its text as given. -/
def Version.read (s : String) : Except Failure Version :=
  (Version.parse s).mapError (.invalidVersion s)

end ExtensionAudit
