import ReportMigration.Text.OsText

/-!
# Failures

What can go wrong in a migration, with the words in which it is reported, how serious it is and
what the user can do about it.
-/

namespace ReportMigration

/-- Why the operating system refuses a file operation. -/
inductive OsFault where
  | notFound
  | permissionDenied
  | alreadyExists
  | notADirectory
  | isADirectory
  | nameTooLong
deriving DecidableEq, Repr

namespace OsFault

/-- The number by which the operating system knows the fault. -/
def code : OsFault → Nat
  | notFound => 2
  | permissionDenied => 13
  | alreadyExists => 17
  | notADirectory => 20
  | isADirectory => 21
  | nameTooLong => 36

def kind : OsFault → String
  | notFound => "NotFound"
  | permissionDenied => "PermissionDenied"
  | alreadyExists => "AlreadyExists"
  | notADirectory => "NotADirectory"
  | isADirectory => "IsADirectory"
  | nameTooLong => "InvalidFilename"

def text : OsFault → String
  | notFound => "No such file or directory"
  | permissionDenied => "Permission denied"
  | alreadyExists => "File exists"
  | notADirectory => "Not a directory"
  | isADirectory => "Is a directory"
  | nameTooLong => "File name too long"

end OsFault

/-- Why a file cannot be read or written. -/
inductive IoFault where
  | os (fault : OsFault)
  | invalidUtf8
  | nulInPath
  | notARegularFile
  | rootNotADirectory (root : String)
  | other (message : String)
deriving DecidableEq, Repr

namespace IoFault

def notFound : IoFault := os .notFound

def message : IoFault → String
  | os fault => s!"{fault.text} (os error {fault.code})"
  | invalidUtf8 => "stream did not contain valid UTF-8"
  | nulInPath => "file name contained an unexpected NUL byte"
  | notARegularFile =>
    "the source path is neither a regular file nor a symlink to a regular file"
  | rootNotADirectory root => s!"report root {root} is not a directory"
  | other text => text

/-- The fault with its inner makeup, as it ends the program when a summary cannot be saved. -/
def detail : IoFault → String
  | os fault =>
    "Os \x7b code: " ++ toString fault.code ++ ", kind: " ++ fault.kind ++ ", message: \""
      ++ fault.text ++ "\" \x7d"
  | nulInPath =>
    "Error \x7b kind: InvalidInput, message: \"file name contained an unexpected NUL byte\" \x7d"
  | invalidUtf8 =>
    "Error \x7b kind: InvalidData, message: \"stream did not contain valid UTF-8\" \x7d"
  | fault => "Custom \x7b kind: Other, error: \"" ++ fault.message ++ "\" \x7d"

end IoFault

/-- What can go wrong in a migration. -/
inductive Failure where
  | io (fault : IoFault)
  | serialization (message : String)
  | document (path : OsText) (message : String)
  | configuration (message : String)
  | configurationField (field : String) (message : String)
  | invalidSetting (field : String) (value : String) (reason : String)
  | missingSetting (field : String)
  | processing (message : String)
deriving DecidableEq, Repr

/-- The area that a failure belongs to. -/
inductive Category where
  | io
  | document
  | configuration
  | processing
deriving DecidableEq, Repr

/-- How serious a failure is. -/
inductive Severity where
  | low
  | medium
  | high
  | critical
deriving DecidableEq, Repr

namespace Category

def name : Category → String
  | io => "Io"
  | document => "Document"
  | configuration => "Configuration"
  | processing => "Processing"

/-- A single document does not endanger a batch; the file system does. -/
def severity : Category → Severity
  | document => .medium
  | processing => .high
  | configuration => .high
  | io => .critical

end Category

namespace Severity

def name : Severity → String
  | low => "Low"
  | medium => "Medium"
  | high => "High"
  | critical => "Critical"

def exitCode : Severity → Nat
  | low => 0
  | medium => 2
  | high => 1
  | critical => 3

end Severity

namespace Failure

def category : Failure → Category
  | io _ => .io
  | document _ _ => .document
  | serialization _ => .document
  | configuration _ => .configuration
  | configurationField _ _ => .configuration
  | invalidSetting _ _ _ => .configuration
  | missingSetting _ => .configuration
  | processing _ => .processing

def severity (f : Failure) : Severity :=
  f.category.severity

def message : Failure → String
  | io fault => s!"IO error: {fault.message}"
  | serialization text => s!"Serialization error: {text}"
  | document path text => s!"XML error in {path}: {text}"
  | configuration text => s!"Configuration error: {text}"
  | configurationField field text => s!"Configuration error in '{field}': {text}"
  | invalidSetting field value reason => s!"Invalid value '{value}' for '{field}': {reason}"
  | missingSetting field => s!"Missing required configuration: {field}"
  | processing text => s!"Processing error: {text}"

/-- What the user can do about a failure. -/
def suggestion : Failure → String
  | io _ => "Check that the report directory exists and is readable and writable"
  | serialization _ => "Check that the report output path is writable"
  | document _ _ => "Fix the malformed report document or exclude it from the run"
  | configuration _ => "Check the TOML configuration file syntax"
  | configurationField _ _ => "Check the TOML configuration file syntax"
  | invalidSetting _ _ _ => "Correct the configuration value and retry"
  | missingSetting _ => "Add the missing setting to the configuration file"
  | processing _ => "Re-run with --verbose and review the logged fragment"

def userMessage : Failure → String
  | io fault => s!"File access failed: {fault.message}"
  | document path _ => s!"Report document {path} could not be parsed"
  | invalidSetting field _ reason => s!"Setting '{field}' is invalid: {reason}"
  | missingSetting field => s!"Setting '{field}' is required"
  | f => f.message

end Failure

end ReportMigration
