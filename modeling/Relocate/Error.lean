import Relocate.Edit.Apply
import Relocate.Path.Basic

/-!
Everything that can go wrong, by cause, and what is said about it.
-/

namespace Relocate

/-- Why an operation on files failed. -/
inductive IoCause where
  | notFound
  | busy
  | alreadyThere
  | notDirectory
  | isDirectory
  | invalid
  | nameTooLong
  | notEmpty
  | notText
  /-- The path holds the character that ends a name for the operating system. -/
  | nullCharacter
  /-- The file system refuses the named operation. -/
  | refused (operation : String)
  | stated (text : String)
  deriving DecidableEq, Repr

/-- What the operating system says. -/
def IoCause.message : IoCause → String
  | notFound => "No such file or directory (os error 2)"
  | busy => "Device or resource busy (os error 16)"
  | alreadyThere => "File exists (os error 17)"
  | notDirectory => "Not a directory (os error 20)"
  | isDirectory => "Is a directory (os error 21)"
  | invalid => "Invalid argument (os error 22)"
  | nameTooLong => "File name too long (os error 36)"
  | notEmpty => "Directory not empty (os error 39)"
  | notText => "stream did not contain valid UTF-8"
  | nullCharacter => "file name contained an unexpected NUL byte"
  | refused operation => operation ++ " denied"
  | stated text => text

/-- What is wrong with the settings or with an alias configuration. -/
inductive ConfigProblem where
  | unreadable
  /-- The text of a variable would be cut within a character. -/
  | cutVariable (name : String)
  | unknownLevel (level : String)
  | emptyBatch
  | noExtension
  | dottedExtension (extension : String)
  | aliasUnread (path : Path) (cause : IoCause)
  | aliasMalformed (path : Path)
  | circularExtends (path : Path)
  | stated (text : String)
  deriving DecidableEq, Repr

/-- What is said about the problem. -/
def ConfigProblem.message : ConfigProblem → String
  | unreadable => "Failed to load configuration"
  | cutVariable name => "Variable " ++ name ++ " is cut within a character"
  | unknownLevel level =>
    "Invalid log level '" ++ level ++ "', must be one of: trace, debug, info, warn, error"
  | emptyBatch => "Scan batch size cannot be 0"
  | noExtension => "At least one source extension must be configured"
  | dottedExtension extension =>
    "Extension '" ++ extension ++ "' must be given without a leading dot"
  | aliasUnread path cause => "Failed to read tsconfig at " ++ path.text ++ ": " ++ cause.message
  | aliasMalformed path => "Failed to parse tsconfig at " ++ path.text
  | circularExtends path => "Circular extends dependency detected: " ++ path.text
  | stated text => text

/-- A failure that is no one else's fault. -/
inductive InternalProblem where
  | edits (error : EditError)
  | noTemporaryName (directory : Path)
  | unfinishedMove
  | stated (text : String)
  deriving DecidableEq, Repr

/-- What is said about the problem. -/
def InternalProblem.message : InternalProblem → String
  | edits error => error.message
  | noTemporaryName directory => "Could not find a free temporary name in " ++ directory.text
  | unfinishedMove => "The move did not come to an end"
  | stated text => text

/-- Everything that can go wrong. -/
inductive Error where
  | targetExists (path : Path)
  | sourceNotFound (path : Path)
  | io (path : Option Path) (cause : IoCause)
  | json
  | parse (path : Path) (detail : Option String)
  | config (problem : ConfigProblem)
  | manifest (path : Path) (detail : String)
  | internal (problem : InternalProblem)
  deriving DecidableEq, Repr

namespace Error

/-- What is said about an error. -/
def message : Error → String
  | targetExists path => "Target already exists: " ++ path.text
  | sourceNotFound path => "Source does not exist: " ++ path.text
  | io (some path) cause => "I/O error: " ++ path.text ++ ": " ++ cause.message
  | io none cause => "I/O error: " ++ cause.message
  | json => "JSON error"
  | parse _ (some detail) => "Parse error: " ++ detail
  | parse _ none => "Parse error"
  | config problem => "Configuration error: " ++ problem.message
  | manifest _ detail => "Manifest error: " ++ detail
  | internal problem => "Internal error: " ++ problem.message

/-- The path an error is about. -/
def path? : Error → Option Path
  | targetExists path | sourceNotFound path | parse path _ | manifest path _ => some path
  | io path _ => path
  | json | config _ | internal _ => none

/-- The error comes from an operation on files. -/
def isIo : Error → Bool
  | io _ _ => true
  | _ => false

end Error

end Relocate
