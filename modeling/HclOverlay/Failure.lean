import HclOverlay.Path.Basic
import HclOverlay.Source.Position

/-!
# Failures

Everything that can stop the work, as causes, and the one place where causes become messages.

* `ResourceKey` — how a resource is named: its type and its name, joined by a point.
* `ParseFailure` — why a file cannot be used, with its position where one is known.
* `FileError` — why a file cannot be read or written.
* `Failure` — all of them; `Failure.message` words them and `Failure.kind` classifies them.
-/

namespace HclOverlay

open Source (Position)

/-- The name of a resource among all others: `type.name`. -/
structure ResourceKey where
  /-- type and name joined by a point -/
  text : String
  deriving DecidableEq

/-- The key of a resource with the given type and name. -/
def ResourceKey.of (type name : String) : ResourceKey := ⟨type ++ "." ++ name⟩

instance : ToString ResourceKey := ⟨ResourceKey.text⟩

/-! ## Causes -/

/-- What is wrong with a configuration or overlay file. -/
inductive ParseFault where
  /-- the text is not well formed -/
  | unreadable (detail : String)
  /-- a patch block does not have exactly two labels that are not empty -/
  | patchLabels (count : Nat)
  /-- the module source of a patch is not a plain string -/
  | sourceFilter (reason : String)

/-- A fault in a file, and where it is. -/
structure ParseFailure where
  path : Path
  position : Option Position
  fault : ParseFault

/-- Why a file cannot be read or written. -/
inductive FileError where
  | missing
  | exists
  | notDirectory
  | isDirectory
  /-- the operation does not apply to the path -/
  | invalid
  /-- the bytes are not text in UTF-8 -/
  | notText
  /-- the path or one of its names has more bytes than a path or name may have -/
  | tooLong
  /-- the path holds a NUL character -/
  | holdsNul
  | other (message : String)

/-- Why the work stopped. -/
inductive Failure where
  /-- an input or output error without a file -/
  | io (message : String)
  | file (path : Path) (error : FileError)
  | parse (failure : ParseFailure)
  /-- a patch names a resource that no file of the module declares -/
  | resourceNotFound (key : ResourceKey)
  /-- no module call of the root uses the source a patch selects -/
  | unresolvedModule (source : String)
  | rootMissing (path : Path)
  | overlayMissing (path : Path)
  /-- an overlay named by itself does not have the suffix of overlays -/
  | overlaySuffix (path : Path)
  | moduleMissing (path : Path)
  | manifestMissing (path : Path)
  | manifestMalformed (path : Path) (detail : String)
  | walk (directory path : Path) (error : FileError)
  | outside (path base : Path)
  /-- a patch sets an attribute whose name is no identifier -/
  | attributeName (name : String)
  | modulesFailed (count : Nat)
  | general (message : String)

/-! ## Messages -/

/-- The wording of a fault. -/
def ParseFault.message : ParseFault → String
  | .unreadable detail => "invalid HCL: " ++ detail
  | .patchLabels count =>
    "patch block requires exactly 2 non-empty labels (type and name), got " ++ toString count
  | .sourceFilter reason => "invalid source filter: " ++ reason

/-- The wording of a fault with its file and position. -/
def ParseFailure.message (f : ParseFailure) : String :=
  match f.position with
  | some p => f.path.text ++ ":" ++ toString p ++ ": " ++ f.fault.message
  | none => f.path.text ++ ": " ++ f.fault.message

/-- The wording of the operating system. -/
def FileError.message : FileError → String
  | .missing => "No such file or directory (os error 2)"
  | .exists => "File exists (os error 17)"
  | .notDirectory => "Not a directory (os error 20)"
  | .isDirectory => "Is a directory (os error 21)"
  | .invalid => "Invalid argument (os error 22)"
  | .notText => "stream did not contain valid UTF-8"
  | .tooLong => "File name too long (os error 36)"
  | .holdsNul => "file name contained an unexpected NUL byte"
  | .other message => message

namespace Failure

/-- The classes of failures. -/
inductive Kind where
  | io | file | parse | resourceNotFound | unresolvedModule | general
  deriving DecidableEq

/-- The class of a failure. -/
def kind : Failure → Kind
  | .io _ => .io
  | .file .. => .file
  | .parse _ => .parse
  | .resourceNotFound _ => .resourceNotFound
  | .unresolvedModule _ => .unresolvedModule
  | _ => .general

/-- The wording of a failure without its class. -/
def detail : Failure → String
  | .io message => message
  | .file path error => path.text ++ ": " ++ error.message
  | .parse f => f.message
  | .resourceNotFound key => "'" ++ key.text ++ "' is not declared in any file of the module"
  | .unresolvedModule source => "no module call uses source '" ++ source ++ "'"
  | .rootMissing path => "root module directory not found: " ++ path.text
  | .overlayMissing path => "overlay path does not exist: " ++ path.text
  | .overlaySuffix path => "overlay file must have .kf.hcl extension: " ++ path.text
  | .moduleMissing path => "module path does not exist: " ++ path.text
  | .manifestMissing path => path.text ++ " not found; run 'init' first"
  | .manifestMalformed path detail => "failed to parse " ++ path.text ++ ": " ++ detail
  | .walk directory path error =>
    "failed to walk " ++ directory.text ++ ": IO error for operation on " ++ path.text ++ ": " ++
      error.message
  | .outside path base => path.text ++ " is not inside " ++ base.text
  | .attributeName name =>
    "invalid attribute name '" ++ name ++ "': invalid identifier \x60" ++ name ++ "\x60"
  | .modulesFailed count => toString count ++ " module(s) failed to patch"
  | .general message => message

/-- The wording of a failure. -/
def message (f : Failure) : String :=
  match f with
  | .file path error => "IO Error on " ++ path.text ++ ": " ++ error.message
  | _ =>
    (match f.kind with
      | .io | .file => "IO Error: "
      | .parse => "Parse Error: "
      | .resourceNotFound => "Resource Not Found: "
      | .unresolvedModule => "Unresolved Module: "
      | .general => "General Error: ") ++ f.detail

/-- The wording of the cause behind a failure, if it wraps another error. -/
def cause? : Failure → Option String
  | .io message => some message
  | .file _ error => some error.message
  | .parse f => some f.message
  | _ => none

end Failure

end HclOverlay
