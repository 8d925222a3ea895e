import HclOverlay.Failure
import HclOverlay.Text.Characters

/-!
# Notices

What the work reports along the way without stopping. Each notice is a constructor with its data;
its level, wording and fields are functions of it.

* `Notice` — the notices.
* `Noted` — computations that may fail and leave notices either way.
-/

namespace HclOverlay

/-- Something worth reporting. -/
inductive Notice where
  /-- a patch holds a block, which is ignored -/
  | nestedBlock (path : Path) (resource : ResourceKey) (block : String)
  /-- a patch sets one attribute twice -/
  | attributeTwice (path : Path) (resource : ResourceKey) (name : String)
  /-- a file declares one block twice -/
  | duplicateBlock (kind : String) (key : ResourceKey)
  | severalLocals
  /-- several files declare one resource -/
  | shadowedResource (resource : ResourceKey) (patched : Path) (ignored : List Path)
  | moduleLabels (path : Path) (labels : Nat)
  | moduleSource (path : Path) (name : String)
  | noSourceFilter (resource : ResourceKey)
  | unresolvedPatches (source : String) (patches : Nat)
  | moduleNotPatched (name : String) (failure : Failure)
  | staleOutput (name : String) (path : Path)

/-- How serious a notice is. -/
inductive Level where
  | warning
  | error
  deriving DecidableEq

/-- A field of a notice. -/
inductive FieldValue where
  | text (value : String)
  | count (value : Nat)

namespace Notice

/-- How serious a notice is. -/
def level : Notice → Level
  | .moduleNotPatched .. => .error
  | _ => .warning

/-- The wording of a notice. -/
def message : Notice → String
  | .nestedBlock .. => "nested blocks are not supported in patches; ignoring"
  | .attributeTwice .. => "attribute patched twice in one block; the later value wins"
  | .duplicateBlock .. => "duplicate block in one file; keeping the first declaration"
  | .severalLocals => "multiple locals blocks in one file; only the last one is indexed"
  | .shadowedResource .. => "resource declared in several files; only the first is patched"
  | .moduleLabels .. => "module block needs exactly one label; skipping"
  | .moduleSource .. => "module has no literal source; skipping"
  | .noSourceFilter _ => "patch has no source filter; skipping"
  | .unresolvedPatches .. => "skipping patches"
  | .moduleNotPatched .. => "module not patched"
  | .staleOutput .. => "removing stale patched copy"

/-- One character of a listed text. -/
def listedChar (c : Char) : List Char :=
  match c with
  | '"' => ['\\', '"']
  | '\\' => ['\\', '\\']
  | '\n' => ['\\', 'n']
  | '\r' => ['\\', 'r']
  | '\t' => ['\\', 't']
  | '\x00' => ['\\', '0']
  | c =>
    if Text.isHidden c then
      '\\' :: 'u' :: '{' :: (Nat.toDigits 16 c.toNat ++ ['}'])
    else [c]

/-- A text in quotes, with quotes and hidden characters escaped. -/
def listed (text : String) : String :=
  "\"" ++ String.ofList (text.toList.flatMap listedChar) ++ "\""

/-- A list of texts in brackets. -/
def listing (texts : List String) : String :=
  "[" ++ ", ".intercalate (texts.map listed) ++ "]"

/-- The fields of a notice by name. -/
def fields : Notice → List (String × FieldValue)
  | .nestedBlock path resource block =>
    [("path", .text path.text), ("resource", .text resource.text), ("block", .text block)]
  | .attributeTwice path resource name =>
    [("path", .text path.text), ("resource", .text resource.text), ("attribute", .text name)]
  | .duplicateBlock kind key => [("kind", .text kind), ("key", .text key.text)]
  | .severalLocals => []
  | .shadowedResource resource patched ignored =>
    [("resource", .text resource.text), ("patched", .text patched.text),
      ("ignored", .text (listing (ignored.map Path.text)))]
  | .moduleLabels path labels => [("path", .text path.text), ("labels", .count labels)]
  | .moduleSource path name => [("path", .text path.text), ("module", .text name)]
  | .noSourceFilter resource => [("target_resource", .text resource.text)]
  | .unresolvedPatches source patches =>
    [("error", .text (Failure.unresolvedModule source).message), ("patches", .count patches)]
  | .moduleNotPatched name failure =>
    [("module", .text name), ("error", .text failure.message)]
  | .staleOutput name path => [("module", .text name), ("path", .text path.text)]

end Notice

/-- Computations that may fail, and that leave notices whether they fail or not. -/
abbrev Noted := ExceptT Failure (StateM (List Notice))

/-- Leaves a notice. -/
def note (n : Notice) : Noted Unit := modify (· ++ [n])

/-- Runs a computation: its result and its notices in order. -/
def Noted.run {α : Type} (m : Noted α) : Except Failure α × List Notice :=
  StateT.run (ExceptT.run m) []

end HclOverlay
