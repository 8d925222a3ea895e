import HclOverlay.Build.Summary

/-!
# The command line

    kungfu build [ROOT] [--overlay PATH] [-o|--output DIR] [--skip-manifest]

* `Request`, `Misuse` — what is asked for, or why the arguments ask for nothing.
* `Word.ofText` — the forms an argument can have.
* `readBuild` — the arguments of `build`, one after the other.
* `Request.read` — all arguments. Where an option is missing an environment variable stands in for
  it, and then a default.
* `invoke` — a whole invocation on a session; `Ending.exitCode` is its exit code.
-/

namespace HclOverlay.CommandLine

/-- What an invocation asks for. -/
inductive Request where
  | version
  | help
  | build (args : Build.Arguments)

/-- Why arguments ask for nothing. -/
inductive Misuse where
  | commandMissing
  | commandUnknown (text : String)
  | optionUnknown (text : String)
  /-- an option or argument without a value, or with an empty one -/
  | valueMissing (option : String)
  | valueUnexpected (option : String)
  | repeated (option : String)
  | argumentUnexpected (text : String)

/-! ## Words -/

/-- The forms of an argument. -/
inductive Word where
  /-- `--name`, perhaps with a value after an equals sign -/
  | long (name : String) (value : Option String)
  /-- `-` and letters -/
  | short (letters : List Char)
  /-- `--`, after which everything is plain -/
  | ending
  | plain

/-- The parts of a text before and after its first equals sign. -/
def splitEquals (cs : List Char) : String × Option String :=
  match cs.span (· != '=') with
  | (name, _ :: value) => (String.ofList name, some (String.ofList value))
  | (name, []) => (String.ofList name, none)

/-- The form of an argument. -/
def Word.ofText (text : String) : Word :=
  match text.toList with
  | ['-', '-'] => .ending
  | '-' :: '-' :: rest => .long (splitEquals rest).1 (splitEquals rest).2
  | '-' :: c :: rest => .short (c :: rest)
  | _ => .plain

/-- Whether an argument can be the value of an option before it. -/
def isValue (text : String) : Bool :=
  match Word.ofText text with
  | .plain => true
  | _ => false

/-! ## The arguments of `build` -/

/-- The arguments of `build` as far as they were given. -/
structure Given where
  root : Option String
  overlay : Option String
  output : Option String
  skipManifest : Bool

/-- Nothing given. -/
def Given.nothing : Given := ⟨none, none, none, false⟩

/-- The options of `build` that take a value. -/
inductive ValueOption where
  | overlay
  | output
  deriving DecidableEq

/-- The name of an option. -/
def ValueOption.name : ValueOption → String
  | .overlay => "overlay"
  | .output => "output"

/-- The option with a name. -/
def ValueOption.ofName? (name : String) : Option ValueOption :=
  if name = ValueOption.overlay.name then some .overlay
  else if name = ValueOption.output.name then some .output
  else none

/-- The environment variable that stands in for an option. -/
def ValueOption.variable : ValueOption → String
  | .overlay => "KUNGFU_OVERLAY"
  | .output => "KUNGFU_OUTPUT"

/-- The value of an option that was not given at all. -/
def ValueOption.default : ValueOption → String
  | .overlay => "overlays"
  | .output => ".terraform/kungfu/modules"

/-- The value of an option, if it was given. -/
def Given.value (g : Given) : ValueOption → Option String
  | .overlay => g.overlay
  | .output => g.output

/-- A value that may not be empty. -/
def nonEmpty (what text : String) : Except Misuse String :=
  if text.isEmpty then .error (.valueMissing what) else .ok text

/-- Gives an option its value, once. -/
def Given.setOption (g : Given) (o : ValueOption) (text : String) : Except Misuse Given := do
  if (g.value o).isSome then throw (.repeated o.name)
  let text ← nonEmpty o.name text
  match o with
  | .overlay => return { g with overlay := some text }
  | .output => return { g with output := some text }

/-- Sets the root, once. -/
def Given.setRoot (g : Given) (text : String) : Except Misuse Given := do
  if g.root.isSome then throw (.argumentUnexpected text)
  return { g with root := some (← nonEmpty "ROOT" text) }

/-- Sets the flag, once. -/
def Given.setSkip (g : Given) : Except Misuse Given :=
  if g.skipManifest then .error (.repeated "skip-manifest") else .ok { g with skipManifest := true }

/-- The value written directly after a short option, an equals sign between them ignored. -/
def attached? : List Char → Option String
  | [] => none
  | '=' :: value => some (String.ofList value)
  | value => some (String.ofList value)

/-- What one argument of `build` says by itself. -/
inductive Step where
  /-- it is complete -/
  | given (g : Given)
  /-- it is an option whose value is the next argument -/
  | wants (o : ValueOption)
  /-- all further arguments are plain -/
  | plainOnly
  | help

/-- Reads one argument of `build`. -/
def readStep (g : Given) (text : String) : Except Misuse Step :=
  match Word.ofText text with
  | .plain => (g.setRoot text).map .given
  | .ending => .ok .plainOnly
  | .short ('h' :: _) => .ok .help
  | .short ('o' :: rest) =>
    match attached? rest with
    | some value => (g.setOption .output value).map .given
    | none => .ok (.wants .output)
  | .short _ => .error (.optionUnknown text)
  | .long name value =>
    match ValueOption.ofName? name, value with
    | some o, some value => (g.setOption o value).map .given
    | some o, none => .ok (.wants o)
    | none, value =>
      if name = "skip-manifest" then
        if value.isSome then .error (.valueUnexpected name) else g.setSkip.map .given
      else if name = "help" then
        if value.isSome then .error (.valueUnexpected name) else .ok .help
      else .error (.optionUnknown text)

/-- Reads the arguments of `build`; nothing is given if they ask for help. -/
def readBuild (g : Given) : List String → Except Misuse (Option Given)
  | [] => .ok (some g)
  | text :: rest =>
    match readStep g text with
    | .error m => .error m
    | .ok .help => .ok none
    | .ok .plainOnly => (rest.foldlM Given.setRoot g).map some
    | .ok (.given g) => readBuild g rest
    | .ok (.wants o) =>
      match rest with
      | [] => .error (.valueMissing o.name)
      | value :: rest =>
        if isValue value then
          match g.setOption o value with
          | .error m => .error m
          | .ok g => readBuild g rest
        else .error (.valueMissing o.name)

/-! ## All arguments -/

/-- The environment variables by name. -/
abbrev Environment := Table String String

/-- The value of an option: as given, else from the environment, else the default. -/
def Given.resolve (g : Given) (env : Environment) (o : ValueOption) : Except Misuse Path :=
  match g.value o, env.find? o.variable with
  | some value, _ => .ok ⟨value⟩
  | none, some value => (nonEmpty o.name value).map Path.mk
  | none, none => .ok ⟨o.default⟩

/-- The root that was not given. -/
def defaultRoot : String := "."

/-- The arguments of a build. -/
def Given.arguments (g : Given) (env : Environment) : Except Misuse Build.Arguments := do
  let overlay ← g.resolve env .overlay
  let output ← g.resolve env .output
  return ⟨⟨g.root.getD defaultRoot⟩, overlay, output, g.skipManifest⟩

/-- The name of the one command. -/
def buildName : String := "build"

/-- The name of the command that asks for help. -/
def helpName : String := "help"

/-- Reads the arguments after `help`. -/
def readHelp : List String → Except Misuse Request
  | [] => .ok .help
  | [name] =>
    if name = buildName || name = helpName then .ok .help else .error (.commandUnknown name)
  | name :: other :: _ =>
    .error (.commandUnknown (if name = buildName || name = helpName then other else name))

/-- Reads all arguments. -/
def Request.read (env : Environment) : List String → Except Misuse Request
  | [] => .error .commandMissing
  | text :: rest =>
    match Word.ofText text with
    | .plain =>
      if text = buildName then do
        match ← readBuild .nothing rest with
        | none => return .help
        | some g => return .build (← g.arguments env)
      else if text = helpName then readHelp rest
      else .error (.commandUnknown text)
    | .ending =>
      match rest with
      | [] => .error .commandMissing
      | other :: _ => .error (.argumentUnexpected other)
    | .short ('V' :: _) => .ok .version
    | .short ('h' :: _) => .ok .help
    | .long "version" none => .ok .version
    | .long "help" none => .ok .help
    | .long "version" (some _) => .error (.valueUnexpected "version")
    | .long "help" (some _) => .error (.valueUnexpected "help")
    | _ => .error (.optionUnknown text)

/-! ## Invocations -/

/-- The name and version of the program. -/
def versionLine : String := "kungfu-cli 0.1.0"

/-- How to call the program. -/
def usage : List String :=
  ["Usage: kungfu build [OPTIONS] [ROOT]",
    "",
    "Applies overlays to the modules of the root configuration in ROOT (default: .).",
    "",
    "Options:",
    "      --overlay <PATH>  Overlay file or directory, relative to ROOT [default: overlays]",
    "  -o, --output <DIR>    Directory for patched modules, relative to ROOT",
    "                        [default: .terraform/kungfu/modules]",
    "      --skip-manifest   Leave .terraform/modules/modules.json untouched",
    "  -h, --help            Print help"]

/-- The wording of a misuse. -/
def Misuse.message : Misuse → String
  | .commandMissing => "a command is required"
  | .commandUnknown text => "unrecognized command '" ++ text ++ "'"
  | .optionUnknown text => "unexpected argument '" ++ text ++ "'"
  | .valueMissing option => "a value is required for '" ++ option ++ "'"
  | .valueUnexpected option => "'" ++ option ++ "' takes no value"
  | .repeated option => "'" ++ option ++ "' cannot be used several times"
  | .argumentUnexpected text => "unexpected argument '" ++ text ++ "'"

/-- How an invocation ends. -/
inductive Ending where
  | done
  | misused (misuse : Misuse)
  | failed (failure : Failure)

/-- The exit code of an invocation. -/
def Ending.exitCode : Ending → Nat
  | .done => 0
  | .failed _ => 1
  | .misused _ => 2

/-- Does what a request asks for, from the directory `here`. -/
def Request.perform (here : Path) : Request → Build.Work Unit
  | .version => Build.Work.say versionLine
  | .help => usage.forM Build.Work.say
  | .build args => Build.execute here args

/-- A whole invocation from the directory `here`. -/
def invoke (here : Path) (env : Environment) (arguments : List String) (s : Build.Session) :
    Ending × Build.Session :=
  match Request.read env arguments with
  | .error m => (.misused m, s)
  | .ok request =>
    match (request.perform here).run s with
    | (.ok _, s) => (.done, s)
    | (.error f, s) => (.failed f, s)

end HclOverlay.CommandLine
