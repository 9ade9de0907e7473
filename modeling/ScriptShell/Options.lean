import ScriptShell.Repl

/-!
Command line options of the shell. An option is written with one or two dashes; its value
follows behind `=` or as the next argument, and the value of `-L` may follow directly. Options
for paths and libraries can be repeated, the others stand at most once.
-/
namespace ScriptShell

/-- The options that take a value. -/
inductive ValueOption where
  | predef
  | wrap
  | historyFile
  | classpath
  | plugin
  | library
  | libraryDirectory
  | prompt
deriving Repr, DecidableEq

/-- The options that are set or not. -/
inductive FlagOption where
  | sharedLoader
  | noPlugins
deriving Repr, DecidableEq

/-- An option as it was given. -/
inductive Setting where
  | given (option : ValueOption) (text : String)
  | switched (option : FlagOption) (enabled : Bool)
deriving Repr, DecidableEq

/-- Why a command line was refused. -/
inductive OptionError where
  /-- No option is written like this. -/
  | unknown (argument : String)
  | missingValue (name : String)
  | badFlag (name text : String)
  | repeated (name : String)
  | unknownWrap (mode : String)
deriving Repr, DecidableEq

namespace ValueOption

/-- The name of an option. -/
def name : ValueOption → String
  | .predef => "predef"
  | .wrap => "wrap"
  | .historyFile => "hist-file"
  | .classpath => "cp"
  | .plugin => "plugin"
  | .library => "lib"
  | .libraryDirectory => "L"
  | .prompt => "prompt"

/-- All options with a value. -/
def all : List ValueOption :=
  [.predef, .wrap, .historyFile, .classpath, .plugin, .library, .libraryDirectory, .prompt]

/-- The option of a name. -/
def ofName? (name : String) : Option ValueOption := all.find? (·.name = name)

theorem ofName?_name (option : ValueOption) : ofName? option.name = some option := by
  cases option <;> decide +kernel

/-- The option can be given more than once. -/
def isRepeatable : ValueOption → Bool
  | .classpath | .plugin | .library | .libraryDirectory => true
  | _ => false

end ValueOption

namespace FlagOption

/-- The name of a flag. -/
def name : FlagOption → String
  | .sharedLoader => "shared-loader"
  | .noPlugins => "no-plugins"

/-- The flag of a name. -/
def ofName? (name : String) : Option FlagOption := [sharedLoader, noPlugins].find? (·.name = name)

theorem ofName?_name (option : FlagOption) : ofName? option.name = some option := by
  cases option <;> decide +kernel

end FlagOption

namespace OptionError

/-- The wording of an option error. -/
def message : OptionError → String
  | .unknown argument => "Unknown command line argument '" ++ argument ++ "'"
  | .missingValue name => "for the --" ++ name ++ " option: requires a value!"
  | .badFlag name text =>
    "for the --" ++ name ++ " option: '" ++ text ++
      "' is invalid value for boolean argument! Try 0 or 1"
  | .repeated name => "for the --" ++ name ++ " option: may only occur zero or one times!"
  | .unknownWrap mode => "error: unknown wrap mode '" ++ mode ++ "', expected object or class"

/-- The exit status that goes with an option error. -/
def status : OptionError → Nat
  | .unknownWrap _ => 255
  | _ => 1

end OptionError

namespace Setting

/-- The option that was set, if it can be set only once. -/
def once? : Setting → Option String
  | .given option _ => if option.isRepeatable then none else some option.name
  | .switched option _ => some option.name

/-- Reads the value of a flag. -/
def ofFlag (option : FlagOption) : Option String → Except OptionError Setting
  | none => .ok (.switched option true)
  | some text =>
    if ["", "true", "TRUE", "True", "1"].contains text then .ok (.switched option true)
    else if ["false", "FALSE", "False", "0"].contains text then .ok (.switched option false)
    else .error (.badFlag option.name text)

/-- The characters of an argument behind its dashes. -/
def body? (argument : String) : Option (List Char) :=
  match argument.toList with
  | '-' :: '-' :: c :: rest => some (c :: rest)
  | '-' :: c :: rest => if c = '-' then none else some (c :: rest)
  | _ => none

/-- The name in front of the first `=`, and the value behind it. -/
def nameAndValue (body : List Char) : String × Option String :=
  let name := String.ofList (body.takeWhile (· ≠ '='))
  match body.dropWhile (· ≠ '=') with
  | [] => (name, none)
  | _ :: value => (name, some (String.ofList value))

/-- The first setting of a command line, and the arguments behind it. -/
def read (argument : String) (rest : List String) :
    Except OptionError (Setting × { tail : List String // tail.length ≤ rest.length }) :=
  match body? argument with
  | none => .error (.unknown argument)
  | some body =>
    match nameAndValue body with
    | (name, value) =>
      match ValueOption.ofName? name, FlagOption.ofName? name, value, rest with
      | some option, _, some text, rest => .ok (.given option text, ⟨rest, Nat.le_refl _⟩)
      | some option, _, none, [] => .error (.missingValue option.name)
      | some option, _, none, text :: tail => .ok (.given option text, ⟨tail, Nat.le_succ _⟩)
      | none, some option, value, rest =>
        (ofFlag option value).map fun setting => (setting, ⟨rest, Nat.le_refl _⟩)
      | none, none, _, rest =>
        match body with
        | 'L' :: directory =>
          .ok (.given .libraryDirectory (String.ofList directory), ⟨rest, Nat.le_refl _⟩)
        | _ => .error (.unknown argument)

/-- The settings of a command line. -/
def readAll : List String → Except OptionError (List Setting)
  | [] => .ok []
  | argument :: rest =>
    match read argument rest with
    | .error error => .error error
    | .ok (setting, ⟨tail, shorter⟩) =>
      have : tail.length < (argument :: rest).length := Nat.lt_succ_of_le shorter
      (readAll tail).map (setting :: ·)
termination_by arguments => arguments.length
decreasing_by exact this

/-- The first name that is set again although it can be set only once. -/
def again? : List Setting → Option String
  | [] => none
  | setting :: rest =>
    match setting.once? with
    | some name => if rest.any (·.once? = some name) then some name else again? rest
    | none => again? rest

/-- Carries out a setting. -/
def apply (config : ReplConfig) : Setting → Except OptionError ReplConfig
  | .given .predef text => .ok { config with session := { config.session with predef := text } }
  | .given .wrap text =>
    if text = "object" then .ok { config with session := { config.session with wrap := .object } }
    else if text = "class" then
      .ok { config with session := { config.session with wrap := .boxed } }
    else .error (.unknownWrap text)
  | .given .historyFile text =>
    .ok { config with session := { config.session with historyFile := text } }
  | .given .classpath text => .ok { config with classpath := config.classpath ++ [text] }
  | .given .plugin text => .ok { config with pluginPaths := config.pluginPaths ++ [text] }
  | .given .library text => .ok { config with libraries := config.libraries ++ [text] }
  | .given .libraryDirectory text =>
    .ok { config with session :=
      { config.session with libraryDirs := config.session.libraryDirs ++ [text] } }
  | .given .prompt text => .ok { config with prompt := text }
  | .switched .sharedLoader enabled =>
    .ok { config with session := { config.session with shared := enabled } }
  | .switched .noPlugins enabled =>
    .ok { config with session := { config.session with plugins := !enabled } }

end Setting

namespace ReplConfig

/-- The set-up that a command line asks for. -/
def ofArguments (arguments : List String) : Except OptionError ReplConfig :=
  match Setting.readAll arguments with
  | .error error => .error error
  | .ok settings =>
    match Setting.again? settings with
    | some name => .error (.repeated name)
    | none => settings.foldlM Setting.apply {}

/-- The library files that a loop with this set-up may read at its start. -/
def initialFiles (config : ReplConfig) : List String :=
  config.classpath ++ config.pluginPaths ++
    config.libraries.flatMap (Library.places config.session.libraryDirs)

/-- The library files that a line may make the loop read. -/
def filesOfLine (config : ReplConfig) (line : List Char) : List String :=
  match line with
  | ':' :: rest =>
    match Repl.words [] rest with
    | "load" :: coordinates =>
      coordinates.flatMap (Library.places config.session.libraryDirs)
    | _ => []
  | _ => []

end ReplConfig

end ScriptShell
