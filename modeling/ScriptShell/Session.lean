import ScriptShell.Completion
import ScriptShell.Fragment
import ScriptShell.Wrapper
import ScriptShell.History
import ScriptShell.Library

/-!
Sessions. A session reads fragments, wraps each one into a unit, compiles it, loads its
artifacts, calls its entry point, and records what it hands on to later fragments. The line
number and the history grow with every fragment that gets as far as wrapping; what is handed on
is recorded only if the fragment ran to its end. What the backend and the loader of code make of
a fragment is not decided here: a step that depends on it is told, and takes for granted that
nothing goes wrong if it is told nothing.
-/
namespace ScriptShell

/-- The fragment that every session runs first. -/
def defaultBootstrap : String :=
  "extern def kiln_rt_exit(): Unit\n" ++
  "extern def kiln_rt_fail(message: Str): Unit\n" ++
  "extern def kiln_rt_println(text: Str): Unit\n" ++
  "extern def kiln_rt_int_to_str(value: Int): Str\n" ++
  "def exit(): Unit = kiln_rt_exit()\n" ++
  "def fail(message: Str): Unit = kiln_rt_fail(message)\n" ++
  "def println(text: Str): Unit = kiln_rt_println(text)\n" ++
  "implicit def intToStr(value: Int): Str = kiln_rt_int_to_str(value)\n"

/-- How a session is set up. -/
structure SessionConfig where
  wrap : WrapMode := .object
  shared : Bool := false
  plugins : Bool := true
  bootstrap : String := defaultBootstrap
  /-- Run after the bootstrap, empty for nothing. -/
  predef : String := ""
  /-- Empty for no file. -/
  historyFile : String := ""
  libraryDirs : List String := []
  /-- A printed line that requests an interrupt. -/
  watched : Option String := none
  toolchain : Toolchain := {}

/-- What becomes of a fragment outside of the session. -/
structure Outside where
  /-- What the backend makes of its code. -/
  emission : Emission := .made
  /-- Why no code at all can be loaded, as long as none was. -/
  unready : Option String := none
  /-- What the loading of each artifact comes to, with the reason if it is not taken. -/
  loading : String → Registry.LoadVerdict × String := fun _ => (.taken, "")

/-- The state of a session. -/
structure Session where
  config : SessionConfig
  compiler : Compiler
  ledger : Ledger := {}
  /-- How many fragments got as far as wrapping. -/
  line : Nat := 0
  history : List String := []
  /-- The units of the wrappers that ran, by increasing name. -/
  sources : List (String × String) := []
  /-- Wrappers that were compiled and did not run to their end, by increasing name. -/
  unfinished : List String := []
  /-- Input that is incomplete so far. -/
  pending : Option String := none
  /-- What is to be run when the session stops, first one first. -/
  hooks : List String := []
  /-- Warnings not handed out yet. -/
  warnings : String := ""

namespace Session

/-- A new session over some files. -/
def new (config : SessionConfig) (files : Files) : Session :=
  let (_, registry) := ({ toolchain := config.toolchain } : Registry).setShared config.shared
  let machine : Machine := { context := { sink := .keep config.watched } }
  { config
    compiler := { bench := { files, registry := registry.setPlugins config.plugins, machine } }
    history :=
      if config.historyFile.isEmpty then [] else History.load files config.historyFile }

/-- The files that the session sees. -/
def files (session : Session) : Files := session.compiler.bench.files

/-- The registry of the session. -/
def registry (session : Session) : Registry := session.compiler.bench.registry

/-- Changes the workbench. -/
def modifyBench (session : Session) (f : Workbench → Workbench) : Session :=
  { session with compiler := { session.compiler with bench := f session.compiler.bench } }

/-- Changes the registry. -/
def setRegistry (session : Session) (registry : Registry) : Session :=
  session.modifyBench ({ · with registry })

/-- Changes the machine. -/
def modifyMachine (session : Session) (f : Machine → Machine) : Session :=
  session.modifyBench fun bench => { bench with machine := f bench.machine }

/-- Puts the warnings of the registry behind those of the session. -/
def settle (session : Session) : Session :=
  let (text, registry) := session.registry.takeWarnings
  { session.setRegistry registry with warnings := session.warnings ++ text }

/-- Adds a warning. -/
def warn (session : Session) (message : String) : Session :=
  let session := session.settle
  { session with warnings := session.warnings ++ "warning: " ++ message ++ "\n" }

/-- Hands out the warnings. -/
def takeWarnings (session : Session) : String × Session :=
  let session := session.settle
  (session.warnings, { session with warnings := "" })

/-- Hands out what programs printed. -/
def takeOutput (session : Session) : String × Session :=
  let (text, machine) := session.compiler.bench.machine.takeOutput
  (text, session.modifyMachine fun _ => machine)

/-- Requests an interrupt. -/
def interrupt (session : Session) : Session :=
  session.modifyMachine ({ · with interrupt := true })

/-- Counts a fragment and puts it into the history. -/
def advance (session : Session) (text : String) : Session :=
  let session :=
    { session with line := session.line + 1, history := session.history ++ [text] }
  if session.config.historyFile.isEmpty then session
  else
    match History.append session.files session.config.historyFile text with
    | .ok files => session.modifyBench ({ · with files })
    | .error error => session.warn (History.openFailure session.config.historyFile error)

/-- An entry as it is recorded: with the full path of what it stands for. -/
def recorded (userPath : String) (entry : ImportEntry) : ImportEntry :=
  if entry.path.isEmpty then { entry with path := userPath, relative := false }
  else if entry.relative then
    { entry with path := userPath ++ "." ++ entry.path, relative := false }
  else { entry with relative := false }

/-- Why no code can be loaded. -/
def unready? (session : Session) (outside : Outside) : Option String :=
  if session.registry.begun then none else outside.unready

/-- Loads an artifact. The reason is given if that fails. -/
def loadArtifact (session : Session) (artifact : Artifact) (outside : Outside) :
    Option String × Session :=
  match session.unready? outside with
  | some reason => (some reason, session)
  | none =>
    let (verdict, reason) := outside.loading artifact.name
    let (added, registry) := session.registry.tryArtifact session.files artifact verdict
    (if added then none else some reason, session.setRegistry registry)

/-- Loads the artifacts of a unit, up to the first that cannot be loaded. -/
def loadArtifacts (session : Session) (artifacts : List Artifact) (outside : Outside := {}) :
    Option String × Session :=
  match artifacts with
  | [] => (none, session)
  | artifact :: rest =>
    match session.loadArtifact artifact outside with
    | (some reason, session) => (some (artifact.name ++ ": " ++ reason), session)
    | (none, session) => session.loadArtifacts rest outside

/-- The failure of code that could not be loaded. -/
def loadFailure (reason : String) : Outcome String :=
  .fail ("Failed to load compiled class " ++ reason)

/-- What a refusal of the compiler comes to. -/
def refused : Refusal → Outcome String
  | .diagnosed diagnostic => .fail ("Compilation Failed\n" ++ Diagnostic.renderAll [diagnostic])
  | .raised what => .unexpected what

/-- Calls the entry point of a wrapper. A pending interrupt is dropped first. -/
def callWrapper (session : Session) (name : String) : Outcome String × Session :=
  let (loader, registry) := session.registry.currentLoader session.files .runtime
  let (found, registry) := registry.resolve loader (name ++ "$Main")
  let session := session.setRegistry registry
  match found with
  | .error reason => (loadFailure reason, session)
  | .ok entry =>
    let machine := { session.compiler.bench.machine with interrupt := false }
    let (reply, after) := registry.invoke entry (some machine)
    let session := session.modifyMachine fun _ => after.getD machine
    match reply.fault with
    | some fault => (fault.classify, session)
    | none => (.success reply.value, session)

/-- Records what a wrapper hands on. -/
def record (session : Session) (unit : WrappedUnit) (exports : List ImportEntry) : Session :=
  { session with
    ledger := session.ledger.update ((exports.drop unit.carried).map (recorded unit.userPath))
    sources := bindName unit.name unit.source session.sources
    unfinished := dropName unit.name session.unfinished }

/-- Loads a compiled unit and calls its entry point. -/
def execute (session : Session) (name : String) (artifacts : List Artifact)
    (outside : Outside := {}) : Outcome String × Session :=
  match session.loadArtifacts artifacts outside with
  | (some reason, session) => (loadFailure reason, session)
  | (none, session) =>
    match session.unready? outside with
    | some reason => (loadFailure (name ++ "$Main: " ++ reason), session)
    | none => session.callWrapper name

/-- Wraps declarations under a name, compiles and runs them. -/
def evaluate (session : Session) (decls : List Decl) (candidate : String)
    (outside : Outside := {}) : Outcome String × Session :=
  let preamble := session.ledger.blockFor (decls.flatMap (·.references))
  let unit := Wrapper.wrap session.config.wrap decls preamble candidate
  let (compiled, compiler) := session.compiler.compileWith unit.source outside.emission
  let session := { session with compiler }
  match compiled with
  | .error refusal => (refused refusal, session)
  | .ok compiled =>
    let session := { session with unfinished := insertName unit.name session.unfinished }
    match session.execute unit.name compiled.artifacts outside with
    | (.success value, session) => (.success value, session.record unit compiled.exports)
    | (other, session) => (other, session)

/-- The number of a wrapper in the names of its results. -/
def lineId (wrapper : String) : String :=
  match wrapper.toList with
  | 'c' :: 'm' :: 'd' :: c :: rest => String.ofList (c :: rest)
  | _ => wrapper

/-- Runs code under a fixed name, without counting it or keeping what it prints. -/
def run (session : Session) (code wrapper : String) (outside : Outside := {}) :
    Outcome Bool × Session :=
  match Fragment.parse code (lineId wrapper) with
  | .blank => (.success true, session)
  | .incomplete _ => (.fail ("incomplete input in " ++ wrapper), session)
  | .malformed error => (.fail (wrapper ++ ": " ++ error.message), session)
  | .declarations decls =>
    let setSink (sink : Sink) (machine : Machine) : Machine :=
      { machine with context := { machine.context with sink } }
    let (outcome, session) := (session.modifyMachine (setSink .discard)).evaluate decls wrapper outside
    (outcome.map fun _ => true, session.modifyMachine (setSink (.keep session.config.watched)))

/-- Runs the bootstrap and the predefined code. -/
def start (session : Session) (outside : String → Outside := fun _ => {}) :
    Outcome Bool × Session :=
  match session.run session.config.bootstrap "cmd-1" (outside "cmd-1") with
  | (.success value, session) =>
    if session.config.predef.isEmpty then (.success value, session)
    else session.run session.config.predef "predef" (outside "predef")
  | (other, session) => (other, session)

/-- Takes in a text: input that was incomplete so far is put in front of it. -/
def process (session : Session) (text : String) (outside : Outside := {}) :
    Outcome String × Session :=
  let source := session.pending.getD "" ++ text
  let session := { session with pending := none }
  match Fragment.parse source (toString session.line) with
  | .incomplete text => (.buffer text, { session with pending := some text })
  | .blank => (.skip, session)
  | .malformed error => (.fail error.message, session)
  | .declarations decls =>
    (session.advance source).evaluate decls ("cmd" ++ toString session.line) outside

/-- The declarations of a code. -/
def declarations (session : Session) (code : String) : Outcome (List Decl) :=
  match Fragment.parse code (toString session.line) with
  | .declarations decls => .success decls
  | .blank => .success []
  | .incomplete _ => .fail "incomplete input"
  | .malformed error => .fail error.message

/-- Completes the word that ends at the cursor. Wrappers that did not run to their end are not
offered. -/
def complete (session : Session) (cursor : Nat) (text : String) : Completion :=
  let completion := session.compiler.complete cursor session.ledger.block text
  { completion with
    candidates := completion.candidates.filter (!session.unfinished.contains ·) }

/-- Sets the mode of the registry. If a loader in use was replaced, the session starts anew; the
line number, the history and the pending input stay. -/
def setShared (session : Session) (enabled : Bool) (outside : String → Outside := fun _ => {}) :
    Outcome Bool × Session :=
  match session.registry.setShared enabled with
  | (false, registry) => (.success false, session.setRegistry registry)
  | (true, registry) =>
    let session := session.setRegistry registry
    let (outcome, session) := { session with
      ledger := {}, sources := [], unfinished := []
      compiler := session.compiler.reset }.start outside
    (outcome.map fun _ => true, session)

/-- Adds existing paths to a tier. -/
def addPaths (session : Session) (tier : Tier) (paths : List String) : List String × Session :=
  let (accepted, registry) := session.registry.addPaths session.files tier paths
  (accepted, session.setRegistry registry)

/-- Adds the libraries of coordinates to a tier. -/
def addLibraries (session : Session) (tier : Tier) (coordinates : List String) :
    Outcome (List String) × Session :=
  match Library.resolve session.files session.config.libraryDirs coordinates with
  | .error missing => (.fail (Library.unresolved missing), session)
  | .ok paths =>
    let (accepted, session) := session.addPaths tier paths
    (.success accepted, session)

/-- Adds a hook. -/
def onStop (session : Session) (hook : String) : Session :=
  { session with hooks := session.hooks ++ [hook] }

/-- Stops the session: the hooks run, each once. -/
def stop (session : Session) : List String × Session :=
  (session.hooks, { session with hooks := [] })

end Session

end ScriptShell
