import ScriptShell.Session

/-!
The read-eval-print loop. It writes a prompt, reads a line and prints what the session makes of
it, until the input or the session ends. A line that starts with a colon is a command to the
loop itself, unless input is pending.
-/
namespace ScriptShell

/-- How a loop is set up. -/
structure ReplConfig where
  session : SessionConfig := {}
  prompt : String := "@ "
  classpath : List String := []
  pluginPaths : List String := []
  libraries : List String := []

/-- A loop: its session, and what was written so far. -/
structure Repl where
  session : Session
  output : String := ""

/-- What a finished loop leaves. -/
structure ReplResult where
  output : String
  status : Nat
  /-- The hooks that ran. -/
  stopped : List String
  session : Session

namespace Repl

/-- Writes a text, behind what programs printed before it. -/
def write (repl : Repl) (text : String) : Repl :=
  let (printed, session) := repl.session.takeOutput
  ⟨session, repl.output ++ printed ++ text⟩

/-- Writes a message on a line of its own. -/
def writeLine (repl : Repl) (message : String) : Repl := repl.write (message ++ "\n")

/-- Adds paths to a tier, with a warning about those that do not exist. -/
def addPaths (session : Session) (tier : Tier) (paths : List String) : Session :=
  if paths.isEmpty then session
  else
    let (accepted, session) := session.addPaths tier paths
    if accepted.length = paths.length then session
    else session.warn
      (toString (paths.length - accepted.length) ++ " classpath entries do not exist")

/-- Starts the session. The flag tells whether lines can be read. -/
def boot (repl : Repl) : Bool × Repl :=
  match repl.session.start with
  | (.failure reason, session) => (false, { repl with session }.writeLine reason.message)
  | (.exit, session) => (false, { repl with session })
  | (_, session) => (true, { repl with session })

/-- Sets up class path and libraries and starts the session. -/
def setup (config : ReplConfig) (repl : Repl) : Bool × Repl :=
  let session := addPaths repl.session .runtime config.classpath
  let session := addPaths session .plugin config.pluginPaths
  if config.libraries.isEmpty then boot { repl with session }
  else
    match session.addLibraries .runtime config.libraries with
    | (.failure reason, session) => (false, { repl with session }.writeLine reason.message)
    | (_, session) => boot { repl with session }

/-- The words of a line. -/
def words (word : List Char) : List Char → List String
  | [] => if word.isEmpty then [] else [String.ofList word.reverse]
  | c :: rest =>
    if !Ascii.isSpace c then words (c :: word) rest
    else if word.isEmpty then words [] rest
    else String.ofList word.reverse :: words [] rest

/-- The command that adds libraries. -/
def load (repl : Repl) (coordinates : List String) : Repl :=
  if coordinates.isEmpty then repl.writeLine ":load needs at least one coordinate"
  else
    match repl.session.addLibraries .runtime coordinates with
    | (.success paths, session) =>
      { repl with session }.write (joinWith "" (paths.map ("added " ++ · ++ "\n")))
    | (.failure reason, session) => { repl with session }.writeLine reason.message
    | (_, session) => { repl with session }

/-- The command that sets the mode. -/
def setMode (repl : Repl) (args : List String) : Repl :=
  match args with
  | [mode] =>
    if mode = "on" || mode = "off" then
      let (outcome, session) := repl.session.setShared (mode = "on")
      let repl := { repl with session }
      match outcome with
      | .failure reason => repl.writeLine reason.message
      | .success true =>
        repl.writeLine ("shared compile/execute mode " ++ mode ++ " (session reset)")
      | _ => repl.writeLine ("shared compile/execute mode " ++ mode)
    else repl.writeLine "usage: :shared on|off"
  | _ => repl.writeLine "usage: :shared on|off"

/-- The command that lists wrappers or shows the unit of one. -/
def showSources (repl : Repl) (args : List String) : Repl :=
  match args with
  | [] => repl.write (joinWith "" (repl.session.sources.map (·.1 ++ "\n")))
  | name :: _ =>
    match repl.session.sources.lookup (Fragment.sanitize name) with
    | some source => repl.write source
    | none => repl.writeLine ("no sources for " ++ name)

/-- Carries out a command, given without its colon. -/
def command (repl : Repl) (line : List Char) : Repl :=
  match words [] line with
  | [] => repl.writeLine "empty command"
  | "load" :: args => repl.load args
  | "shared" :: args => repl.setMode args
  | "sources" :: args => repl.showSources args
  | name :: _ => repl.writeLine ("unknown command :" ++ name)

/-- Prints what became of a fragment. The flag tells whether the loop goes on. -/
def report (repl : Repl) : Outcome String → Bool × Repl
  | .success value => (true, if value.isEmpty then repl.write "" else repl.writeLine value)
  | .failure reason => (true, repl.writeLine reason.message)
  | .exit => (false, repl.writeLine "Bye!")
  | .skip | .buffer _ => (true, repl.write "")

/-- Takes in a line. The flag tells whether the loop goes on. -/
def takeLine (repl : Repl) (line : List Char) : Bool × Repl :=
  match repl.session.pending, line with
  | none, ':' :: rest => (true, repl.command rest)
  | none, _ =>
    let (outcome, session) := repl.session.process (String.ofList line)
    { repl with session }.report outcome
  | some _, _ =>
    let (outcome, session) := repl.session.process ("\n" ++ String.ofList line)
    { repl with session }.report outcome

/-- The prompt: blanks of the same width while input is pending. -/
def promptText (repl : Repl) (prompt : String) : String :=
  if repl.session.pending.isSome then String.ofList (List.replicate prompt.length ' ') else prompt

/-- Reads lines until they or the session end. -/
def loop (prompt : String) (repl : Repl) : List (List Char) → Repl
  | [] => (repl.write (repl.promptText prompt)).write "\nBye!\n"
  | line :: rest =>
    match (repl.write (repl.promptText prompt)).takeLine line with
    | (true, repl) => loop prompt repl rest
    | (false, repl) => repl

/-- The lines of an input. What stands behind the last newline is a line unless it is empty. -/
def lines (input : String) : List (List Char) :=
  let parts := Files.splitAt '\n' input.toList
  if parts.getLast? = some [] then parts.dropLast else parts

/-- Ends a loop. -/
def finish (repl : Repl) (status : Nat) : ReplResult :=
  let repl := repl.write ""
  let (stopped, session) := repl.session.stop
  ⟨repl.output, status, stopped, session⟩

/-- Runs a loop on a session that has not started, with the whole input given. -/
def run (config : ReplConfig) (session : Session) (input : String) : ReplResult :=
  match setup config ⟨session, ""⟩ with
  | (false, repl) => repl.finish 1
  | (true, repl) => (loop config.prompt repl (lines input)).finish 0

end Repl

end ScriptShell
