import ScriptShell.Options

/-!
The command line program: a loop over standard input. Library files and the history file are
read when they are first named; the history file is written back after every line that made it
grow. Warnings go to standard error.
-/
namespace ScriptShell

/-- The text whose characters stand for the given bytes. -/
def textOfBytes (bytes : ByteArray) : String :=
  String.ofList (bytes.toList.map fun byte => Char.ofNat byte.toNat)

/-- The bytes that the characters of a text stand for. -/
def bytesOfText (text : String) : ByteArray :=
  ⟨(text.toList.map fun c => c.toNat.toUInt8).toArray⟩

/-- The text with the bytes of an argument. -/
def textOfArgument (argument : String) : String := textOfBytes argument.toUTF8

namespace Program

/-- The argument with the bytes of a text, for a path to be opened. -/
def argumentOfText (text : String) : String :=
  let text := Ascii.untilNul text
  (String.fromUTF8? (bytesOfText text)).getD text

/-- Adds those of the named files that can be read. -/
def readFiles (files : Files) (paths : List String) : IO Files :=
  paths.foldlM (fun files path => do
    if files.isFile path then return files
    try
      let bytes ← IO.FS.readBinFile (argumentOfText path)
      return files.put (Files.placeOf path) (textOfBytes bytes)
    catch _ => return files) files

/-- Reads the history file, which is made if it can be. -/
def readHistory (files : Files) (path : String) : IO Files := do
  if path.isEmpty then return files
  try
    let _ ← IO.FS.Handle.mk (argumentOfText path) .append
    readFiles files [path]
  catch _ => return files

/-- Writes what a loop has written and warned about so far, and forgets it. -/
def flush (repl : Repl) : IO Repl := do
  let repl := repl.write ""
  let (warnings, session) := repl.session.takeWarnings
  (← IO.getStdout).write (bytesOfText repl.output)
  (← IO.getStdout).flush
  (← IO.getStderr).write (bytesOfText warnings)
  return ⟨session, ""⟩

/-- Writes the history file if its content is another one than before. -/
def saveHistory (before after : Session) : IO Unit := do
  let path := after.config.historyFile
  let content := after.files.read? path
  if content ≠ before.files.read? path then
    if let some text := content then
      IO.FS.writeBinFile (argumentOfText path) (bytesOfText text)

/-- The next line of a stream, without its end, or `none` at the end of the input. -/
partial def readLine? (input : IO.FS.Stream) (line : List UInt8) : IO (Option (List Char)) := do
  let bytes ← input.read 1
  let finished := line.reverse.map fun byte => Char.ofNat byte.toNat
  match bytes.toList with
  | [] => return if line.isEmpty then none else some finished
  | byte :: _ => if byte = 10 then return some finished else readLine? input (byte :: line)

/-- Reads lines until they or the session end. -/
partial def loop (config : ReplConfig) (repl : Repl) : IO Repl := do
  let repl ← flush (repl.write (repl.promptText config.prompt))
  match ← readLine? (← IO.getStdin) [] with
  | none => flush (repl.write "\nBye!\n")
  | some line =>
    let files ← readFiles repl.session.files (config.filesOfLine line)
    let session := repl.session.modifyBench ({ · with files })
    let (running, after) := ({ repl with session } : Repl).takeLine line
    saveHistory session after.session
    let after ← flush after
    if running then loop config after else return after

/-- Runs a loop over standard input. -/
def run (config : ReplConfig) : IO UInt32 := do
  let files ← readFiles {} config.initialFiles
  let files ← readHistory files config.session.historyFile
  let (started, repl) := Repl.setup config ⟨Session.new config.session files, ""⟩
  let repl ← flush repl
  let repl ← if started then loop config repl else pure repl
  let _ ← flush ⟨(repl.finish 0).session, ""⟩
  return if started then 0 else 1

end Program

end ScriptShell

/-- Runs the shell with the options given. -/
def main (arguments : List String) : IO UInt32 := do
  match ScriptShell.ReplConfig.ofArguments (arguments.map ScriptShell.textOfArgument) with
  | .ok config => ScriptShell.Program.run config
  | .error error =>
    IO.eprintln error.message
    return error.status.toUInt32
