import ScriptShell.Token.Lexer
import ScriptShell.Syntax.Parser.Unit
import ScriptShell.Typing.Unit
import ScriptShell.Export
import ScriptShell.Code.Lowering
import ScriptShell.Code.Names
import ScriptShell.Registry.Linking
import ScriptShell.Diagnostic

/-!
The compiler. A source is tokenized, parsed, checked against the symbols of earlier units, and
lowered to artifacts; its symbols are taken over only if all of that succeeds. Initialisers of
inline values are run during the check, in a context of their own whose output is lost. The
backend may still turn the lowered code down, or raise an exception over it.
-/
namespace ScriptShell

/-- What the compiler works with: files, loaded code, and the machine that runs it. -/
structure Workbench where
  files : Files := {}
  registry : Registry := {}
  machine : Machine := {}
  /-- How many initialisers were run so far. -/
  probes : Nat := 0
  /-- The context in which they run. -/
  aside : Context := { sink := .discard }

namespace Workbench

/-- Runs the initialiser of an inline value. -/
def evaluateInline (symbols : Symbols) (init : TypedExpr) (bench : Workbench) :
    Except String Int64 × Workbench :=
  let (loader, registry) := bench.registry.currentLoader bench.files .compiler
  let symbol := "$inline$" ++ toString bench.probes
  let bench := { bench with registry, probes := bench.probes + 1 }
  match Lowering.lowerExpr { symbols } init with
  | .error error => (.error error.cause.message, bench)
  | .ok code =>
    let ((value, registry), aside, machine) := bench.machine.inContext bench.aside fun machine =>
      match bench.registry.evaluate loader machine symbol code with
      | (value, machine, registry) => ((value, registry), machine)
    (value, { bench with registry, aside, machine })

/-- Programs can see a foreign function. -/
def foreignVisible (symbol : String) (bench : Workbench) : Bool × Workbench :=
  let (loader, registry) := bench.registry.currentLoader bench.files .runtime
  let (found, registry) := registry.isVisible loader symbol
  (found, { bench with registry })

/-- What the check of a unit asks the workbench. -/
def services : Services Workbench where
  evaluate := some evaluateInline
  visible := some foreignVisible

end Workbench

/-- A compiled unit. -/
structure CompiledUnit where
  artifacts : List Artifact
  exports : List ImportEntry

/-- What the backend makes of the code of a unit. -/
inductive Emission where
  /-- It has nothing against it but what follows from the names of functions. -/
  | made
  /-- The code of an artifact did not pass the verifier. -/
  | invalid (artifact problems : String)
  /-- An exception ended the generation of code. -/
  | raised (what : String)
deriving Repr, DecidableEq

/-- Why a source is not compiled. -/
inductive Refusal where
  | diagnosed (diagnostic : Diagnostic)
  /-- An exception of the backend, which the compiler lets pass. -/
  | raised (what : String)
deriving Repr, DecidableEq

/-- What a refusal says. An exception says nothing about a place in the source. -/
def Refusal.diagnostic : Refusal → Diagnostic
  | .diagnosed diagnostic => diagnostic
  | .raised what => .make "" 0 0 what

/-- A compiler with the symbols of its finished units. -/
structure Compiler where
  table : SymbolTable := {}
  bench : Workbench := {}

namespace Compiler

/-- Forgets all units. -/
def reset (compiler : Compiler) : Compiler := { compiler with table := {} }

/-- A checked unit with its code. -/
def finish (source : String) (checked : Typing.CheckedUnit) : Except Diagnostic CompiledUnit :=
  match Lowering.lowerProgram checked.symbols checked.program with
  | .error error => .error (.make source error.line error.column error.cause.message)
  | .ok artifacts => .ok ⟨artifacts, checked.program.exports⟩

/-- A source as a syntax tree. -/
def readSource (source : String) : Except Diagnostic Program :=
  match tokenize source with
  | .error error => .error (.make source error.line error.column error.cause.message)
  | .ok tokens =>
    match parseProgram tokens with
    | .error error => .error (.make source error.line error.column error.cause.message)
    | .ok program => .ok program

/-- The refusal of an artifact by the verifier. -/
def invalid (source artifact problems : String) : Refusal :=
  .diagnosed (.make source 0 0 ("invalid code generated for " ++ artifact ++ ": " ++ problems))

/-- A unit whose functions are called as they are declared. A function whose declaration lacks a parameter
ends the generation of code where it reads that; the verifier then looks at the calls. -/
def verify (source : String) (unit : CompiledUnit) : Except Refusal CompiledUnit :=
  match unit.artifacts.findSome? Artifact.unbound?, unit.artifacts.find? (!·.fits) with
  | some id, _ => .error (.raised (LowerCause.unboundLocal id).message)
  | none, some artifact =>
    .error (invalid source artifact.name "Incorrect number of arguments passed to called function!")
  | none, none => .ok unit

/-- The code of a checked unit, as far as the backend takes it. -/
def generate (source : String) (emission : Emission) (checked : Typing.CheckedUnit) :
    Except Refusal CompiledUnit :=
  match emission, finish source checked with
  | .raised what, _ => .error (.raised what)
  | _, .error diagnostic => .error (.diagnosed diagnostic)
  | .invalid artifact problems, .ok _ => .error (invalid source artifact problems)
  | .made, .ok unit => verify source unit

/-- Compiles a source whose code the backend may turn down. -/
def compileWith (compiler : Compiler) (source : String) (emission : Emission) :
    Except Refusal CompiledUnit × Compiler :=
  match readSource source with
  | .error diagnostic => (.error (.diagnosed diagnostic), compiler)
  | .ok program =>
    let (checked, symbols, bench) :=
      typecheckInPlace Workbench.services compiler.table compiler.bench program
    let refused : Compiler := { table := compiler.table.leave symbols, bench }
    match checked with
    | .error error =>
      (.error (.diagnosed (.make source error.line error.column error.cause.message)), refused)
    | .ok checked =>
      match generate source emission checked with
      | .error refusal => (.error refusal, refused)
      | .ok unit =>
        (.ok unit,
          { table := compiler.table.commit checked.symbols checked.containers, bench })

/-- Compiles a source whose code the backend takes. -/
def compile (compiler : Compiler) (source : String) :
    Except Diagnostic CompiledUnit × Compiler :=
  let (compiled, compiler) := compiler.compileWith source .made
  (compiled.mapError Refusal.diagnostic, compiler)

end Compiler

end ScriptShell
