import ScriptShell.Text.Ascii
import ScriptShell.Text.Sorted
import ScriptShell.Token
import ScriptShell.Token.Lexer
import ScriptShell.Syntax
import ScriptShell.Syntax.Cursor
import ScriptShell.Syntax.Parser.Expression
import ScriptShell.Syntax.Parser.Import
import ScriptShell.Syntax.Parser.Unit
import ScriptShell.Fragment
import ScriptShell.Outcome
import ScriptShell.Fault
import ScriptShell.Ledger
import ScriptShell.Wrapper
import ScriptShell.Diagnostic
import ScriptShell.Files
import ScriptShell.History
import ScriptShell.Library
import ScriptShell.Interrupt
import ScriptShell.Symbol
import ScriptShell.Typed
import ScriptShell.Typing.Error
import ScriptShell.Typing.Scope
import ScriptShell.Typing.Path
import ScriptShell.Typing.Conversion
import ScriptShell.Typing.Expression
import ScriptShell.Typing.Declare
import ScriptShell.Typing.Unit
import ScriptShell.Export
import ScriptShell.Machine
import ScriptShell.Machine.Address
import ScriptShell.Machine.Primitive
import ScriptShell.Machine.Straight
import ScriptShell.Toolchain
import ScriptShell.Code
import ScriptShell.Code.Lowering
import ScriptShell.Machine.Evaluation
import ScriptShell.Classpath
import ScriptShell.Registry
import ScriptShell.Registry.Linking
import ScriptShell.Compiler
import ScriptShell.Completion
import ScriptShell.Session
import ScriptShell.Repl
import ScriptShell.Options
import ScriptShell.Main
import ScriptShell.Proofs.Typing.Success
import ScriptShell.Proofs.Typing.Shape
import ScriptShell.Proofs.Typing.Judgement
import ScriptShell.Proofs.Typing.Growth
import ScriptShell.Proofs.Typing.Declarations
import ScriptShell.Proofs.Typing.Paths
import ScriptShell.Proofs.Typing.Expressions
import ScriptShell.Proofs.Typing.Members
import ScriptShell.Proofs.Typing.Units
import ScriptShell.Proofs.Lowering.Receivers
import ScriptShell.Proofs.Lowering.Success
import ScriptShell.Proofs.Lowering.Units
import ScriptShell.Proofs.Lowering.Slots
import ScriptShell.Proofs.Soundness.Code
import ScriptShell.Proofs.Soundness.Lowering
import ScriptShell.Proofs.Soundness.Values
import ScriptShell.Proofs.Soundness.Evaluation
import ScriptShell.Proofs.Soundness.Calls
import ScriptShell.Proofs.Soundness.Loading
import ScriptShell.Proofs.Soundness.Units
import ScriptShell.Proofs.Typing.Host
import ScriptShell.Proofs.Registry.Code
import ScriptShell.Proofs.Registry.Closure
import ScriptShell.Proofs.Registry.Operations
import ScriptShell.Proofs.Registry.Visibility
import ScriptShell.Proofs.Registry.Generations
import ScriptShell.Proofs.Session.Frame
import ScriptShell.Proofs.Running.Steps
import ScriptShell.Proofs.Running.Traps
import ScriptShell.Proofs.Running.Frames
import ScriptShell.Proofs.Running.Sealed
import ScriptShell.Proofs.Running.Balance
import ScriptShell.Proofs.Running.Rest
import ScriptShell.Proofs.Running.Faults
import ScriptShell.Proofs.Running.Initialisation
import ScriptShell.Proofs.Running.Sessions
import ScriptShell.Proofs.Termination.Levels
import ScriptShell.Proofs.Termination.Calls
import ScriptShell.Proofs.Termination.Loading
import ScriptShell.Proofs.Termination.Lowering
import ScriptShell.Proofs.Termination.Sessions
import ScriptShell.Proofs.Containment.Statements
import ScriptShell.Proofs.Containment.Phrases
import ScriptShell.Proofs.Containment.Bodies
import ScriptShell.Proofs.Containment.Spelling
import ScriptShell.Proofs.Containment.Pieces
import ScriptShell.Proofs.Containment.Sentences
import ScriptShell.Proofs.Containment.Fragments
import ScriptShell.Proofs.Containment.Wrapping
import ScriptShell.Proofs.Splitting.Places
import ScriptShell.Proofs.Splitting.Rereading
import ScriptShell.Proofs.Splitting.Continuation
import ScriptShell.Proofs.Printing.Printer
import ScriptShell.Proofs.Printing.Lexing
import ScriptShell.Proofs.Printing.Reading
import ScriptShell.Proofs.Printing.Units
import ScriptShell.Proofs.Order.Units
import ScriptShell.Proofs.Containment.Words
import ScriptShell.Proofs.Exports.Paths
import ScriptShell.Proofs.Exports.Members
import ScriptShell.Proofs.Containment.Preambles
import ScriptShell.Proofs.Session.Carried
import ScriptShell.Proofs.Lexing.Lines
import ScriptShell.Proofs.Session.Names
import ScriptShell.Proofs.Typing.Conversions
import ScriptShell.Proofs.Parsing.Operators
import ScriptShell.Proofs.Parsing.Progress
import ScriptShell.Proofs.Splitting.Coverage
import ScriptShell.Proofs.Parsing.Mentions
import ScriptShell.Proofs.Splitting.References
import ScriptShell.Proofs.Splitting.Members
import ScriptShell.Proofs.Splitting.Bodies
import ScriptShell.Proofs.Splitting.Pasted
import ScriptShell.Proofs.Splitting.Agreement
import ScriptShell.Proofs.Files.Appending
import ScriptShell.Proofs.History.Records
import ScriptShell.Proofs.Ledger.Shadowing
import ScriptShell.Proofs.Printing.Ledgers
import ScriptShell.Proofs.Session.Pieces
import ScriptShell.Proofs.Printing.Quoting
import ScriptShell.Proofs.Printing.Display
import ScriptShell.Proofs.Parsing.Diagnostics
import ScriptShell.Proofs.Text.Sorted
import ScriptShell.Proofs.Typing.Completion
import ScriptShell.Proofs.Running.Division
import ScriptShell.Proofs.Parsing.Literals
import ScriptShell.Proofs.Typing.Fields
import ScriptShell.Proofs.Typing.Constructors
import ScriptShell.Proofs.Running.Objects
import ScriptShell.Proofs.Lowering.Stores
import ScriptShell.Proofs.Lowering.Objects
