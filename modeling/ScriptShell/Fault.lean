import ScriptShell.Outcome
import ScriptShell.Text.Sorted

/-!
Faults of running programs. A fault is a chain of levels, the outermost first, each the cause
of the one before it. A level has a kind, a message, and the frames that were active when it
arose, innermost first.
-/
namespace ScriptShell

/-- What went wrong. -/
inductive FaultKind where
  | runtimeError
  | arithmeticError
  | stackOverflow
  | exit
  | interrupted
  /-- Wraps a fault raised while a module was being initialised. -/
  | initializer
  /-- Wraps a fault that ended the call of an entry point. -/
  | invocation
  | other (name : String)
deriving Repr, DecidableEq

namespace FaultKind

/-- The name of a kind in traces. -/
def name : FaultKind → String
  | .runtimeError => "kiln.RuntimeError"
  | .arithmeticError => "kiln.ArithmeticError"
  | .stackOverflow => "kiln.StackOverflowError"
  | .exit => "kiln.Exit"
  | .interrupted => "kiln.Interrupted"
  | .initializer => "kiln.InitializerError"
  | .invocation => "kiln.InvocationError"
  | .other name => name

/-- The kinds with a name of their own. -/
def known : List FaultKind :=
  [.runtimeError, .arithmeticError, .stackOverflow, .exit, .interrupted, .initializer, .invocation]

/-- The kind with a given name. -/
def ofName (name : String) : FaultKind :=
  (known.find? (·.name = name)).getD (.other name)

/-- Kinds that only wrap their cause. -/
def isWrapper (kind : FaultKind) : Bool :=
  kind = .invocation || kind = .initializer

end FaultKind

/-- One level of a fault. -/
structure FaultLevel where
  kind : FaultKind
  message : String := ""
  frames : List String := []
deriving Repr, DecidableEq

/-- A fault: its outermost level and the causes behind it. -/
structure Fault where
  top : FaultLevel
  causes : List FaultLevel := []
deriving Repr, DecidableEq

/-- The part of a frame behind its last dot. -/
def frameMethod (frame : String) : String :=
  String.ofList (frame.toList.reverse.takeWhile (· ≠ '.')).reverse

/-- The frame of the host around every call of an entry point. -/
def hostFrame : String := "kiln.evaluator_run_printer"

namespace FaultLevel

/-- The kind of a level, with its message if it has one. -/
def headline (level : FaultLevel) : String :=
  if level.message.isEmpty then level.kind.name else level.kind.name ++ ": " ++ level.message

/-- How many frames of a level are listed. -/
def maxFrames : Nat := 1024

/-- The frames in front of the first one whose method is the marker. -/
def userFrames (level : FaultLevel) (marker : String) : List String :=
  level.frames.takeWhile (frameMethod · ≠ marker)

/-- Lists frames behind a text, up to the first one whose method is the marker: the text, and how many
frames it leaves out. `shown` counts the frames that are listed, `hidden` those that came when no more
were to be. -/
def listFrames (marker text : String) (shown hidden : Nat) : List String → String × Nat
  | [] => (text, hidden)
  | frame :: rest =>
    if frameMethod frame = marker then (text, hidden)
    else if shown = maxFrames then listFrames marker text shown (hidden + 1) rest
    else listFrames marker (text ++ ("\n  at " ++ frame)) (shown + 1) hidden rest

/-- A level as a part of a trace. -/
def render (level : FaultLevel) (marker : String) : String :=
  let (text, hidden) := listFrames marker level.headline 0 0 level.frames
  if hidden = 0 then text else text ++ ("\n  ... " ++ toString hidden ++ " more")

end FaultLevel

namespace Fault

/-- All levels, the outermost first. -/
def levels (fault : Fault) : List FaultLevel := fault.top :: fault.causes

/-- The innermost level. -/
def root (fault : Fault) : FaultLevel := fault.causes.getLastD fault.top

/-- Puts a level around a fault. -/
def wrap (level : FaultLevel) (fault : Fault) : Fault := ⟨level, fault.levels⟩

/-- A trace with the levels of the causes behind it. -/
def traceCauses (marker text : String) : List FaultLevel → String
  | [] => text
  | cause :: causes => traceCauses marker (text ++ ("\nCaused by: " ++ cause.render marker)) causes

/-- The trace of a fault, each level cut at the marker. -/
def trace (fault : Fault) (marker : String) : Failure :=
  ⟨traceCauses marker (fault.top.render marker) fault.causes, some marker⟩

/-- Removes the wrapping levels. The flag tells that one of them was an initialiser. -/
def peel (inInitializer : Bool) (top : FaultLevel) : List FaultLevel → Bool × Fault
  | [] => (inInitializer, ⟨top, []⟩)
  | cause :: causes =>
    if top.kind.isWrapper then peel (inInitializer || top.kind = .initializer) cause causes
    else (inInitializer, ⟨top, cause :: causes⟩)

/-- What a fault means for the session: the end, an interruption, or a failure with a trace. The
trace is cut at the entry point when a module was being initialised, else at the host. -/
def classify (fault : Fault) : Outcome String :=
  let (inInitializer, inner) := peel false fault.top fault.causes
  match inner.top.kind with
  | .exit => .exit
  | .interrupted => .fail "Interrupted!"
  | _ => .failure (inner.trace (if inInitializer then "$main" else frameMethod hostFrame))

/-- The innermost level in one line. -/
def describe (fault : Fault) : String := fault.root.headline

end Fault

end ScriptShell
