import ScriptShell.Typed
import ScriptShell.Machine.Primitive

/-!
Code: what the members of a unit become. Code computes one value. It reads the locals and the
receiver of its activation, the cells of its modules and the slots of objects, and calls other
code by symbol. A procedure is code with a way to be called.
-/
namespace ScriptShell

/-- Operations on two words. -/
inductive CodeOp where
  | add | sub | mul | xor | less | lessEqual | greater | greaterEqual | equal | different
deriving Repr, DecidableEq

namespace CodeOp

/-- The word of a truth value. -/
def truth (flag : Bool) : Int64 := if flag then 1 else 0

/-- The result of an operation; words wrap around. -/
def apply (op : CodeOp) (left right : Int64) : Int64 :=
  match op with
  | .add => left + right
  | .sub => left - right
  | .mul => left * right
  | .xor => left ^^^ right
  | .less => truth (left < right)
  | .lessEqual => truth (left ≤ right)
  | .greater => truth (right < left)
  | .greaterEqual => truth (right ≤ left)
  | .equal => truth (left = right)
  | .different => truth (left ≠ right)

end CodeOp

mutual

/-- Code for a value. -/
inductive Code where
  | word (value : Int64)
  /-- A text, and the place in the source where it stands. -/
  | text (place : Nat) (value : String)
  | bound (id : LocalId)
  | self
  | cell (symbol : String)
  | slot (object : Code) (slot : Nat)
  | call (symbol : String) (args : List Code)
  | op (op : CodeOp) (left right : Code)
  /-- One if the operand is zero, else zero. -/
  | not (operand : Code)
  /-- The right operand counts only if the left one is true. -/
  | both (left right : Code)
  /-- The right operand counts only if the left one is false. -/
  | either (left right : Code)
  | cond (condition thenBranch elseBranch : Code)
  | block (body : List CodeStep)

/-- One step of a block. The value of a block is that of its last step, or zero if that is
not `run`. -/
inductive CodeStep where
  | run (value : Code)
  | bind (id : LocalId) (value : Code)
  | setCell (symbol : String) (value : Code)
  /-- Sets a slot of the receiver. -/
  | setSlot (slot : Nat) (value : Code)

end

instance : Inhabited Code := ⟨.word 0⟩

mutual

/-- The symbols that code calls. -/
def Code.calls : Code → List String
  | .word _ | .text _ _ | .bound _ | .self | .cell _ => []
  | .slot object _ => object.calls
  | .call symbol args => symbol :: Code.callsAll args
  | .op _ left right | .both left right | .either left right => left.calls ++ right.calls
  | .not operand => operand.calls
  | .cond condition thenBranch elseBranch =>
    condition.calls ++ thenBranch.calls ++ elseBranch.calls
  | .block body => CodeStep.callsAll body

/-- The symbols that a list of code calls. -/
def Code.callsAll : List Code → List String
  | [] => []
  | code :: rest => code.calls ++ Code.callsAll rest

/-- The symbols that the steps of a block call. -/
def CodeStep.callsAll : List CodeStep → List String
  | [] => []
  | .run value :: rest | .bind _ value :: rest | .setCell _ value :: rest
  | .setSlot _ value :: rest => value.calls ++ CodeStep.callsAll rest

end

/-- Code with a way to be called. -/
inductive Procedure where
  /-- A function of a module, with its own frame if it has a name for one. -/
  | function (frame : Option String) (params : List LocalId) (body : Code)
  /-- A function of a class; the receiver is its first argument. -/
  | method (frame : String) (params : List LocalId) (body : Code)
  /-- Makes an object: the arguments go to the given slots, then the body runs. -/
  | construct (frame className : String) (slots : Nat) (fields : List Nat) (body : Code)
  /-- Initialises a module on first use. -/
  | ensure (owner frame : String) (body : Code)

namespace Procedure

/-- The symbols called around the code of a procedure that has a frame. -/
def framing : List String := [Primitive.enter.symbol, Primitive.leave.symbol]

/-- The symbols that a procedure calls, those around its code included. -/
def calls : Procedure → List String
  | .function none _ body => body.calls
  | .function (some _) _ body | .method _ _ body => framing ++ body.calls
  | .construct _ _ _ _ body => framing ++ Primitive.alloc.symbol :: body.calls
  | .ensure _ _ body => framing ++ Primitive.initModule.symbol :: body.calls

end Procedure

/-- The code of a top-level container, by symbol. -/
structure Artifact where
  name : String
  procedures : List (String × Procedure)

namespace Artifact

/-- The symbols of an artifact, those that only it can call included, in increasing order. -/
def symbols (artifact : Artifact) : List String :=
  sortNames (artifact.procedures.flatMap fun (symbol, procedure) =>
    match procedure with
    | .ensure _ frame _ => [symbol, frame]
    | _ => [symbol])

/-- The symbols that an artifact calls and does not have. -/
def imports (artifact : Artifact) : List String :=
  ((artifact.procedures.flatMap fun entry => entry.2.calls).filter fun symbol =>
    (artifact.procedures.lookup symbol).isNone).eraseDups

/-- An artifact with an entry point only, without a frame of its own. -/
def entry (name : String) (body : Code) : Artifact :=
  ⟨name, [(name ++ ".$main", .function none [] body)]⟩

end Artifact

end ScriptShell
