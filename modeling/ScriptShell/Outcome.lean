import ScriptShell.Text.Ascii

/-!
Outcomes of the stages of a session. Everything but a success ends the stages that follow and
is handed on unchanged.
-/
namespace ScriptShell

/-- A failure as shown to the user. The marker names the frame method at which a trace was cut,
when the failure came from a running program. -/
structure Failure where
  message : String
  marker : Option String := none
deriving Repr, DecidableEq

/-- What became of a stage. -/
inductive Outcome (α : Type) where
  | success (value : α)
  | failure (reason : Failure)
  /-- The program asked to end the session. -/
  | exit
  /-- There was nothing to do. -/
  | skip
  /-- The input so far is incomplete. -/
  | buffer (text : String)
deriving Repr, DecidableEq

namespace Outcome

/-- A failure with a message only. -/
def fail (message : String) : Outcome α := .failure ⟨message, none⟩

/-- A value, or a failure with the given message. -/
def ofOption (message : String) : Option α → Outcome α
  | some value => .success value
  | none => fail message

/-- The same outcome for another type of value. A success has no value to carry over. -/
def forward : Outcome α → Outcome β
  | .failure reason => .failure reason
  | .exit => .exit
  | .skip => .skip
  | .buffer text => .buffer text
  | .success _ => fail "forward() called on a successful result"

/-- Applies a function to the value of a success. -/
def map (f : α → β) : Outcome α → Outcome β
  | .success value => .success (f value)
  | other => other.forward

/-- Continues with the value of a success. -/
def bind (outcome : Outcome α) (f : α → Outcome β) : Outcome β :=
  match outcome with
  | .success value => f value
  | other => other.forward

/-- The outcome has a value. -/
def isSuccess : Outcome α → Bool
  | .success _ => true
  | _ => false

/-- A failure of the session itself, not of the program it runs. Its message ends at the first
zero byte. -/
def unexpected (message : String) : Outcome α :=
  fail (Ascii.untilNul message ++ "\nSomething unexpected went wrong =(")

end Outcome

end ScriptShell
