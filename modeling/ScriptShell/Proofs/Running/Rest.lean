import ScriptShell.Proofs.Running.Sessions
import ScriptShell.Proofs.Termination.Sessions

/-! Sessions at rest. What a session runs goes through the guard of an entry point, and the code behind it is
ready, as long as neither a unit nor a library reaches for the functions that keep the frames. So between two
fragments there is no frame, no trap and no fault on its way, whatever the fragments do. -/
namespace ScriptShell

open Relation

namespace Registry

end Registry

namespace Workbench

end Workbench

/-- The call of an entry point: the code that is loaded, the entry point, and the machine. -/
structure EntryCall where
  registry : Registry
  entry : Entry
  machine : Machine

namespace Session

variable {session : Session}

theorem Reached.advance (reached : session.Reached) (text : String)
    (keeps : (session.advance text).KeepsFrames) : (session.advance text).Reached := by
  refine reached.other (advance_advanced _ _).table ?_ keeps
  unfold Session.advance
  dsimp only
  split
  · exact ⟨_, rfl⟩
  · split <;> exact ⟨_, rfl⟩

/-- No unit declares a foreign function by a reserved name, and no root brings in the functions that keep
frames. -/
structure Spares (session : Session) : Prop where
  units : session.compiler.table.symbols.SparesFrames
  roots : session.KeepsFrames

/-- What may happen to a session from outside, as long as it spares the functions that keep frames. -/
def SparingStep (before after : Session) : Prop := Step before after ∧ after.Spares

theorem Reached.step {after : Session} (reached : session.Reached) (step : SparingStep session after) :
    after.Reached := by
  obtain ⟨step, spares⟩ := step
  cases step with
  | run code wrapper outside => exact reached.run code wrapper outside spares.units
  | start outside => exact reached.start outside spares.units
  | process text outside => exact reached.process text outside spares.units spares.roots
  | setShared enabled outside => exact reached.setMode enabled outside spares.units
  | addPaths tier paths => exact reached.addPaths tier paths spares.roots
  | addLibraries tier coordinates => exact reached.addLibraries tier coordinates spares.roots
  | other table registry _ _ => exact reached.other table registry spares.roots

/-- A value whose initialiser faults. -/
def divided : Outcome String × Session := (Session.new {} {}).process "val x = 1 / 0"

end Session

end ScriptShell
