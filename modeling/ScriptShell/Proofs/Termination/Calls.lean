import ScriptShell.Proofs.Termination.Levels
import ScriptShell.Proofs.Soundness.Calls
import ScriptShell.Proofs.Typing.Growth
import ScriptShell.Code.Lowering

/-! Calls end. Every procedure but the accessors of strict values opens a frame before its code runs, and
the number of frames is limited; an accessor calls nothing but the initialiser of its module, which opens
one. So between two frames stand at most two calls, and what a call gives does not depend on how many
calls may stand inside one another once twice the frames that are left and three more may. -/
namespace ScriptShell

/-- A procedure leaves the frames alone, and only an accessor does without one. -/
structure Procedure.Orderly (symbol : String) (procedure : Procedure) : Prop where
  name : symbol ∉ Machine.frameSymbols
  calls : ∀ called ∈ procedure.body.calls, called ∉ Machine.frameSymbols
  accessor : procedure.isBare = true → (∃ own, symbol = Lowering.getter own) ∧
    ∀ called ∈ procedure.body.calls, ∃ owner, called = Lowering.ensureSymbol owner

def Artifact.Orderly (artifact : Artifact) : Prop :=
  ∀ entry ∈ artifact.procedures, entry.2.Orderly entry.1

/-- What may be called: code that is ready, and what leaves the frames alone. -/
def Target.Safe (ready : Nat → Prop) : Target → Prop
  | .procedure index _ => ready index
  | .primitive own => own.symbol ∉ Machine.frameSymbols
  | .foreign _ => True

/-- A target is called by the symbol it has itself. -/
def Target.Named (symbol : String) : Target → Prop
  | .procedure _ own => own = symbol
  | .primitive _ | .foreign _ => True

/-- Code that is ready to be called: its frames are kept by the functions made for that, and what else it
calls may be called. -/
structure Image.Ready (ready : Nat → Prop) (index : Nat) (image : Image) : Prop where
  orderly : image.artifact.Orderly
  enter : ∀ entry ∈ image.artifact.procedures, entry.2.isBare = false →
    image.target? index Primitive.enter.symbol = some (.primitive .enter)
  leave : ∀ entry ∈ image.artifact.procedures, entry.2.isBare = false →
    image.target? index Primitive.leave.symbol = some (.primitive .leave)
  targets : ∀ symbol target, symbol ∉ Machine.frameSymbols → image.target? index symbol = some target →
    target.Safe ready ∧ target.Named symbol

/-- All code that is ready may be called. -/
def Image.AllReady (ready : Nat → Prop) (images : Array Image) : Prop :=
  ∀ index, ready index → ∀ image, images[index]? = some image → image.Ready ready index

namespace Lowering

end Lowering

namespace Machine

variable {depth : Nat} {x y : Run α} {call other : Caller}

theorem Level.tryCatch {handle : Fault → Run α} (run : Level depth x y)
    (rethrows : ∀ fault m value m', handle fault m ≠ .ok value m')
    (astray : ∀ fault m, (left (handle fault m)).astray = m.astray) :
    Level depth (tryCatch x handle) (tryCatch y handle) := by
  intro m same
  obtain ⟨equal, kept, room⟩ := run m same
  rw [run_tryCatch, run_tryCatch, ← equal]
  cases result : x m with
  | ok value after =>
    rw [result] at room
    exact ⟨rfl, by rintro _ _ ⟨⟩; exact kept value after result, room⟩
  | error fault after =>
    rw [result] at room
    exact ⟨rfl, fun value m' ended => absurd ended (rethrows fault after value m'),
      fun out => room ((astray fault after).symm.trans out)⟩

variable {ready : Nat → Prop} {images : Array Image} {image : Image} {index r fuel fuel' : Nat}

theorem caller_primitive {primitive : Primitive}
    (bound : image.target? index primitive.symbol = some (.primitive primitive)) (enough : 1 ≤ fuel)
    (args : List Value) :
    image.caller images index fuel primitive.symbol args = callPrimitive primitive args := by
  obtain ⟨fuel, rfl⟩ := Nat.exists_eq_add_of_le' enough
  simp [Image.caller, bound, callTarget]

end Machine

end ScriptShell
