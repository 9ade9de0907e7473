import ScriptShell.Proofs.Running.Rest
import Mathlib.Data.List.Pairwise

/-! Modules are initialised once. Between the calls of entry points no module is being initialised. One that is
initialised stays so, its initialiser has no part in any later call, and what only its initialiser writes keeps
its value, as long as nothing else writes its state. A call that ends in a fault leaves exactly those modules
uninitialised that were being initialised where the fault was raised, and the next use of such a module runs
its initialiser again. -/
namespace ScriptShell

open Relation

/-- No cell is written at two places: the states of modules are cells among others. -/
def Artifact.WritesOnce (artifact : Artifact) : Prop := (artifact.procedures.flatMap (·.2.cells)).Nodup

/-- The procedure that initialises a module. -/
def Artifact.Initialises (artifact : Artifact) (owner frame : String) (body : Code) : Prop :=
  artifact.procedures.lookup (Lowering.ensureSymbol owner) = some (.ensure owner frame body)

/-- What the initialiser of a module writes is its own if no cell is written at two places. -/
theorem Artifact.WritesOnce.owns {artifact : Artifact} {owner frame symbol : String} {body : Code}
    (once : artifact.WritesOnce) (own : artifact.Initialises owner frame body)
    (written : symbol = stateSymbol owner ∨ symbol ∈ body.writes) : artifact.Owns owner symbol := by
  intro entry listed writes
  have apart := (List.nodup_flatMap.mp once).2
  have lead := mem_of_lookup own
  by_cases same : entry = (Lowering.ensureSymbol owner, .ensure owner frame body)
  · exact ⟨frame, body, by rw [same]⟩
  · have : Std.Symm (Function.onFun List.Disjoint fun entry : String × Procedure => entry.2.cells) :=
      ⟨fun _ _ own => own.symm⟩
    have disjoint := apart.forall listed lead same
    exact absurd (List.mem_cons.mpr written) (disjoint writes)

namespace Machine

variable {m m' : Machine} {images : Array Image} {image : Image} {target : Target} {key : CellKey}

/-- What a call that ends in a fault makes of the modules: those that were being initialised where the fault
was raised are uninitialised, and the others are as they were there. -/
theorem callEntry_fault {fault : Fault} (idle : m.context.traps = [])
    (ended : m.callEntry images target = (.error fault, m')) :
    ∃ root raised, openTarget images callBound target [] m.openGuard = .error root raised ∧
      ∀ key, m'.moduleState key =
        if key ∈ raised.context.underway then ModuleState.uninitialised else raised.moduleState key := by
  have tracks := tracks_callTarget images callBound target []
  unfold callEntry at ended
  rw [run_guarded] at ended
  cases opened : openTarget images callBound target [] m.openGuard with
  | ok value after =>
    rw [(tracks.ok opened).1] at ended
    cases ended
  | error root raised =>
    obtain ⟨-, begun, shown, after, underway, same, -, trapped⟩ := tracks.error opened
    have none : m.openGuard.context.underway = [] := by
      show List.filterMap Trap.owner (⟨_, none⟩ :: m.context.traps) = []
      rw [idle]
      rfl
    rw [none, List.append_nil] at underway
    rw [same] at ended
    cases ended
    refine ⟨root, raised, rfl, fun key => ?_⟩
    show after.moduleState key = _
    rw [underway]
    split
    · exact trapped.reset key ‹_›
    · rename_i apart
      refine moduleState_of_lookup (trapped.kept key.state fun other listed same => ?_)
      exact apart (state_inj.mp same ▸ listed)

/-- The use of a module runs its initialiser, unless it is initialised or being initialised. -/
theorem callProcedure_ensure (call : Caller) (owner frame : String) (body : Code) (index : Nat)
    (args : List Value) (m : Machine) :
    callProcedure call true index (.ensure owner frame body) args m =
      if m.moduleState ⟨index, owner⟩ = ModuleState.uninitialised then
        match framed call frame (eval call { image := index } body) (m.entered ⟨index, owner⟩) with
        | .ok _ after => .ok .zero (after.settled ⟨index, owner⟩)
        | .error _ after => .error (after.trap ⟨index, owner⟩).context.caught (after.trap ⟨index, owner⟩)
      else .ok .zero m := by
  have run : callProcedure call true index (.ensure owner frame body) args m =
      (initialise ⟨index, owner⟩ (framed call frame (eval call { image := index } body)) >>=
        fun _ => pure .zero) m := rfl
  rw [run, run_bind, run_initialise]
  by_cases fresh : m.moduleState ⟨index, owner⟩ = ModuleState.uninitialised
  · simp only [if_pos fresh]
    cases framed call frame (eval call { image := index } body) (m.entered ⟨index, owner⟩) <;> rfl
  · simp only [if_neg fresh]
    rfl

/-- The use of a module that has been come to does nothing. -/
theorem ensure_begun {frame : String} {body : Code} (loaded : images[key.image]? = some image)
    (own : image.artifact.Initialises key.symbol frame body) (known : m.moduleState key ≠ ModuleState.uninitialised)
    (fuel : Nat) (args : List Value) :
    callTarget images (fuel + 1) (.procedure key.image (Lowering.ensureSymbol key.symbol)) args m = .ok .zero m := by
  have found : image.artifact.procedures.lookup _ = some (.ensure key.symbol frame body) := own
  unfold callTarget
  simp only [loaded, found]
  cases decide (image.target? key.image Primitive.initModule.symbol = some (.primitive .initModule)) with
  | false => rfl
  | true => rw [callProcedure_ensure, if_neg known]

/-- Reading a value of a module that has been come to gives what its cell holds, and changes nothing. -/
theorem read_value {symbol frame : String} {body : Code} (loaded : images[key.image]? = some image)
    (own : image.artifact.Initialises key.symbol frame body)
    (accessor : image.artifact.procedures.lookup (Lowering.getter symbol) =
      some (Lowering.strictAccessor key.symbol symbol))
    (known : m.moduleState key ≠ ModuleState.uninitialised) (fuel : Nat) :
    callTarget images (fuel + 2) (.procedure key.image (Lowering.getter symbol)) [] m =
      .ok ((m.cells.lookup ⟨key.image, symbol⟩).getD .zero) m := by
  have bound : image.target? key.image (Lowering.ensureSymbol key.symbol) =
      some (.procedure key.image (Lowering.ensureSymbol key.symbol)) := by
    unfold Image.target?
    rw [own]
    rfl
  have ensured := ensure_begun loaded own known fuel []
  unfold callTarget
  simp only [loaded, accessor, Lowering.strictAccessor, callProcedure, eval, evalBody, evalAll]
  simp only [run_bind]
  have none : (pure [] : Run (List Value)) m = .ok [] m := rfl
  simp only [none, bound, ensured]
  rfl

end Machine

namespace Session

variable {session after : Session}

/-- The state of the modules of a session, and what becomes of it. -/
structure Modules (session after : Session) : Prop where
  /-- No module is being initialised. -/
  idle : session.bench.machine.context.traps = []
  /-- A call that ends in a fault leaves exactly those modules uninitialised that were being initialised where
  the fault was raised. -/
  fault : ∀ {m : Machine} {images target fault m'}, m.context.traps = [] →
    m.callEntry images target = (.error fault, m') →
    ∃ root raised, Machine.openTarget images Machine.callBound target [] m.openGuard = .error root raised ∧
      ∀ key, m'.moduleState key =
        if key ∈ raised.context.underway then ModuleState.uninitialised else raised.moduleState key
  /-- A module that is initialised stays so. -/
  stays : ∀ {key : CellKey} {image}, session.registry.images[key.image]? = some image →
    image.artifact.Tells key.symbol → session.bench.machine.moduleState key = ModuleState.initialised →
    after.bench.machine.moduleState key = ModuleState.initialised
  /-- Its initialiser never runs again: a call does the same with any other one in its place. -/
  never : ∀ {key : CellKey} {image}, session.registry.images[key.image]? = some image →
    image.artifact.Tells key.symbol → session.bench.machine.moduleState key = ModuleState.initialised →
    ∀ body target, after.bench.machine.callEntry after.registry.images target =
      after.bench.machine.callEntry (Image.reinitialise after.registry.images key body) target
  /-- The values that it stores keep what they are, and that is what reading them gives. -/
  values : ∀ {key : CellKey} {image frame body symbol}, session.registry.images[key.image]? = some image →
    session.bench.machine.moduleState key = ModuleState.initialised → image.artifact.WritesOnce →
    image.artifact.Initialises key.symbol frame body → symbol ∈ body.writes →
    after.bench.machine.cells.lookup ⟨key.image, symbol⟩ = session.bench.machine.cells.lookup ⟨key.image, symbol⟩ ∧
      (image.artifact.procedures.lookup (Lowering.getter symbol) =
          some (Lowering.strictAccessor key.symbol symbol) → ∀ fuel,
        Machine.callTarget after.registry.images (fuel + 2)
            (.procedure key.image (Lowering.getter symbol)) [] after.bench.machine =
          .ok ((session.bench.machine.cells.lookup ⟨key.image, symbol⟩).getD .zero) after.bench.machine)

/-- Modules are initialised once, whatever happens to a session. A module that is not initialised is on its
next use. -/
theorem modules_initialise_once {config : SessionConfig} {files : Files}
    (before : ReflTransGen Step (Session.new config files) session) (later : ReflTransGen Step session after) :
    session.Modules after ∧ ∀ call index owner frame body args (m : Machine),
      m.moduleState ⟨index, owner⟩ = ModuleState.uninitialised →
      Machine.callProcedure call true index (.ensure owner frame body) args m =
        match Machine.framed call frame (Machine.eval call { image := index } body) (m.entered ⟨index, owner⟩) with
        | .ok _ done => .ok .zero (done.settled ⟨index, owner⟩)
        | .error _ left => .error (left.trap ⟨index, owner⟩).context.caught (left.trap ⟨index, owner⟩) := by
  have settles := settles_of_steps later
  have stays : ∀ {key : CellKey} {image}, session.registry.images[key.image]? = some image →
      image.artifact.Tells key.symbol → session.bench.machine.moduleState key = ModuleState.initialised →
      after.bench.machine.moduleState key = ModuleState.initialised := by
    intro key image loaded tells known
    have begun : session.bench.machine.moduleState key ≠ ModuleState.uninitialised := by rw [known]; decide
    rw [(settles.machine.holds key image loaded tells begun).moduleState tells, known]
  refine ⟨?_, fun call index owner frame body args m fresh => ?_⟩
  · constructor
    case idle => exact (settles_of_steps before).machine.traps
    case fault => exact fun idle ended => Machine.callEntry_fault idle ended
    case stays => exact stays
    case never =>
      intro key image loaded tells known body target
      have begun : after.bench.machine.openGuard.moduleState key ≠ ModuleState.uninitialised := by
        rw [show after.bench.machine.openGuard.moduleState key = _ from stays loaded tells known]
        decide
      have owned : Image.Owned after.registry.images key (stateSymbol key.symbol) := by
        intro own loaded'
        obtain ⟨_, present, same⟩ := settles.code key.image image loaded
        cases loaded'.symm.trans present
        rw [same]
        exact tells
      have same := (Machine.sealed_callTarget after.registry.images key body Machine.callBound target [] owned
        after.bench.machine.openGuard begun).1
      unfold Machine.callEntry
      rw [Machine.run_guarded, Machine.run_guarded, same]
    case values =>
      intro key image frame body symbol loaded known once own written
      have tells : image.artifact.Tells key.symbol := once.owns own (.inl rfl)
      have begun : session.bench.machine.moduleState key ≠ ModuleState.uninitialised := by rw [known]; decide
      have kept := settles.machine.holds key image loaded tells begun symbol (once.owns own (.inr written))
      refine ⟨kept, fun accessor fuel => ?_⟩
      obtain ⟨image', loaded', same⟩ := settles.code key.image image loaded
      rw [← same] at own accessor
      have still : after.bench.machine.moduleState key ≠ ModuleState.uninitialised := by
        rw [stays loaded tells known]
        decide
      have read := Machine.read_value loaded' own accessor still fuel
      rwa [kept] at read
  · rw [Machine.callProcedure_ensure, if_pos fresh]

instance (artifact : Artifact) : Decidable artifact.WritesOnce :=
  inferInstanceAs (Decidable (List.Nodup _))

/-- A session with a value, and the session after the value was read. -/
def stored : Session := ((Session.new {} {}).process "val x = 2").2

/-- The check that the value is stored by its module, and by nothing else. -/
def storesValue : Bool :=
  match stored.registry.images[1]? with
  | none => false
  | some image =>
    decide image.artifact.WritesOnce && stored.bench.machine.moduleState ⟨1, "cmd0"⟩ = ModuleState.initialised &&
      match image.artifact.procedures.lookup (Lowering.ensureSymbol "cmd0") with
      | some (.ensure owner _ body) => owner = "cmd0" && "cmd0.x" ∈ body.writes
      | _ => false

theorem modules_initialise_once_of_value : ∃ image frame body,
    stored.registry.images[1]? = some image ∧ stored.bench.machine.moduleState ⟨1, "cmd0"⟩ = ModuleState.initialised ∧
      image.artifact.WritesOnce ∧ image.artifact.Initialises "cmd0" frame body ∧ "cmd0.x" ∈ body.writes ∧
      ∀ after, ReflTransGen Step stored after → after.bench.machine.moduleState ⟨1, "cmd0"⟩ = ModuleState.initialised ∧
        after.bench.machine.cells.lookup ⟨1, "cmd0.x"⟩ = some (.word 2) := by
  have run : storesValue = true ∧
      stored.bench.machine.cells.lookup ⟨1, "cmd0.x"⟩ = some (.word 2) := by decide +kernel
  obtain ⟨run, held⟩ := run
  unfold storesValue at run
  split at run
  · cases run
  · rename_i image loaded
    simp only [Bool.and_eq_true, decide_eq_true_eq] at run
    obtain ⟨⟨once, known⟩, run⟩ := run
    split at run
    · rename_i owner frame body found
      simp only [Bool.and_eq_true, decide_eq_true_eq] at run
      obtain ⟨rfl, written⟩ := run
      refine ⟨image, frame, body, loaded, known, once, found, written, fun after steps => ?_⟩
      have first : ReflTransGen Step (Session.new {} {}) stored := .single (.process _ _ _)
      obtain ⟨modules, -⟩ := modules_initialise_once first steps
      refine ⟨modules.stays loaded (once.owns found (.inl rfl)) known, ?_⟩
      rw [(modules.values loaded known once found written).1, held]
    · cases run

/-- A session with a value that is named like the flag of a lazy value beside it. -/
def flagged : Session := ((Session.new {} {}).process "val x$done: Unit = ()\nlazy val x = 5").2

/-- The value is written again when the lazy one is asked for. -/
theorem flag_written_again : flagged.bench.machine.moduleState ⟨1, "cmd0"⟩ = ModuleState.initialised ∧
    flagged.bench.machine.cells.lookup ⟨1, "cmd0.x$done"⟩ = some (.word 0) ∧
    (flagged.process "x").2.bench.machine.cells.lookup ⟨1, "cmd0.x$done"⟩ = some (.word 1) := by
  decide +kernel

/-- A session with a lazy value that is named like the state of its module. -/
def restated : Session := ((Session.new {} {}).process "val one = 1\nlazy val $state = 0").2

/-- Asking for the value writes the state, and the module counts as one that was never used. -/
theorem state_written_again : restated.bench.machine.moduleState ⟨1, "cmd0"⟩ = ModuleState.initialised ∧
    (restated.process "$state").2.bench.machine.moduleState ⟨1, "cmd0"⟩ = ModuleState.uninitialised := by
  decide +kernel

/-- A session with a value behind a function that is named like the getter of the value. -/
def accessed : Outcome String × Session :=
  (Session.new {} {}).process "class A \x7b\n\x7d\ndef n$get: A = new A\nval n = new A"

/-- The function answers for the value, each time with another object than the one that was shown. -/
theorem getter_answers_anew :
    accessed.1 = .success "defined class A\ndefined function n$get\nn = A@100001" ∧
      (accessed.2.process "n").1 = .success "res1 = A@100002" := by
  decide +kernel

end Session

end ScriptShell
