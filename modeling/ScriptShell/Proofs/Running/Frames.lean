import ScriptShell.Proofs.Running.Traps
import ScriptShell.Proofs.Termination.Calls

/-! The frames at a fault. Code that is ready to be called opens and closes its own frames only. So where a
fault is raised, all frames that were there before the call are still there, with those of the calls that
are active on top of them. -/
namespace ScriptShell.Machine

/-- A run leaves the frames as they were, and where it is stopped by a fault, they are still there. -/
structure Stacks (x : Run α) : Prop where
  ok : ∀ {m value m'}, x m = .ok value m' → m'.context.frames = m.context.frames
  error : ∀ {m root raised}, x m = .error root raised →
    m.context.frames.toList <+: raised.context.frames.toList

variable {x : Run α} {m raised : Machine} {root : Fault}

theorem stacks_tame (tame : Tame x) : Stacks x :=
  ⟨fun run => (tame.ok run).frames, fun run => (tame.error run).1.frames ▸ List.prefix_rfl⟩

theorem Stacks.bind {f : α → Run β} (first : Stacks x) (rest : ∀ value, Stacks (f value)) :
    Stacks (x >>= f) := by
  constructor
  case ok =>
    intro m value m' run
    rw [run_bind] at run
    cases result : x m with
    | error fault after => simp [result] at run
    | ok own after =>
      simp only [result] at run
      exact ((rest own).ok run).trans (first.ok result)
  case error =>
    intro m root raised run
    rw [run_bind] at run
    cases result : x m with
    | error fault after =>
      simp only [result] at run
      cases run
      exact first.error result
    | ok own after =>
      simp only [result] at run
      rw [← first.ok result]
      exact (rest own).error run

theorem stacks_modify {f : Machine → Machine}
    (kept : ∀ m, (f m).context.frames = m.context.frames) : Stacks (modify f : Run Unit) :=
  ⟨by rintro m _ _ ⟨⟩; exact kept m, by rintro _ _ _ ⟨⟩⟩

theorem stacks_outOfRoom : Stacks (outOfRoom : Run α) := by
  have marked : Stacks (goAstray .stack) := stacks_modify fun _ => rfl
  exact marked.bind fun _ => stacks_tame (tame_raise (by decide) _)

theorem stacks_congruence : Congruence fun _ x _ => Stacks x := ⟨stacks_tame, Stacks.bind⟩

theorem stacks_openInitialise {body : Run Value} (key : CellKey) (run : Stacks body) :
    Stacks (openInitialise key body) := by
  have set : ∀ state, Stacks (setModule key state) := fun _ => stacks_modify fun _ => rfl
  have opened : Stacks (modifyContext (·.pushTrap (some key))) := stacks_modify fun _ => rfl
  have closed : Stacks (modifyContext (·.popTrap)) := stacks_modify fun _ => rfl
  refine (stacks_tame tame_get).bind fun m => ?_
  split
  · exact (set _).bind fun _ => opened.bind fun _ => run.bind fun _ => closed.bind fun _ => set _
  · exact stacks_tame (tame_pure _)

variable {call other : Caller}

section

variable {body : Run Value} {frame : String}
  (entered : ∀ args, call Primitive.enter.symbol args = callPrimitive .enter args)
  (left : ∀ args, call Primitive.leave.symbol args = callPrimitive .leave args)
include entered left

/-- A fault under a frame is raised with the frame in place, unless there was no place for it. -/
theorem framed_error (run : Stacks body) (ended : framed call frame body m = .error root raised) :
    (raised.context.traps = m.context.traps ∧ raised.context.frames = m.context.frames) ∨
      m.context.frames.toList ++ [some frame] <+: raised.context.frames.toList := by
  rw [run_framed frame m entered left, run_enter] at ended
  split at ended
  next blocked =>
    left
    split at blocked
    next => cases blocked; cases ended; exact ⟨rfl, rfl⟩
    next =>
      split at blocked
      next => cases blocked; cases ended; exact ⟨rfl, rfl⟩
      next => cases blocked
  next opened =>
    right
    split at opened
    next => cases opened
    next =>
      split at opened <;> cases opened
      split at ended
      next stopped =>
        cases ended
        simpa [Context.push] using run.error stopped
      next => cases ended

theorem stacks_framed (run : Stacks body) : Stacks (framed call frame body) := by
  constructor
  case ok =>
    intro m value m' ended
    rw [run_framed frame m entered left, run_enter] at ended
    split at ended
    next => cases ended
    next opened =>
      split at opened
      next => cases opened
      next =>
        split at opened <;> cases opened
        split at ended
        next => cases ended
        next closed =>
          cases ended
          simp [Context.pop, run.ok closed, Context.push]
  case error =>
    intro m root raised ended
    obtain ⟨-, same⟩ | within := framed_error entered left run ended
    · exact same ▸ List.prefix_rfl
    · exact (List.prefix_append _ _).trans within

end

/-- A procedure, given what its calls and its frame do. -/
theorem stacks_openProcedure {procedure : Procedure} (initialises : Bool) (index : Nat) (args : List Value)
    (frames : procedure.isBare = false → ∀ frame body, Stacks body → Stacks (framed call frame body))
    (calls : ∀ symbol ∈ Primitive.alloc.symbol :: procedure.body.calls, ∀ args, Stacks (call symbol args)) :
    Stacks (openProcedure call initialises index procedure args) := by
  have calls : Congruence.Calls (fun _ x _ => Stacks x) call call _ := calls
  rw [openProcedure_eq]
  refine stacks_congruence.procedureWith openInitialise openInitialise initialises index args ?_ ?_ calls ?_
  · exact fun own frame body _ run => frames own frame body run
  · exact fun key _ _ run => stacks_openInitialise key run
  · exact fun _ _ _ => stacks_modify fun _ => rfl

/-- The calls that loaded code makes, where a fault stops the machine as it is. -/
def openCaller (images : Array Image) (image : Image) (index fuel : Nat) : Caller := fun symbol args =>
  match image.target? index symbol with
  | some target => openTarget images fuel target args
  | none => return .zero

variable {ready : Nat → Prop} {images : Array Image} {image : Image} {index fuel : Nat}

theorem openCaller_primitive {primitive : Primitive}
    (bound : image.target? index primitive.symbol = some (.primitive primitive)) (args : List Value) :
    openCaller images image index (fuel + 1) primitive.symbol args = callPrimitive primitive args := by
  simp [openCaller, bound, openTarget]

/-- Frames around the code of a procedure that is ready. -/
theorem stacks_framed_openCaller {procedure : Procedure} {frame : String} {body : Run Value}
    (able : image.Ready ready index) (listed : (symbol, procedure) ∈ image.artifact.procedures)
    (own : procedure.isBare = false) (run : Stacks body) :
    Stacks (framed (openCaller images image index fuel) frame body) := by
  cases fuel with
  | zero =>
    have stopped : ∀ symbol args, Stacks (openCaller images image index 0 symbol args) := by
      intro symbol args
      unfold openCaller
      split
      · exact stacks_outOfRoom
      · exact stacks_tame (tame_pure _)
    exact (stopped _ _).bind fun _ => run.bind fun _ => (stopped _ _).bind fun _ => stacks_tame (tame_pure _)
  | succ fuel =>
    exact stacks_framed (openCaller_primitive (able.enter _ listed own))
      (openCaller_primitive (able.leave _ listed own)) run

/-- Calls of what may be called leave the frames under them alone. -/
theorem stacks_openTarget {target : Target} (all : Image.AllReady ready images) (safe : target.Safe ready)
    (args : List Value) : Stacks (openTarget images fuel target args) := by
  induction fuel generalizing target args with
  | zero => exact stacks_outOfRoom
  | succ fuel ih =>
    unfold openTarget
    cases target with
    | primitive own => exact stacks_tame (tame_callPrimitive safe args)
    | foreign function => exact stacks_tame (tame_withWords args function)
    | procedure self symbol =>
      dsimp only
      cases loaded : images[self]? with
      | none => exact stacks_tame (tame_pure _)
      | some image =>
        dsimp only
        cases found : image.artifact.procedures.lookup symbol with
        | none => exact stacks_tame (tame_pure _)
        | some procedure =>
          have able := all self safe image loaded
          have listed := mem_of_lookup found
          have run := @stacks_openProcedure (openCaller images image self fuel) procedure
          refine run _ self args (fun own frame body run => stacks_framed_openCaller able listed own run) ?_
          intro called member args
          have plain : called ∉ frameSymbols := by
            obtain rfl | member := List.mem_cons.mp member
            · decide
            · exact (able.orderly _ listed).calls called member
          unfold openCaller
          cases bound : image.target? self called with
          | none => exact stacks_tame (tame_pure _)
          | some target => exact ih (able.targets called target plain bound).1 args

end ScriptShell.Machine
