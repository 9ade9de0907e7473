import ScriptShell.Proofs.Running.Steps
import ScriptShell.Proofs.Soundness.Calls

/-! Faults and the modules that they leave behind. Every initialisation catches a fault of its body, resets
its module and hands the fault on. To say what all of this comes to, a run is compared with the same run
without the catching, which stops where the fault is raised: there the traps tell which initialisations are
under way. The run itself resets the modules of those that it stops, and no others, and however many there
are, the fault is wrapped once. -/
namespace ScriptShell.Machine

/-- The initialisation of a module, where a fault stops the machine as it is. -/
def openInitialise (key : CellKey) (body : Run Value) : Run Unit := do
  if (← get).moduleState key = ModuleState.uninitialised then
    setModule key ModuleState.initialising
    modifyContext (·.pushTrap (some key))
    let _ ← body
    modifyContext (·.popTrap)
    setModule key ModuleState.initialised

/-- The call of a procedure, where a fault stops the machine as it is. -/
def openProcedure (call : Caller) (initialises : Bool) (image : Nat) (procedure : Procedure)
    (args : List Value) : Run Value :=
  match procedure with
  | .ensure owner frame body => do
    if initialises then
      openInitialise ⟨image, owner⟩ (framed call frame (eval call { image } body))
    return .zero
  | other => callProcedure call initialises image other args

theorem openProcedure_eq (call : Caller) (initialises : Bool) (image : Nat) (procedure : Procedure)
    (args : List Value) : openProcedure call initialises image procedure args =
      procedureWith openInitialise call initialises image procedure args := by
  cases procedure <;> rfl

/-- The call of a target, where a fault stops the machine as it is. -/
def openTarget (images : Array Image) : Nat → Target → List Value → Run Value
  | 0, _, _ => outOfRoom
  | fuel + 1, target, args =>
    match target with
    | .primitive primitive => callPrimitive primitive args
    | .foreign function => withWords args function
    | .procedure self symbol =>
      match images[self]? with
      | none => return .zero
      | some image =>
        match image.artifact.procedures.lookup symbol with
        | none => return .zero
        | some procedure =>
          let initialises :=
            image.target? self Primitive.initModule.symbol = some (.primitive .initModule)
          openProcedure (fun symbol args =>
            match image.target? self symbol with
            | some target => openTarget images fuel target args
            | none => return .zero) initialises self procedure args

/-- What catching makes of a fault that was raised while initialisations were under way that it stops: the
fault is wrapped once if there are any, and exactly their modules are reset. -/
structure Trapped (begun : List CellKey) (raised after : Machine) (root shown : Fault) : Prop where
  bare : begun = [] → shown = root
  wrapped : begun ≠ [] → ∃ frames, shown = root.wrap ⟨.initializer, "", frames⟩
  reset : ∀ key ∈ begun, after.moduleState key = ModuleState.uninitialised
  kept : ∀ cell, (∀ key ∈ begun, cell ≠ key.state) → after.cells.lookup cell = raised.cells.lookup cell
  pending : after.context.pending = some shown

/-- A run does what the same run without catching does, up to the fault that it may end in. -/
structure Tracks (x y : Run α) : Prop where
  ok : ∀ {m value m'}, y m = .ok value m' → x m = .ok value m' ∧ m'.context.traps = m.context.traps
  error : ∀ {m root raised}, y m = .error root raised → root.Raised raised ∧
    ∃ begun shown after, raised.context.underway = begun ++ m.context.underway ∧ x m = .error shown after ∧
      after.context.traps = m.context.traps ∧ Trapped begun raised after root shown

variable {m m' raised after : Machine} {root shown : Fault} {key : CellKey}

/-- The machine with a module noted as being at some point. -/
def mark (m : Machine) (key : CellKey) (state : Value) : Machine :=
  { m with cells := bindKey key.state state m.cells }

/-- The machine where the body of an initialisation begins. -/
def entered (m : Machine) (key : CellKey) : Machine :=
  { m.mark key ModuleState.initialising with context := m.context.pushTrap (some key) }

/-- The machine that an initialisation leaves if its body comes to its end. -/
def settled (m : Machine) (key : CellKey) : Machine :=
  { m.mark key ModuleState.initialised with context := m.context.popTrap }

/-- The machine that an initialisation leaves if its body ends in a fault. -/
def trap (m : Machine) (key : CellKey) : Machine :=
  { m.mark key ModuleState.uninitialised with context := m.context.unwind.wrapPending }

theorem run_initialise (key : CellKey) (body : Run Value) (m : Machine) :
    initialise key body m =
      if m.moduleState key = ModuleState.uninitialised then
        match body (m.entered key) with
        | .ok _ after => .ok () (after.settled key)
        | .error _ after => .error (after.trap key).context.caught (after.trap key)
      else .ok () m := by
  unfold initialise
  rw [run_bind, run_get]
  dsimp only
  split
  · rw [run_bind]
    simp only [setModule, writeCell, modifyContext, run_modify, run_bind, run_tryCatch, entered, mark]
    cases body { m with
      cells := bindKey key.state ModuleState.initialising m.cells
      context := m.context.pushTrap (some key) } <;> rfl
  · rfl

theorem run_openInitialise (key : CellKey) (body : Run Value) (m : Machine) :
    openInitialise key body m =
      if m.moduleState key = ModuleState.uninitialised then
        match body (m.entered key) with
        | .ok _ after => .ok () (after.settled key)
        | .error fault after => .error fault after
      else .ok () m := by
  unfold openInitialise
  rw [run_bind, run_get]
  dsimp only
  split
  · rw [run_bind]
    simp only [setModule, writeCell, modifyContext, run_modify, run_bind, entered, mark]
    cases body { m with
      cells := bindKey key.state ModuleState.initialising m.cells
      context := m.context.pushTrap (some key) } <;> rfl
  · rfl

theorem run_guarded (m : Machine) (x : Run α) :
    m.guarded x = match x m.openGuard with
      | .ok value after => (.ok value, after.closeGuard)
      | .error _ after => (.error after.context.caught, after.unwindGuard) := rfl

theorem Context.unwind_pending (context : Context) : context.unwind.pending = context.pending := by
  unfold Context.unwind
  split <;> rfl

theorem Context.wrapPending_traps (context : Context) : context.wrapPending.traps = context.traps := by
  unfold Context.wrapPending
  split
  · rfl
  · split <;> rfl

/-- The fault that an initialisation hands on is the one of its body, wrapped unless it is wrapped already. -/
theorem trap_pending {fault : Fault} (pending : m.context.pending = some fault) (key : CellKey) :
    (m.trap key).context.pending = some (if fault.top.kind = .initializer then fault
      else fault.wrap ⟨.initializer, "", m.context.unwind.snapshot⟩) := by
  have kept : m.context.unwind.pending = some fault := (Context.unwind_pending _).trans pending
  show m.context.unwind.wrapPending.pending = _
  simp only [Context.wrapPending, kept]
  split
  · exact kept
  · rfl

/-- Modules have states of their own. -/
theorem state_inj {key other : CellKey} : key.state = other.state ↔ key = other := by
  cases key
  cases other
  simp [CellKey.state, stateSymbol]

theorem lookup_mark (m : Machine) (key cell : CellKey) (state : Value) :
    (m.mark key state).cells.lookup cell = if cell = key.state then some state else m.cells.lookup cell :=
  lookup_bindKey _ _ _ _

theorem moduleState_mark (m : Machine) (key other : CellKey) (state : Value) :
    (m.mark key state).moduleState other = if other = key then state else m.moduleState other := by
  unfold moduleState
  rw [lookup_mark]
  simp only [state_inj]
  split <;> rfl

theorem moduleState_trap (m : Machine) (key other : CellKey) :
    (m.trap key).moduleState other =
      if other = key then ModuleState.uninitialised else m.moduleState other :=
  moduleState_mark m key other ModuleState.uninitialised

theorem moduleState_of_lookup (same : m'.cells.lookup key.state = m.cells.lookup key.state) :
    m'.moduleState key = m.moduleState key := by
  unfold moduleState
  rw [same]

/-- Nothing is done about a fault that stopped no initialisation. -/
theorem Trapped.refl (own : root.Raised raised) : Trapped [] raised raised root root where
  bare _ := rfl
  wrapped any := absurd rfl any
  reset _ listed := nomatch listed
  kept _ _ := rfl
  pending := own.pending

/-- The trap of an initialisation around what was caught inside it. -/
theorem Trapped.outer {begun : List CellKey} (own : root.Raised raised)
    (trapped : Trapped begun raised after root shown) (key : CellKey) :
    Trapped (begun ++ [key]) raised (after.trap key) root (after.trap key).context.caught := by
  have pending := trap_pending trapped.pending key
  constructor
  case bare => simp
  case wrapped =>
    intro _
    rw [Context.caught, pending, Option.getD_some]
    by_cases nested : begun = []
    · obtain rfl := trapped.bare nested
      have unwrapped : shown.top.kind ≠ .initializer := by
        intro same
        have known := own.kind
        rw [same] at known
        simp [FaultKind.raised] at known
      exact ⟨after.context.unwind.snapshot, by rw [if_neg unwrapped]⟩
    · obtain ⟨frames, rfl⟩ := trapped.wrapped nested
      exact ⟨frames, by simp [Fault.wrap]⟩
  case reset =>
    intro other listed
    rw [moduleState_trap]
    split
    · rfl
    · rename_i apart
      obtain inner | same := List.mem_append.mp listed
      · exact trapped.reset other inner
      · exact absurd (List.mem_singleton.mp same) apart
  case kept =>
    intro cell apart
    show (after.mark key _).cells.lookup cell = _
    rw [lookup_mark, if_neg (apart key (by simp))]
    exact trapped.kept cell fun other listed => apart other (List.mem_append_left _ listed)
  case pending => rw [Context.caught, pending, Option.getD_some]

/-- Steps that leave all traps alone. -/
theorem tracks_of_traps {x : Run α}
    (ok : ∀ {m value m'}, x m = .ok value m' → m'.context.traps = m.context.traps)
    (error : ∀ {m fault m'}, x m = .error fault m' → m'.context.traps = m.context.traps ∧ fault.Raised m') :
    Tracks x x := by
  constructor
  case ok => exact fun ended => ⟨ended, ok ended⟩
  case error =>
    intro m root raised ended
    obtain ⟨same, own⟩ := error ended
    refine ⟨own, [], root, raised, ?_, ended, same, .refl own⟩
    rw [List.nil_append, Context.underway, Context.underway, same]

theorem tracks_tame {x : Run α} (tame : Tame x) : Tracks x x :=
  tracks_of_traps (fun ended => (tame.ok ended).traps)
    fun ended => ⟨(tame.error ended).1.traps, (tame.error ended).2⟩

theorem Tracks.bind {x y : Run α} {f g : α → Run β} (first : Tracks x y)
    (rest : ∀ value, Tracks (f value) (g value)) : Tracks (x >>= f) (y >>= g) := by
  constructor
  case ok =>
    intro m value m' run
    rw [run_bind] at run
    cases result : y m with
    | error fault after => simp [result] at run
    | ok own after =>
      simp only [result] at run
      obtain ⟨same, traps⟩ := first.ok result
      obtain ⟨same', traps'⟩ := (rest own).ok run
      exact ⟨by rw [run_bind, same]; exact same', traps'.trans traps⟩
  case error =>
    intro m root raised run
    rw [run_bind] at run
    cases result : y m with
    | error fault after =>
      simp only [result] at run
      cases run
      obtain ⟨own, begun, shown, after, underway, same, traps, trapped⟩ := first.error result
      exact ⟨own, begun, shown, after, underway, by rw [run_bind, same], traps, trapped⟩
    | ok own middle =>
      simp only [result] at run
      obtain ⟨same, traps⟩ := first.ok result
      obtain ⟨isRaised, begun, shown, after, underway, same', traps', trapped⟩ := (rest own).error run
      refine ⟨isRaised, begun, shown, after, ?_, ?_, traps'.trans traps, trapped⟩
      · rw [underway, Context.underway, traps, Context.underway]
      · rw [run_bind, same]
        exact same'

/-- The initialisation of a module. A fault of its body stops it, and those that the body stopped with it. -/
theorem tracks_initialise {body body' : Run Value} (key : CellKey) (run : Tracks body body') :
    Tracks (initialise key body) (openInitialise key body') := by
  constructor
  case ok =>
    intro m value m' ended
    rw [run_openInitialise] at ended
    rw [run_initialise]
    split at ended
    · rename_i fresh
      rw [if_pos fresh]
      cases result : body' (m.entered key) with
      | error fault after => simp [result] at ended
      | ok own after =>
        simp only [result] at ended
        cases ended
        obtain ⟨same, traps⟩ := run.ok result
        exact ⟨by rw [same], congrArg List.tail traps⟩
    · rename_i known
      cases ended
      exact ⟨by rw [if_neg known], rfl⟩
  case error =>
    intro m root raised ended
    rw [run_openInitialise] at ended
    rw [run_initialise]
    split at ended
    · rename_i fresh
      rw [if_pos fresh]
      cases result : body' (m.entered key) with
      | ok own after => simp [result] at ended
      | error fault stopped =>
        simp only [result] at ended
        cases ended
        obtain ⟨own, begun, shown, after, underway, same, traps, trapped⟩ := run.error result
        refine ⟨own, begun ++ [key], _, _, ?_, by rw [same], ?_, trapped.outer own key⟩
        · rw [underway, List.append_assoc]
          rfl
        · have outer : after.context.unwind.traps = m.context.traps := by
            unfold Context.unwind
            rw [traps]
            rfl
          exact (Context.wrapPending_traps _).trans outer
    · cases ended

theorem tracks_congruence : Congruence fun _ => Tracks := ⟨tracks_tame, Tracks.bind⟩

variable {call other : Caller} {images : Array Image} {image : Image} {index : Nat}

theorem tracks_framed (calls : ∀ symbol args, Tracks (call symbol args) (other symbol args)) (frame : String)
    {body body' : Run Value} (run : Tracks body body') :
    Tracks (framed call frame body) (framed other frame body') :=
  (calls _ _).bind fun _ => run.bind fun _ => (calls _ _).bind fun _ => tracks_tame (tame_pure _)

theorem tracks_writeCell (key : CellKey) (value : Value) : Tracks (writeCell key value) (writeCell key value) :=
  tracks_of_traps (by rintro m _ _ ⟨⟩; rfl) (by rintro _ _ _ ⟨⟩)

theorem tracks_enter (frame : Option String) : Tracks (enter frame) (enter frame) := by
  refine tracks_of_traps (fun {m value m'} ended => ?_) fun {m fault m'} ended => ?_
  all_goals
    rw [run_enter] at ended
    split at ended
    next => cases ended <;> exact ⟨rfl, by simp [FaultKind.raised, newFault], rfl, rfl, rfl⟩
    next =>
      split at ended
      next => cases ended <;> exact ⟨rfl, by simp [FaultKind.raised, newFault], rfl, rfl, rfl⟩
      next => cases ended <;> rfl

theorem tracks_outOfRoom : Tracks (outOfRoom : Run α) outOfRoom := by
  have marked : Tracks (goAstray .stack) (goAstray .stack) :=
    tracks_of_traps (by rintro m _ _ ⟨⟩; rfl) (by rintro _ _ _ ⟨⟩)
  exact marked.bind fun _ => tracks_tame (tame_raise (by decide) _)

theorem tracks_callPrimitive (primitive : Primitive) (args : List Value) :
    Tracks (callPrimitive primitive args) (callPrimitive primitive args) := by
  cases primitive with
  | enter =>
    refine (tracks_tame (tame_needArgs _ _)).bind fun _ => (tracks_tame tame_get).bind fun m => ?_
    exact (tracks_enter _).bind fun _ => tracks_tame (tame_pure _)
  | leave =>
    refine (tracks_tame (tame_needArgs _ _)).bind fun _ => (tracks_tame tame_get).bind fun m => ?_
    refine Tracks.bind ?_ fun _ => tracks_tame (tame_pure _)
    exact tracks_of_traps (by rintro m _ _ ⟨⟩; rfl) (by rintro _ _ _ ⟨⟩)
  | _ => exact tracks_tame (tame_callPrimitive (by decide) args)

theorem tracks_callProcedure (calls : ∀ symbol args, Tracks (call symbol args) (other symbol args))
    (initialises : Bool) (index : Nat) (procedure : Procedure) (args : List Value) :
    Tracks (callProcedure call initialises index procedure args)
      (openProcedure other initialises index procedure args) := by
  rw [callProcedure_eq, openProcedure_eq]
  refine tracks_congruence.procedureWith initialise openInitialise initialises index args ?_ ?_ ?_ ?_
  · exact fun _ frame _ _ run => tracks_framed calls frame run
  · exact fun key _ _ run => tracks_initialise key run
  · exact fun symbol _ args => calls symbol args
  · exact fun _ _ _ => tracks_writeCell _ _

/-- A call does what the same call without catching does. The induction is on the number of calls that may
stand inside one another. -/
theorem tracks_callTarget (images : Array Image) (fuel : Nat) (target : Target) (args : List Value) :
    Tracks (callTarget images fuel target args) (openTarget images fuel target args) := by
  induction fuel generalizing target args with
  | zero => exact tracks_outOfRoom
  | succ fuel ih =>
    unfold callTarget openTarget
    cases target with
    | primitive own => exact tracks_callPrimitive own args
    | foreign function => exact tracks_tame (tame_withWords args function)
    | procedure self symbol =>
      dsimp only
      cases images[self]? with
      | none => exact tracks_tame (tame_pure _)
      | some image =>
        dsimp only
        cases image.artifact.procedures.lookup symbol with
        | none => exact tracks_tame (tame_pure _)
        | some procedure =>
          refine tracks_callProcedure (fun symbol args => ?_) _ _ _ _
          cases image.target? self symbol with
          | none => exact tracks_tame (tame_pure _)
          | some target => exact ih target args

end ScriptShell.Machine
