import ScriptShell.Machine.Evaluation

/-! The steps that code is made of. All of them but those that open and close frames, write cells or
initialise modules are tame: whether they give a value or raise a fault, cells, frames and traps are as
before, and a fault that they raise says so truthfully. A relation of runs that holds for tame steps and
goes through sequences holds for all code, given that it holds for the calls and the cells of the code. -/
namespace ScriptShell

/-- The kinds of faults that are raised. The other kinds wrap a fault or come from outside. -/
def FaultKind.raised : List FaultKind :=
  [.runtimeError, .arithmeticError, .stackOverflow, .exit, .interrupted]

/-- A fault as it is raised: without a cause, and with the calls that are active. -/
structure Fault.Raised (fault : Fault) (m : Machine) : Prop where
  kind : fault.top.kind ∈ FaultKind.raised
  causes : fault.causes = []
  frames : fault.top.frames = m.context.snapshot
  pending : m.context.pending = some fault

mutual

/-- The cells that code writes. -/
@[simp]
def Code.writes : Code → List String
  | .word _ | .text _ _ | .bound _ | .self | .cell _ => []
  | .slot object _ => object.writes
  | .call _ args => Code.writesAll args
  | .op _ left right | .both left right | .either left right => left.writes ++ right.writes
  | .not operand => operand.writes
  | .cond condition thenBranch elseBranch =>
    condition.writes ++ thenBranch.writes ++ elseBranch.writes
  | .block body => CodeStep.writesAll body

/-- The cells that a list of code writes. -/
@[simp]
def Code.writesAll : List Code → List String
  | [] => []
  | code :: rest => code.writes ++ Code.writesAll rest

/-- The cells that the steps of a block write. -/
@[simp]
def CodeStep.writesAll : List CodeStep → List String
  | [] => []
  | .run value :: rest | .bind _ value :: rest | .setSlot _ value :: rest =>
    value.writes ++ CodeStep.writesAll rest
  | .setCell symbol value :: rest => symbol :: (value.writes ++ CodeStep.writesAll rest)

end

namespace Procedure

/-- The code of a procedure. -/
def body : Procedure → Code
  | .function _ _ body | .method _ _ body | .construct _ _ _ _ body | .ensure _ _ body => body

/-- Accessors have no frame. -/
def isBare : Procedure → Bool
  | .function none _ _ => true
  | _ => false

end Procedure

namespace Machine

/-- The machine that a run leaves, whether it gives a value or a fault. -/
def left : EStateM.Result Fault Machine α → Machine
  | .ok _ m | .error _ m => m

/-- Two machines with the same cells, frames and traps. Where the second has run out of room for calls, the
first had. -/
structure Alike (m m' : Machine) : Prop where
  cells : m'.cells = m.cells
  frames : m'.context.frames = m.context.frames
  traps : m'.context.traps = m.context.traps
  room : m'.astray = some .stack → m.astray = some .stack

theorem Alike.refl (m : Machine) : m.Alike m := ⟨rfl, rfl, rfl, id⟩

theorem Alike.trans {m₁ m₂ m₃ : Machine} (first : m₁.Alike m₂) (second : m₂.Alike m₃) : m₁.Alike m₃ :=
  ⟨second.cells.trans first.cells, second.frames.trans first.frames, second.traps.trans first.traps,
    fun out => first.room (second.room out)⟩

/-- Alike, and the same fault is on its way. -/
structure Quiet (m m' : Machine) : Prop extends Alike m m' where
  pending : m'.context.pending = m.context.pending

theorem Quiet.refl (m : Machine) : m.Quiet m := ⟨.refl m, rfl⟩

theorem Quiet.trans {m₁ m₂ m₃ : Machine} (first : m₁.Quiet m₂) (second : m₂.Quiet m₃) : m₁.Quiet m₃ :=
  ⟨first.toAlike.trans second.toAlike, second.pending.trans first.pending⟩

/-- A step that leaves cells, frames and traps alone. -/
structure Tame (x : Run α) : Prop where
  ok : ∀ {m value m'}, x m = .ok value m' → m.Quiet m'
  error : ∀ {m fault m'}, x m = .error fault m' → m.Alike m' ∧ fault.Raised m'

theorem Tame.bind {x : Run α} {f : α → Run β} (first : Tame x) (rest : ∀ value, Tame (f value)) :
    Tame (x >>= f) := by
  constructor
  case ok =>
    intro m value m' run
    rw [run_bind] at run
    cases result : x m with
    | error fault after => simp [result] at run
    | ok own after =>
      simp only [result] at run
      exact (first.ok result).trans ((rest own).ok run)
  case error =>
    intro m fault m' run
    rw [run_bind] at run
    cases result : x m with
    | error own after =>
      simp only [result] at run
      cases run
      exact first.error result
    | ok own after =>
      simp only [result] at run
      have later := (rest own).error run
      exact ⟨(first.ok result).toAlike.trans later.1, later.2⟩

theorem tame_pure (value : α) : Tame (pure value : Run α) :=
  ⟨by rintro m _ _ ⟨⟩; exact .refl m, by rintro _ _ _ ⟨⟩⟩

theorem tame_get : Tame (get : Run Machine) :=
  ⟨by rintro m _ _ ⟨⟩; exact .refl m, by rintro _ _ _ ⟨⟩⟩

theorem tame_modify {f : Machine → Machine} (quiet : ∀ m : Machine, m.Quiet (f m)) : Tame (modify f : Run Unit) :=
  ⟨by rintro m _ _ ⟨⟩; exact quiet m, by rintro _ _ _ ⟨⟩⟩

theorem tame_raise {kind : FaultKind} (own : kind ∈ FaultKind.raised) (message : String) :
    Tame (raise kind message : Run α) :=
  ⟨by rintro _ _ _ ⟨⟩, by rintro m _ _ ⟨⟩; exact ⟨⟨rfl, rfl, rfl, id⟩, own, rfl, rfl, rfl⟩⟩

theorem tame_textAddress (ref : TextRef) : Tame (textAddress ref) := by
  constructor
  case ok =>
    intro m value m' run
    simp only [textAddress, run_bind, run_get] at run
    split at run <;> (cases run; exact ⟨⟨rfl, rfl, rfl, id⟩, rfl⟩)
  case error =>
    intro m fault m' run
    simp only [textAddress, run_bind, run_get] at run
    split at run <;> cases run

theorem tame_address (value : Value) : Tame (address value) := by
  cases value with
  | word word => exact tame_pure word
  | text ref => exact tame_textAddress ref
  | object ref => exact tame_pure _

theorem tame_valueAt (word : Int64) : Tame (do return (← get).valueAt word) :=
  tame_get.bind fun _ => tame_pure _

theorem tame_operate (op : CodeOp) (left right : Value) : Tame (operate op left right) := by
  unfold operate
  split
  · exact tame_pure _
  · exact (tame_address left).bind fun _ => (tame_address right).bind fun _ => tame_valueAt _

theorem tame_countMade : Tame countMade := tame_modify fun _ => ⟨⟨rfl, rfl, rfl, id⟩, rfl⟩

theorem tame_makeText (text : String) : Tame (makeText text) := by
  unfold makeText
  refine tame_countMade.bind fun _ => tame_get.bind fun _ => ?_
  exact Tame.bind (tame_modify fun _ => ⟨⟨rfl, rfl, rfl, id⟩, rfl⟩) fun _ => tame_pure _

theorem tame_allocate (slots : Nat) (className : Value) : Tame (allocate slots className) := by
  unfold allocate
  refine tame_countMade.bind fun _ => tame_get.bind fun _ => ?_
  exact Tame.bind (tame_modify fun _ => ⟨⟨rfl, rfl, rfl, id⟩, rfl⟩) fun _ => tame_pure _

/-- A program that goes astray in memory does not run out of room there. -/
theorem tame_goAstray : Tame (goAstray .memory) := by
  refine tame_modify fun m => ⟨⟨rfl, rfl, rfl, fun out => ?_⟩, rfl⟩
  cases astray : m.astray with
  | none => simp [astray] at out
  | some stray => simpa [astray] using out

theorem tame_needSlot (object : Value) (slot : Nat) : Tame (needSlot object slot) := by
  refine tame_get.bind fun _ => ?_
  split
  · exact tame_pure _
  · exact tame_goAstray

theorem tame_needText (value : Value) : Tame (needText value) := by
  unfold needText
  split
  · exact tame_pure _
  · exact tame_goAstray

theorem tame_readSlot (object : Value) (slot : Nat) : Tame (readSlot object slot) := by
  refine (tame_needSlot object slot).bind fun _ => ?_
  cases object with
  | word _ | text _ => exact tame_pure _
  | object _ => exact tame_get.bind fun _ => tame_pure _

theorem tame_writeSlot (object : Value) (slot : Nat) (value : Value) :
    Tame (writeSlot object slot value) := by
  refine (tame_needSlot object slot).bind fun _ => ?_
  cases object with
  | word _ | text _ => exact tame_pure _
  | object _ => exact tame_modify fun _ => ⟨⟨rfl, rfl, rfl, id⟩, rfl⟩

theorem tame_readCell (key : CellKey) : Tame (readCell key) := tame_get.bind fun _ => tame_pure _

theorem tame_fillSlots (object : Value) (slots : List Nat) (values : List Value) :
    Tame (fillSlots object slots values) := by
  induction slots generalizing values with
  | nil => exact tame_pure ()
  | cons slot slots ih =>
    cases values with
    | nil => exact tame_pure ()
    | cons value values => exact (tame_writeSlot object slot value).bind fun _ => ih values

theorem tame_withWords (values : List Value) (f : List Int64 → Int64) : Tame (withWords values f) := by
  have words : Tame (values.mapM address) := by
    induction values with
    | nil => exact tame_pure _
    | cons value rest ih =>
      rw [List.mapM_cons]
      exact (tame_address value).bind fun _ => ih.bind fun _ => tame_pure _
  exact words.bind fun _ => tame_valueAt _

theorem tame_showObject (object : Value) : Tame (showObject object) := by
  unfold showObject
  split
  · exact (tame_readSlot _ 0).bind fun _ => (tame_needText _).bind fun _ => tame_makeText _
  · split
    · exact tame_pure _
    · exact tame_goAstray.bind fun _ => tame_pure _

theorem tame_needArgs (primitive : Primitive) (args : List Value) : Tame (needArgs primitive args) := by
  unfold needArgs
  split
  · exact tame_pure _
  · exact tame_goAstray

/-- The functions that change the active calls. -/
def frameSymbols : List String := [Primitive.enter.symbol, Primitive.leave.symbol]

theorem tame_applyPrimitive {primitive : Primitive} (plain : primitive.symbol ∉ frameSymbols)
    (args : List Value) : Tame (applyPrimitive primitive args) := by
  refine tame_get.bind fun machine => ?_
  cases primitive with
  | enter | leave => simp [frameSymbols] at plain
  | initModule => exact tame_pure _
  | alloc =>
    refine (tame_address _).bind fun slots => ?_
    dsimp only
    split
    · exact tame_goAstray.bind fun _ => tame_allocate _ _
    · exact tame_allocate _ _
  | concat => exact (tame_needText _).bind fun _ => (tame_needText _).bind fun _ => tame_makeText _
  | strEq => exact (tame_needText _).bind fun _ => (tame_needText _).bind fun _ => tame_pure _
  | showStr => exact (tame_needText _).bind fun _ => tame_makeText _
  | intToStr | showInt => exact (tame_address _).bind fun _ => tame_makeText _
  | showObj => exact tame_showObject _
  | div | mod =>
    refine (tame_address _).bind fun left => (tame_address _).bind fun right => ?_
    refine Tame.bind ?_ fun _ => tame_pure _
    first | unfold divide | unfold remainder
    split
    · exact tame_raise (by decide) _
    · split <;> exact tame_pure _
  | exit => exact tame_raise (by decide) _
  | fail => exact (tame_needText _).bind fun _ => tame_raise (by decide) _
  | println =>
    refine (tame_needText _).bind fun _ => (tame_modify fun machine => ?_).bind fun _ => tame_pure _
    split <;> exact ⟨⟨rfl, rfl, rfl, id⟩, rfl⟩

theorem tame_callPrimitive {primitive : Primitive} (plain : primitive.symbol ∉ frameSymbols)
    (args : List Value) : Tame (callPrimitive primitive args) :=
  (tame_needArgs primitive args).bind fun _ => tame_applyPrimitive plain args

/-- The fault that is raised at the present calls. -/
def newFault (m : Machine) (kind : FaultKind) (message : String) : Fault := ⟨⟨kind, message, m.context.snapshot⟩, []⟩

/-- The machine where a fault was raised. -/
def halted (m : Machine) (fault : Fault) : Machine :=
  { m with context := { m.context with pending := some fault } }

theorem run_enter (frame : Option String) (m : Machine) :
    enter frame m =
      if m.interrupt then
        let calm := { m with interrupt := false }
        .error (calm.newFault .interrupted "interrupted") (calm.halted (calm.newFault .interrupted "interrupted"))
      else if Context.maxDepth ≤ m.context.depth then
        .error (m.newFault .stackOverflow "call depth exceeded")
          (m.halted (m.newFault .stackOverflow "call depth exceeded"))
      else .ok () { m with context := m.context.push frame } := by
  unfold enter
  rw [run_bind, run_get]
  dsimp only
  split
  · rfl
  · split <;> rfl

variable {call : Caller}

theorem run_framed {body : Run Value} (frame : String) (m : Machine)
    (entered : ∀ args, call Primitive.enter.symbol args = callPrimitive .enter args)
    (left : ∀ args, call Primitive.leave.symbol args = callPrimitive .leave args) :
    framed call frame body m =
      match enter (some frame) m with
      | .error fault after => .error fault after
      | .ok _ opened =>
        match body opened with
        | .error fault after => .error fault after
        | .ok value after => .ok value { after with context := after.context.pop } := by
  have opens : callPrimitive .enter [.ofText frame] m = (enter (some frame) >>= fun _ => pure .zero) m := rfl
  unfold framed
  rw [run_bind, entered, opens, run_bind]
  cases enter (some frame) m with
  | error fault after => rfl
  | ok _ opened =>
    have pure : (pure Value.zero : Run Value) opened = .ok .zero opened := rfl
    dsimp only
    rw [pure]
    dsimp only
    rw [run_bind]
    cases body opened with
    | error fault after => rfl
    | ok value after =>
      dsimp only
      rw [run_bind, left]
      rfl

/-- A relation of runs that holds for tame steps and goes through sequences. -/
structure Congruence (R : (α : Type) → Run α → Run α → Prop) : Prop where
  tame : ∀ {α : Type} {x : Run α}, Tame x → R α x x
  bind : ∀ {α β : Type} {x y : Run α} {f g : α → Run β}, R α x y → (∀ value, R β (f value) (g value)) →
    R β (x >>= f) (y >>= g)

namespace Congruence

variable {R : (α : Type) → Run α → Run α → Prop} (congruence : Congruence R) {call other : Caller}
include congruence

/-- Calls of the given symbols through two callers are related. -/
def Calls (R : (α : Type) → Run α → Run α → Prop) (call other : Caller) (symbols : List String) : Prop :=
  ∀ symbol ∈ symbols, ∀ args, R _ (call symbol args) (other symbol args)

/-- Writing the given cells is related to itself. -/
def Writes (R : (α : Type) → Run α → Run α → Prop) (image : Nat) (symbols : List String) : Prop :=
  ∀ symbol ∈ symbols, ∀ value, R _ (writeCell ⟨image, symbol⟩ value) (writeCell ⟨image, symbol⟩ value)

omit congruence in
theorem Calls.left {first rest : List String} (calls : Calls R call other (first ++ rest)) :
    Calls R call other first :=
  fun symbol listed => calls symbol (List.mem_append_left _ listed)

omit congruence in
theorem Calls.right {first rest : List String} (calls : Calls R call other (first ++ rest)) :
    Calls R call other rest :=
  fun symbol listed => calls symbol (List.mem_append_right _ listed)

omit congruence in
theorem Writes.left {first rest : List String} (writes : Writes R image (first ++ rest)) :
    Writes R image first :=
  fun symbol listed => writes symbol (List.mem_append_left _ listed)

omit congruence in
theorem Writes.right {first rest : List String} (writes : Writes R image (first ++ rest)) :
    Writes R image rest :=
  fun symbol listed => writes symbol (List.mem_append_right _ listed)

mutual

/-- Code is related to itself if its calls and its cells are. -/
theorem eval : ∀ (code : Code) {activation : Activation}, Calls R call other code.calls →
    Writes R activation.image code.writes →
    R _ (Machine.eval call activation code) (Machine.eval other activation code)
  | .word _, _, _, _ | .text _ _, _, _, _ | .bound _, _, _, _ | .self, _, _, _ => by
    unfold Machine.eval
    exact congruence.tame (tame_pure _)
  | .cell symbol, activation, _, _ => by
    unfold Machine.eval
    exact congruence.tame (tame_readCell _)
  | .slot object slot, _, calls, writes => by
    unfold Machine.eval
    exact congruence.bind (eval object calls writes) fun _ => congruence.tame (tame_readSlot _ slot)
  | .call symbol args, _, calls, writes => by
    unfold Machine.eval
    have own : Calls R call other (Code.callsAll args) :=
      fun symbol listed => calls symbol (List.mem_cons_of_mem _ listed)
    refine congruence.bind (evalAll args own writes) fun values => ?_
    exact calls symbol List.mem_cons_self values
  | .op op left right, _, calls, writes => by
    unfold Machine.eval
    refine congruence.bind (eval _ calls.left writes.left) fun one => ?_
    refine congruence.bind (eval _ calls.right writes.right) fun two => ?_
    exact congruence.tame (tame_operate op one two)
  | .not operand, _, calls, writes => by
    unfold Machine.eval
    exact congruence.bind (eval operand calls writes) fun _ => congruence.tame (tame_pure _)
  | .both left right, _, calls, writes => by
    unfold Machine.eval
    refine congruence.bind (eval _ calls.left writes.left) fun one => ?_
    split
    · refine congruence.bind (eval _ calls.right writes.right) fun _ => congruence.tame (tame_pure _)
    · exact congruence.tame (tame_pure _)
  | .either left right, _, calls, writes => by
    unfold Machine.eval
    refine congruence.bind (eval _ calls.left writes.left) fun one => ?_
    split
    · exact congruence.tame (tame_pure _)
    · refine congruence.bind (eval _ calls.right writes.right) fun _ => congruence.tame (tame_pure _)
  | .cond condition thenBranch elseBranch, _, calls, writes => by
    unfold Machine.eval
    refine congruence.bind (eval _ calls.left.left writes.left.left) fun tested => ?_
    split
    · exact eval _ calls.left.right writes.left.right
    · exact eval _ calls.right writes.right
  | .block body, _, calls, writes => by
    unfold Machine.eval
    exact evalBody _ calls writes

theorem evalAll : ∀ (args : List Code) {activation : Activation}, Calls R call other (Code.callsAll args) →
    Writes R activation.image (Code.writesAll args) →
    R _ (Machine.evalAll call activation args) (Machine.evalAll other activation args)
  | [], _, _, _ => by
    unfold Machine.evalAll
    exact congruence.tame (tame_pure _)
  | _ :: _, _, calls, writes => by
    unfold Machine.evalAll
    refine congruence.bind (eval _ calls.left writes.left) fun _ => ?_
    exact congruence.bind (evalAll _ calls.right writes.right) fun _ => congruence.tame (tame_pure _)

theorem evalBody : ∀ (steps : List CodeStep) {activation : Activation} {last : Value},
    Calls R call other (CodeStep.callsAll steps) →
    Writes R activation.image (CodeStep.writesAll steps) →
    R _ (Machine.evalBody call activation last steps) (Machine.evalBody other activation last steps)
  | [], _, _, _, _ => by
    unfold Machine.evalBody
    exact congruence.tame (tame_pure _)
  | .run _ :: _, _, _, calls, writes => by
    unfold Machine.evalBody
    exact congruence.bind (eval _ calls.left writes.left) fun _ => evalBody _ calls.right writes.right
  | .bind _ _ :: _, _, _, calls, writes => by
    unfold Machine.evalBody
    exact congruence.bind (eval _ calls.left writes.left) fun _ => evalBody _ calls.right writes.right
  | .setCell symbol _ :: _, _, _, calls, writes => by
    unfold Machine.evalBody
    have later : Writes R _ (_ ++ _) := fun own listed => writes own (List.mem_cons_of_mem _ listed)
    refine congruence.bind (eval _ calls.left later.left) fun value => ?_
    refine congruence.bind (writes symbol List.mem_cons_self value) fun _ => ?_
    exact evalBody _ calls.right later.right
  | .setSlot _ _ :: _, _, _, calls, writes => by
    unfold Machine.evalBody
    refine congruence.bind (eval _ calls.left writes.left) fun _ => ?_
    refine congruence.bind (congruence.tame (tame_writeSlot _ _ _)) fun _ => ?_
    exact evalBody _ calls.right writes.right

end

end Congruence

/-- The call of a procedure, given what it is to initialise a module. -/
def procedureWith (init : CellKey → Run Value → Run Unit) (call : Caller) (initialises : Bool) (image : Nat)
    (procedure : Procedure) (args : List Value) : Run Value :=
  match procedure with
  | .ensure owner frame body => do
    if initialises then
      init ⟨image, owner⟩ (framed call frame (eval call { image } body))
    return .zero
  | other => callProcedure call initialises image other args

theorem callProcedure_eq (call : Caller) (initialises : Bool) (image : Nat) (procedure : Procedure)
    (args : List Value) : callProcedure call initialises image procedure args =
      procedureWith initialise call initialises image procedure args := by
  cases procedure <;> rfl

/-- Calls of a procedure are related if its frame and its initialisation keep bodies related, and if what
its code calls and writes is related. -/
theorem Congruence.procedureWith {R : (α : Type) → Run α → Run α → Prop} (congruence : Congruence R)
    {call other : Caller} {procedure : Procedure} (init init' : CellKey → Run Value → Run Unit)
    (initialises : Bool) (image : Nat) (args : List Value)
    (frames : procedure.isBare = false → ∀ frame body body', R _ body body' →
      R _ (framed call frame body) (framed other frame body'))
    (inits : ∀ key body body', R _ body body' → R _ (init key body) (init' key body'))
    (calls : Calls R call other (Primitive.alloc.symbol :: procedure.body.calls))
    (writes : Writes R image procedure.body.writes) :
    R _ (procedureWith init call initialises image procedure args)
      (procedureWith init' other initialises image procedure args) := by
  have body : ∀ activation : Activation, activation.image = image →
      R _ (Machine.eval call activation procedure.body) (Machine.eval other activation procedure.body) := by
    rintro activation rfl
    exact congruence.eval _ (fun symbol listed => calls symbol (List.mem_cons_of_mem _ listed)) writes
  cases procedure with
  | function frame params code =>
    cases frame with
    | none => exact body _ rfl
    | some frame => exact frames rfl frame _ _ (body _ rfl)
  | method frame params code => exact frames rfl frame _ _ (body _ rfl)
  | construct frame className slots fields code =>
    refine frames rfl frame _ _ (congruence.bind (calls _ List.mem_cons_self _) fun object => ?_)
    refine congruence.bind (congruence.tame (tame_fillSlots _ _ _)) fun _ => ?_
    exact congruence.bind (body _ rfl) fun _ => congruence.tame (tame_pure _)
  | ensure owner frame code =>
    cases initialises with
    | false => exact congruence.tame (tame_pure _)
    | true =>
      refine congruence.bind ?_ fun _ => congruence.tame (tame_pure _)
      exact inits _ _ _ (frames rfl frame _ _ (body _ rfl))

end Machine

end ScriptShell
