import ScriptShell.Fault

/-!
The machine that runs programs. It holds the objects of all programs, the values of their
modules, and the context of the program at hand: its call frames, what it printed, and how many
texts and objects it made. A step either gives a value or raises a fault; a fault is caught by
the guard around an entry point, or by the initialisation of a module.
-/
namespace ScriptShell

/-- Where a text comes from. Texts that come from different places are at different addresses,
even if they read the same. -/
inductive TextOrigin where
  /-- It stands in loaded code: the number of the code, and the place in its source. -/
  | literal (image place : Nat)
  /-- It was made by a program. -/
  | made (number : Nat)
  /-- It belongs to the machine itself. -/
  | fixed
deriving Repr, DecidableEq, Inhabited

/-- A reference to a text, or to the rest of one behind some first characters. -/
structure TextRef where
  origin : TextOrigin
  content : String
  skipped : Nat := 0
deriving Repr, DecidableEq, Inhabited

/-- What a reference reads as. -/
def TextRef.text (ref : TextRef) : String :=
  if ref.skipped = 0 then ref.content else String.ofList (ref.content.toList.drop ref.skipped)

/-- A reference to an object, or to the rest of one behind some first slots. -/
structure ObjectRef where
  id : Nat
  skipped : Nat := 0
deriving Repr, DecidableEq, Inhabited

/-- Values of a running program. The word zero is also the only value of `Unit`, the empty text
and the null object. -/
inductive Value where
  | word (value : Int64)
  | text (ref : TextRef)
  | object (ref : ObjectRef)
deriving Repr, DecidableEq, Inhabited

namespace Value

/-- The null object, and what storage holds before it is written. -/
def zero : Value := .word 0

/-- A text of the machine itself. -/
def ofText (text : String) : Value := .text ⟨.fixed, text, 0⟩

/-- The number that a value is, if it is one. -/
def toWord : Value → Int64
  | .word value => value
  | _ => 0

/-- A value read as a text. -/
def toText : Value → String
  | .text ref => ref.text
  | _ => ""

/-- The word of a truth value. -/
def ofBool (flag : Bool) : Value := .word (if flag then 1 else 0)

/-- A text, or the empty one. -/
def isText : Value → Bool
  | .text _ => true
  | value => value = zero

/-- Every value but zero counts as true. -/
def isTrue (value : Value) : Bool := value ≠ zero

end Value

/-- What becomes of printed text. -/
inductive Sink where
  | discard
  /-- The text is kept. A line equal to `watched` requests an interrupt. -/
  | keep (watched : Option String)
deriving Repr, DecidableEq

/-- A name in loaded code: the number of the code, and the name. Cells go by such keys, and so do modules. -/
structure CellKey where
  image : Nat
  symbol : String
deriving Repr, DecidableEq

/-- A place where a fault stops. -/
structure Trap where
  /-- The number of calls that were active there. -/
  depth : Nat
  /-- The module whose initialisation stops there; the guard around an entry point has none. -/
  owner : Option CellKey
deriving Repr, DecidableEq

/-- What belongs to the program at hand. -/
structure Context where
  /-- The names of the active calls, innermost last. -/
  frames : Array (Option String) := #[]
  /-- The places where a fault stops, innermost first. -/
  traps : List Trap := []
  /-- The fault that is on its way to a trap. -/
  pending : Option Fault := none
  /-- How many texts and objects were made. -/
  arena : Nat := 0
  sink : Sink := .keep none
  output : String := ""
deriving Repr, DecidableEq

namespace Context

/-- The active calls, innermost first. -/
def snapshot (context : Context) : List String :=
  (context.frames.toList.map (·.getD "<unknown>")).reverse

/-- The number of active calls. -/
def depth (context : Context) : Nat := context.frames.size

/-- How many calls may be active. -/
def maxDepth : Nat := 4096

/-- Adds a call. -/
def push (context : Context) (frame : Option String) : Context :=
  { context with frames := context.frames.push frame }

/-- Removes the innermost call, if there is one. -/
def pop (context : Context) : Context := { context with frames := context.frames.pop }

/-- The modules that are being initialised, innermost first. -/
def underway (context : Context) : List CellKey := context.traps.filterMap (·.owner)

/-- Sets a trap at the active calls. -/
def pushTrap (context : Context) (owner : Option CellKey) : Context :=
  { context with traps := ⟨context.depth, owner⟩ :: context.traps }

/-- Removes the innermost trap. -/
def popTrap (context : Context) : Context := { context with traps := context.traps.tail }

/-- Goes back to the innermost trap and removes it. The calls are cut back to their number there; calls
that are missing have no name. -/
def unwind (context : Context) : Context :=
  match context.traps with
  | [] => context
  | trap :: outer =>
    { context with
      traps := outer
      frames := (context.frames.take trap.depth) ++
        Array.replicate (trap.depth - context.frames.size) none }

/-- The fault to be reported where the machine was stopped. -/
def caught (context : Context) : Fault :=
  context.pending.getD ⟨⟨.runtimeError, "unwound without a pending fault", []⟩, []⟩

/-- Makes the pending fault one of an initialisation, unless it is one already. -/
def wrapPending (context : Context) : Context :=
  match context.pending with
  | none => context
  | some fault =>
    if fault.top.kind = .initializer then context
    else { context with pending := some (fault.wrap ⟨.initializer, "", context.snapshot⟩) }

end Context

/-- The name of the cell that holds how far the initialisation of a module is. -/
def stateSymbol (qualified : String) : String := qualified ++ ".$state"

/-- The cell that holds how far the initialisation of a module is. It is a cell like those of its values. -/
def CellKey.state (key : CellKey) : CellKey := ⟨key.image, stateSymbol key.symbol⟩

namespace ModuleState

/-- The initialisation has not begun, or ended in a fault. -/
def uninitialised : Value := .word 0

/-- It is under way. -/
def initialising : Value := .word 1

/-- It came to its end. -/
def initialised : Value := .word 2

end ModuleState

/-- Where a program leaves what is determined. -/
inductive Stray where
  /-- It used a slot that no object has, or called a function with what that does not take. -/
  | memory
  /-- Calls stand inside one another deeper than there is room for. -/
  | stack
deriving Repr, DecidableEq

/-- The state of a machine. -/
structure Machine where
  /-- The slots of all objects, by number. -/
  objects : Array (List Value) := #[]
  /-- The values of modules, and how far their initialisation is. -/
  cells : List (CellKey × Value) := []
  /-- How many texts programs have made. -/
  textsMade : Nat := 0
  /-- The texts that have an address, by number. -/
  stored : Array (TextOrigin × String) := #[]
  /-- An interrupt is pending. -/
  interrupt : Bool := false
  context : Context := {}
  /-- A program went astray. What the machine did from there on is one way for it to go on. -/
  astray : Option Stray := none
deriving Repr, DecidableEq

/-- Steps of a machine. -/
abbrev Run := EStateM Fault Machine

/-- Binds a key in a map, in place of its former value. -/
def bindKey [DecidableEq κ] (key : κ) (value : α) : List (κ × α) → List (κ × α)
  | [] => [(key, value)]
  | (other, old) :: rest =>
    if key = other then (key, value) :: rest else (other, old) :: bindKey key value rest

namespace Machine

theorem run_bind (x : Run α) (f : α → Run β) (m : Machine) : (x >>= f) m = match x m with
    | .ok value after => f value after
    | .error fault after => .error fault after := by
  show EStateM.bind x f m = _
  unfold EStateM.bind
  cases x m <;> rfl

theorem run_tryCatch (x : Run α) (handle : Fault → Run α) (m : Machine) :
    (tryCatch x handle : Run α) m = match x m with
      | .ok value after => .ok value after
      | .error fault after => handle fault after := by
  show EStateM.tryCatch x handle m = _
  unfold EStateM.tryCatch
  cases x m <;> rfl

theorem run_get (m : Machine) : (get : Run Machine) m = .ok m m := rfl

theorem run_modify (f : Machine → Machine) (m : Machine) :
    (modify f : Run PUnit) m = .ok PUnit.unit (f m) := rfl

/-- Changes the context. -/
def modifyContext (f : Context → Context) : Run Unit :=
  modify fun machine => { machine with context := f machine.context }

/-- Stops the program at the innermost trap, with the pending fault. -/
def stop : Run α := do throw (← get).context.caught

/-- Raises a fault at the present calls. -/
def raise (kind : FaultKind) (message : String) : Run α := do
  modifyContext fun context =>
    { context with pending := some ⟨⟨kind, message, context.snapshot⟩, []⟩ }
  stop

/-- Notes that the program is astray; the first cause stays. -/
def goAstray (stray : Stray) : Run Unit :=
  modify fun machine => { machine with astray := machine.astray <|> some stray }

/-- Ends a call for which there is no room. -/
def outOfRoom : Run α := do
  goAstray .stack
  raise .stackOverflow "call depth exceeded"

/-- Begins a call. A pending interrupt is taken down and ends the program here. -/
def enter (frame : Option String) : Run Unit := do
  let machine ← get
  if machine.interrupt then
    set { machine with interrupt := false }
    raise .interrupted "interrupted"
  if Context.maxDepth ≤ machine.context.depth then raise .stackOverflow "call depth exceeded"
  modifyContext (·.push frame)

/-- Ends a call. -/
def leave : Run Unit := modifyContext (·.pop)

/-- Counts a text or object that was made. -/
def countMade : Run Unit := modifyContext fun context => { context with arena := context.arena + 1 }

/-- A text made by the program. -/
def makeText (text : String) : Run Value := do
  countMade
  let number := (← get).textsMade
  modify fun machine => { machine with textsMade := number + 1 }
  return .text ⟨.made number, text, 0⟩

/-- An object with the given number of slots, at least one. The first holds the name of its
class. -/
def allocate (slots : Nat) (className : Value) : Run Value := do
  countMade
  let id := (← get).objects.size
  modify fun machine =>
    { machine with objects := machine.objects.push (className :: List.replicate (slots - 1) .zero) }
  return .object ⟨id, 0⟩

/-- There is such a slot. -/
def hasSlot (machine : Machine) (object : Value) (slot : Nat) : Bool :=
  match object with
  | .object ref => ref.skipped + slot < (machine.objects.getD ref.id []).length
  | _ => false

/-- Goes astray if there is no such slot. -/
def needSlot (object : Value) (slot : Nat) : Run Unit := do
  unless (← get).hasSlot object slot do goAstray .memory

/-- Goes astray if a value is no text. -/
def needText (value : Value) : Run Unit := do
  unless value.isText do goAstray .memory

/-- The value in a slot of an object. -/
def readSlot (object : Value) (slot : Nat) : Run Value := do
  needSlot object slot
  match object with
  | .object ref => return ((← get).objects.getD ref.id []).getD (ref.skipped + slot) .zero
  | _ => return .zero

/-- Changes a slot of an object. -/
def writeSlot (object : Value) (slot : Nat) (value : Value) : Run Unit := do
  needSlot object slot
  match object with
  | .object ref =>
    modify fun machine =>
      { machine with objects := machine.objects.modify ref.id (·.set (ref.skipped + slot) value) }
  | _ => return ()

/-- The value of a cell; zero before it is written. -/
def readCell (key : CellKey) : Run Value :=
  return ((← get).cells.lookup key).getD .zero

/-- Changes a cell. -/
def writeCell (key : CellKey) (value : Value) : Run Unit :=
  modify fun machine => { machine with cells := bindKey key value machine.cells }

/-- How far a module is. -/
def moduleState (machine : Machine) (key : CellKey) : Value :=
  (machine.cells.lookup key.state).getD ModuleState.uninitialised

/-- Notes how far a module is. -/
def setModule (key : CellKey) (state : Value) : Run Unit := writeCell key.state state

/-- Initialises a module on first use. While it is being initialised, its values may be read as
they are. A fault leaves it uninitialised, so that the next use tries again, and is wrapped once
however many modules were being initialised. -/
def initialise (key : CellKey) (body : Run Value) : Run Unit := do
  if (← get).moduleState key = ModuleState.uninitialised then
    setModule key ModuleState.initialising
    modifyContext (·.pushTrap (some key))
    try
      let _ ← body
      modifyContext (·.popTrap)
      setModule key ModuleState.initialised
    catch _ =>
      setModule key ModuleState.uninitialised
      modifyContext (·.unwind.wrapPending)
      stop

/-- Prints a line. -/
def printLine (text : String) : Run Unit :=
  modify fun machine =>
    match machine.context.sink with
    | .discard => machine
    | .keep watched =>
      { machine with
        interrupt := machine.interrupt || watched = some text
        context := { machine.context with output := machine.context.output ++ text ++ "\n" } }

/-- Opens a guard: the host's frame is added, and a trap is set above it. -/
def openGuard (machine : Machine) : Machine :=
  { machine with context := (machine.context.push (some hostFrame)).pushTrap none }

/-- Closes a guard after a fault, which is taken over. -/
def unwindGuard (machine : Machine) : Machine :=
  { machine with context := { machine.context.unwind.pop with pending := none } }

/-- Closes a guard after a value. -/
def closeGuard (machine : Machine) : Machine :=
  { machine with context := machine.context.popTrap.pop }

/-- Runs a body under a guard, which turns a fault into a result. -/
def guarded (machine : Machine) (body : Run α) : Except Fault α × Machine :=
  match body.run machine.openGuard with
  | .ok value after => (.ok value, after.closeGuard)
  | .error _ after => (.error after.context.caught, after.unwindGuard)

/-- Runs a function in another context, which is handed back with the rest. -/
def inContext (machine : Machine) (context : Context) (f : Machine → α × Machine) :
    α × Context × Machine :=
  match f { machine with context } with
  | (result, after) => (result, after.context, { after with context := machine.context })

/-- Hands out what was printed. -/
def takeOutput (machine : Machine) : String × Machine :=
  (machine.context.output, { machine with context := { machine.context with output := "" } })

end Machine

end ScriptShell
