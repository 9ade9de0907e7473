import ScriptShell.Code
import ScriptShell.Machine.Primitive
import ScriptShell.Toolchain

/-!
Evaluation of code. Code is evaluated by recursion on its structure, where calls are handed to a
function of their own; that function goes down with the number of calls that may stand inside
one another. Frames are kept by the primitive functions, which code calls by symbol like any
other function: a library that provides these symbols takes their place, and with them goes the
limit on active calls.
-/
namespace ScriptShell

/-- What a symbol is bound to: a procedure of loaded code, a function of a library or of the
process, or a primitive function. -/
inductive Target where
  | procedure (image : Nat) (symbol : String)
  | foreign (function : Foreign)
  | primitive (primitive : Primitive)

/-- How far the linking of loaded code is. -/
inductive LinkState where
  | unlinked
  /-- The symbols it calls are bound. -/
  | linked (bindings : List (String × Target))
  /-- Something it leads to was missing. -/
  | failed

instance (target : Option Target) (primitive : Primitive) :
    Decidable (target = some (.primitive primitive)) :=
  match target with
  | some (.primitive own) => decidable_of_iff (own = primitive) (by simp)
  | some (.procedure _ _) | some (.foreign _) | none => isFalse (by simp)

instance : (state : LinkState) → Decidable (state = .unlinked)
  | .unlinked => isTrue rfl
  | .linked _ | .failed => isFalse nofun

instance : (state : LinkState) → Decidable (state = .failed)
  | .failed => isTrue rfl
  | .linked _ | .unlinked => isFalse nofun

/-- What symbols are bound to in a state. -/
def LinkState.bindings : LinkState → List (String × Target)
  | .linked bindings => bindings
  | .unlinked | .failed => []

/-- Loaded code: an artifact, and how far its linking is. -/
structure Image where
  artifact : Artifact
  link : LinkState := .unlinked

namespace Image

/-- What a symbol that the code calls is bound to; its own procedures come first. -/
def target? (image : Image) (self : Nat) (symbol : String) : Option Target :=
  if (image.artifact.procedures.lookup symbol).isSome then some (.procedure self symbol)
  else image.link.bindings.lookup symbol

end Image

namespace Machine

/-- The result of an operation on values. References count by their addresses. -/
def operate (op : CodeOp) (left right : Value) : Run Value := do
  match left, right with
  | .word left, .word right => return .word (op.apply left right)
  | left, right => do
    let left ← address left
    let right ← address right
    return (← get).valueAt (op.apply left right)

/-- Calls of code by symbol. -/
abbrev Caller := String → List Value → Run Value

/-- What code sees of the call it belongs to. -/
structure Activation where
  image : Nat
  self : Value := .zero
  locals : List (LocalId × Value) := []

mutual

/-- The value of code. -/
def eval (call : Caller) (activation : Activation) : Code → Run Value
  | .word value => return .word value
  | .text place value => return .text ⟨.literal activation.image place, value, 0⟩
  | .bound id => return (activation.locals.lookup id).getD .zero
  | .self => return activation.self
  | .cell symbol => readCell ⟨activation.image, symbol⟩
  | .slot object slot => do readSlot (← eval call activation object) slot
  | .call symbol args => do call symbol (← evalAll call activation args)
  | .op op left right => do
    let left ← eval call activation left
    let right ← eval call activation right
    operate op left right
  | .not operand => do return .ofBool !(← eval call activation operand).isTrue
  | .both left right => do
    if (← eval call activation left).isTrue then
      return .ofBool (← eval call activation right).isTrue
    else return .zero
  | .either left right => do
    if (← eval call activation left).isTrue then return .ofBool true
    else return .ofBool (← eval call activation right).isTrue
  | .cond condition thenBranch elseBranch => do
    if (← eval call activation condition).isTrue then eval call activation thenBranch
    else eval call activation elseBranch
  | .block body => evalBody call activation .zero body

/-- The values of code, from left to right. -/
def evalAll (call : Caller) (activation : Activation) : List Code → Run (List Value)
  | [] => return []
  | code :: rest => do
    let value ← eval call activation code
    return value :: (← evalAll call activation rest)

/-- The value of a block whose last step so far gave `last`. -/
def evalBody (call : Caller) (activation : Activation) (last : Value) :
    List CodeStep → Run Value
  | [] => return last
  | .run value :: rest => do
    let value ← eval call activation value
    evalBody call activation value rest
  | .bind id value :: rest => do
    let value ← eval call activation value
    evalBody call { activation with locals := (id, value) :: activation.locals } .zero rest
  | .setCell symbol value :: rest => do
    writeCell ⟨activation.image, symbol⟩ (← eval call activation value)
    evalBody call activation .zero rest
  | .setSlot slot value :: rest => do
    writeSlot activation.self slot (← eval call activation value)
    evalBody call activation .zero rest

end

/-- Stores arguments in slots of an object. -/
def fillSlots (object : Value) : List Nat → List Value → Run Unit
  | slot :: slots, value :: values => do
    writeSlot object slot value
    fillSlots object slots values
  | _, _ => return ()

/-- Runs a body with a frame around it. -/
def framed (call : Caller) (frame : String) (body : Run Value) : Run Value := do
  let _ ← call Primitive.enter.symbol [.ofText frame]
  let value ← body
  let _ ← call Primitive.leave.symbol []
  return value

/-- Calls a procedure of loaded code. Modules stay as they are where their initialisation is not
the primitive one. -/
def callProcedure (call : Caller) (initialises : Bool) (image : Nat) (procedure : Procedure)
    (args : List Value) : Run Value :=
  match procedure with
  | .function none params body => eval call { image, locals := params.zip args } body
  | .function (some frame) params body =>
    framed call frame (eval call { image, locals := params.zip args } body)
  | .method frame params body =>
    framed call frame
      (eval call { image, self := args.headD .zero, locals := params.zip args.tail } body)
  | .construct frame className slots fields body =>
    framed call frame do
      let object ← call Primitive.alloc.symbol [.word (Int64.ofNat slots), .ofText className]
      fillSlots object fields args
      let _ ← eval call { image, self := object } body
      return object
  | .ensure owner frame body => do
    if initialises then
      initialise ⟨image, owner⟩ (framed call frame (eval call { image } body))
    return .zero

/-- Calls what a symbol is bound to. `fuel` bounds the number of calls inside one another. -/
def callTarget (images : Array Image) : Nat → Target → List Value → Run Value
  | 0, _, _ => outOfRoom
  | fuel + 1, target, args =>
    match target with
    | .primitive primitive => callPrimitive primitive args
    | .foreign function => withWords args function
    | .procedure self symbol =>
      match images[self]? with
      | none => return .zero
      | some image =>
        match image.artifact.procedures.lookup symbol with
        | none => return .zero
        | some procedure =>
          let initialises :=
            image.target? self Primitive.initModule.symbol = some (.primitive .initModule)
          callProcedure (fun symbol args =>
            match image.target? self symbol with
            | some target => callTarget images fuel target args
            | none => return .zero) initialises self procedure args

/-- How many calls may stand inside one another. Where frames are kept, their limit is reached
first: between two framed calls there are at most an accessor and the initialisation behind
it. -/
def callBound : Nat := 1000000

/-- Calls an entry point under a guard. -/
def callEntry (machine : Machine) (images : Array Image) (target : Target) :
    Except Fault Value × Machine :=
  machine.guarded (callTarget images callBound target [])

/-- Calls an entry point under a guard for its value as a word. -/
def callWord (machine : Machine) (images : Array Image) (target : Target) :
    Except Fault Int64 × Machine :=
  machine.guarded (callTarget images callBound target [] >>= address)

end Machine

end ScriptShell
