import ScriptShell.Code
import ScriptShell.Text.Ascii

/-!
Lowering of typed units to code. Values of modules become cells behind accessors that initialise
the module first; values of classes become slots. Lowering follows the typed tree and fails only
where code needs an object of a class and has none.
-/
namespace ScriptShell

/-- Why a typed tree has no code. -/
inductive LowerCause where
  | needsInstance
  | unboundLocal (id : LocalId)
deriving Repr, DecidableEq

/-- The wording of a lowering error. -/
def LowerCause.message : LowerCause → String
  | .needsInstance => "class members need an instance here"
  | .unboundLocal id => "codegen: local #" ++ toString id ++ " is not bound"

/-- A lowering error with the place it points at. -/
structure LowerError where
  cause : LowerCause
  line : Nat
  column : Nat
deriving Repr, DecidableEq

namespace Lowering

/-- Where code stands: the symbols, whether there is a receiver, and the locals bound so far. -/
structure Place where
  symbols : Symbols
  hasSelf : Bool := false
  locals : List LocalId := []

/-- Refuses the unit. -/
def fail (span : Span) (cause : LowerCause) : Except LowerError α :=
  .error ⟨cause, span.line, span.columnStart⟩

/-- The receiver of the code at hand. -/
def self (place : Place) (span : Span) : Except LowerError Code :=
  if place.hasSelf then .ok .self else fail span .needsInstance

/-- The symbol that reads a stored value. -/
def getter (symbol : String) : String := symbol ++ "$get"

/-- The symbol of the flag of a lazy value. -/
def doneFlag (symbol : String) : String := symbol ++ "$done"

/-- The symbol that initialises a module. -/
def ensureSymbol (qualified : String) : String := qualified ++ ".$ensure"

/-- The symbol of the initialiser itself. -/
def initSymbol (qualified : String) : String := qualified ++ ".$init"

/-- The symbol that makes an object. -/
def constructSymbol (qualified : String) : String := qualified ++ ".$new"

/-- The value of a member of a module, or of an external function, read by its bare name. -/
def moduleMember (member : MemberSymbol) : Code :=
  match member.kind with
  | .inlineVal => .word member.constant
  | .val | .lazyVal => .call (getter member.symbol) []
  | .func | .foreign => .call member.symbol []
  | .container => .word 0

/-- The value of a member of an object. The object is computed also when the member does not
depend on it. -/
def classMember (member : MemberSymbol) (object : Code) : Code :=
  match member.kind with
  | .val => .slot object (member.slot.getD 0)
  | .lazyVal => .call (getter member.symbol) [object]
  | .func => .call member.symbol [object]
  | .inlineVal => .block [.run object, .run (.word member.constant)]
  | .foreign => .block [.run object, .run (.call member.symbol [])]
  | .container => .block [.run object, .run (.word 0)]

/-- What a call applies. A receiver that is not passed is computed all the same. -/
inductive Callee where
  | builtinShow
  | function (symbol : String)
  | method (symbol : String) (receiver : Code)
  | detached (symbol : String) (receiver : Code)

/-- The call of a member of an object. -/
def memberCallee (member : MemberSymbol) (receiver : Code) : Callee :=
  if member.kind = .func then .method member.symbol receiver
  else .detached member.symbol receiver

/-- A value as text, shown at a place of the source. -/
def showCode (place : Nat) (type : Ty) (value : Code) : Code :=
  match type with
  | .int => .call "kiln_rt_show_int" [value]
  | .str => .call "kiln_rt_show_str" [value]
  | .object _ => .call "kiln_rt_show_obj" [value]
  | _ => .block [.run value, .run (.text place "()")]

/-- A call with its arguments, the first of which has the given type. -/
def applyCode (place : Nat) (callee : Callee) (type : Ty) (args : List Code) : Code :=
  match callee with
  | .builtinShow => showCode place type (args.headD (.word 0))
  | .function symbol => .call symbol args
  | .method symbol receiver => .call symbol (receiver :: args)
  | .detached symbol receiver => .block [.run receiver, .run (.call symbol args)]

/-- A binary operation on operands of the given type. -/
def binaryCode (op : BinaryOp) (type : Ty) (left right : Code) : Code :=
  match op with
  | .or => .either left right
  | .and => .both left right
  | .equal => if type = .str then .call "kiln_rt_str_eq" [left, right] else .op .equal left right
  | .different =>
    if type = .str then .op .xor (.call "kiln_rt_str_eq" [left, right]) (.word 1)
    else .op .different left right
  | .less => .op .less left right
  | .lessEqual => .op .lessEqual left right
  | .greater => .op .greater left right
  | .greaterEqual => .op .greaterEqual left right
  | .add => .op .add left right
  | .sub => .op .sub left right
  | .concat => .call "kiln_rt_concat" [left, right]
  | .mul => .op .mul left right
  | .div => .call "kiln_rt_div" [left, right]
  | .mod => .call "kiln_rt_mod" [left, right]

/-- What a name stands for. Modules and classes have no value. -/
def nameCode (place : Place) (span : Span) : Ref → Except LowerError Code
  | .bound id => if place.locals.contains id then .ok (.bound id) else fail span (.unboundLocal id)
  | .member key ofClass _ _ => do
    let member := (place.symbols.member? key).getD default
    if ofClass then
      let receiver ← self place span
      match member.kind with
      | .inlineVal | .foreign => return moduleMember member
      | _ => return classMember member receiver
    else return moduleMember member
  | _ => .ok (.word 0)

mutual

/-- The code of an expression. -/
def lowerExpr (place : Place) : TypedExpr → Except LowerError Code
  | .int _ value => .ok (.word (Int64.ofNat value))
  | .str span value => .ok (.text span.start (Ascii.untilNul value))
  | .unit _ => .ok (.word 0)
  | .this span _ => self place span
  | .name span _ _ ref => nameCode place span ref
  | .aliased _ _ _ path => lowerExpr place path
  | .select _ _ object _ ref =>
    match ref with
    | .member key true _ _ => do
      let object ← lowerExpr place object
      return classMember ((place.symbols.member? key).getD default) object
    | .member key false _ _ => return moduleMember ((place.symbols.member? key).getD default)
    | _ => .ok (.word 0)
  | .call span _ callee args => do
    let target ← lowerCallee place callee
    let codes ← lowerAll place args
    return applyCode span.start target ((args.head?.map (·.type)).getD .error) codes
  | .new _ cls _ args => do
    return .call (constructSymbol (place.symbols.get cls).qualified) (← lowerAll place args)
  | .binary _ op left right => do
    let leftCode ← lowerExpr place left
    let rightCode ← lowerExpr place right
    return binaryCode op left.type leftCode rightCode
  | .unary _ op operand => do
    let operand ← lowerExpr place operand
    return match op with
      | .neg => .op .sub (.word 0) operand
      | .not => .not operand
  | .cond _ _ condition thenBranch elseBranch => do
    let condition ← lowerExpr place condition
    let thenCode ← lowerExpr place thenBranch
    match elseBranch with
    | some elseBranch => return .cond condition thenCode (← lowerExpr place elseBranch)
    | none => return .cond condition (.block [.run thenCode, .run (.word 0)]) (.word 0)
  | .block _ _ body => return .block (← lowerBody place body)

/-- What the callee of a call stands for. -/
def lowerCallee (place : Place) : TypedExpr → Except LowerError Callee
  | .aliased _ _ _ path => lowerCallee place path
  | .name span _ _ ref =>
    match ref with
    | .member key ofClass _ _ => do
      let member := (place.symbols.member? key).getD default
      if ofClass then
        let receiver ← self place span
        if member.kind = .func then return .method member.symbol receiver
        else return .function member.symbol
      else return .function member.symbol
    | _ => .ok .builtinShow
  | .select _ _ object _ ref =>
    match ref with
    | .member key true _ _ => do
      let receiver ← lowerExpr place object
      return memberCallee ((place.symbols.member? key).getD default) receiver
    | .member key false _ _ =>
      return .function ((place.symbols.member? key).getD default).symbol
    | _ => .ok .builtinShow
  | _ => .ok .builtinShow

/-- The code of expressions one after the other. -/
def lowerAll (place : Place) : List TypedExpr → Except LowerError (List Code)
  | [] => .ok []
  | expr :: rest => do
    let code ← lowerExpr place expr
    return code :: (← lowerAll place rest)

/-- The steps of a block. -/
def lowerBody (place : Place) : List TypedStmt → Except LowerError (List CodeStep)
  | [] => .ok []
  | .val _ _ _ id init :: rest => do
    let init ← lowerExpr place init
    return .bind id init :: (← lowerBody { place with locals := id :: place.locals } rest)
  | .expr value :: rest => do
    let value ← lowerExpr place value
    return .run value :: (← lowerBody place rest)

end

/-- The steps that initialise a module: its strict values and expressions, in their order. -/
def moduleSteps (symbols : Symbols) : List TypedMember → Except LowerError (List CodeStep)
  | [] => .ok []
  | .val decl key init :: rest =>
    if decl.mode = .strict then do
      let code ← lowerExpr { symbols } init
      let symbol := ((symbols.member? key).getD default).symbol
      return .setCell symbol code :: (← moduleSteps symbols rest)
    else moduleSteps symbols rest
  | .expr _ value :: rest => do
    let code ← lowerExpr { symbols } value
    return .run code :: (← moduleSteps symbols rest)
  | _ :: rest => moduleSteps symbols rest

/-- The steps of a constructor behind the storing of its arguments. -/
def classSteps (symbols : Symbols) : List TypedMember → Except LowerError (List CodeStep)
  | [] => .ok []
  | .val decl key init :: rest =>
    if decl.mode = .strict then do
      let code ← lowerExpr { symbols, hasSelf := true } init
      let slot := (((symbols.member? key).getD default).slot).getD 0
      return .setSlot slot code :: (← classSteps symbols rest)
    else classSteps symbols rest
  | .expr _ value :: rest => do
    let code ← lowerExpr { symbols, hasSelf := true } value
    return .run code :: (← classSteps symbols rest)
  | _ :: rest => classSteps symbols rest

/-- The accessor of a strict value of a module. -/
def strictAccessor (qualified symbol : String) : Procedure :=
  .function none [] (.block [.run (.call (ensureSymbol qualified) []), .run (.cell symbol)])

/-- The accessor of a lazy value of a module. -/
def lazyAccessor (qualified symbol : String) (init : Code) : Procedure :=
  .function (some symbol) [] (.block
    [.run (.call (ensureSymbol qualified) []),
      .run (.cond (.cell (doneFlag symbol)) (.word 0)
        (.block [.setCell symbol init, .setCell (doneFlag symbol) (.word 1)])),
      .run (.cell symbol)])

/-- The accessor of a lazy value of a class. -/
def lazyMethod (symbol : String) (slot flag : Nat) (init : Code) : Procedure :=
  .method symbol [] (.block
    [.run (.cond (.slot .self flag) (.word 0)
        (.block [.setSlot slot init, .setSlot flag (.word 1)])),
      .run (.slot .self slot)])

/-- The procedures of a value of a module. -/
def moduleVal (symbols : Symbols) (qualified : String) (decl : ValDecl) (key : MemberKey)
    (init : TypedExpr) : Except LowerError (List (String × Procedure)) := do
  let symbol := ((symbols.member? key).getD default).symbol
  match decl.mode with
  | .inline => return []
  | .strict => return [(getter symbol, strictAccessor qualified symbol)]
  | .lazy =>
    return [(getter symbol, lazyAccessor qualified symbol (← lowerExpr { symbols } init))]

/-- The procedures of a value of a class. -/
def classVal (symbols : Symbols) (decl : ValDecl) (key : MemberKey) (init : TypedExpr) :
    Except LowerError (List (String × Procedure)) := do
  let member := (symbols.member? key).getD default
  if decl.mode = .lazy then
    let code ← lowerExpr { symbols, hasSelf := true } init
    return [(getter member.symbol,
      lazyMethod member.symbol (member.slot.getD 0) (member.flagSlot.getD 0) code)]
  else return []

/-- The procedure of a function. -/
def funcProcedure (symbols : Symbols) (isClass : Bool) (key : MemberKey) (locals : List LocalId)
    (body : TypedExpr) : Except LowerError (List (String × Procedure)) := do
  let symbol := ((symbols.member? key).getD default).symbol
  let code ← lowerExpr { symbols, hasSelf := isClass, locals } body
  return [(symbol, if isClass then .method symbol locals code
    else .function (some symbol) locals code)]

/-- The slots that the arguments of a constructor go to. -/
def argumentSlots (container : ContainerSymbol) : List Nat :=
  container.params.map fun param => ((container.find? param.name).bind (·.slot)).getD 0

/-- The first procedure of a container: the initialiser of a module, or the constructor of a
class. -/
def leadProcedure (symbols : Symbols) (container : ContainerSymbol) (members : List TypedMember) :
    Except LowerError (String × Procedure) := do
  let qualified := container.qualified
  if container.isClass then
    let symbol := constructSymbol qualified
    return (symbol, .construct symbol container.name container.slotCount (argumentSlots container)
      (.block (← classSteps symbols members)))
  else
    return (ensureSymbol qualified,
      .ensure qualified (initSymbol qualified) (.block (← moduleSteps symbols members)))

/-- The initialiser of a module as a function that is called by its symbol. It is, if a function of the module
goes by that symbol: the initialiser stands in front of it and answers for it. -/
def ownInitialiser (symbols : Symbols) (members : List TypedMember) :
    Procedure → List (String × Procedure)
  | .ensure _ frame body =>
    let shadows : TypedMember → Bool
      | .func _ key _ _ => ((symbols.member? key).getD default).symbol = frame
      | _ => false
    if members.any shadows then
      [(frame, .function (some frame) [] (.block [.run body, .run (.word 0)]))]
    else []
  | _ => []

mutual

/-- The procedures of a container and of those nested in it. -/
def lowerContainer (symbols : Symbols) :
    TypedContainer → Except LowerError (List (String × Procedure))
  | .mk _ id members => do
    let container := symbols.get id
    let lead ← leadProcedure symbols container members
    let others ← lowerMembers symbols container members
    return lead :: (ownInitialiser symbols members lead.2 ++ others)

/-- The procedures of members, in their order. -/
def lowerMembers (symbols : Symbols) (container : ContainerSymbol) :
    List TypedMember → Except LowerError (List (String × Procedure))
  | [] => .ok []
  | .val decl key init :: rest => do
    let first ← if container.isClass then classVal symbols decl key init
      else moduleVal symbols container.qualified decl key init
    return first ++ (← lowerMembers symbols container rest)
  | .func _ key locals body :: rest => do
    let first ← funcProcedure symbols container.isClass key locals body
    return first ++ (← lowerMembers symbols container rest)
  | .container nested :: rest => do
    let first ← lowerContainer symbols nested
    return first ++ (← lowerMembers symbols container rest)
  | .imports _ :: rest | .foreign _ _ :: rest | .expr _ _ :: rest =>
    lowerMembers symbols container rest

end

/-- The artifacts of a unit, one for each item. -/
def lowerProgram (symbols : Symbols) (program : TypedProgram) :
    Except LowerError (List Artifact) :=
  program.items.mapM fun item => do
    return ⟨item.source.name, ← lowerContainer symbols item⟩

end Lowering

end ScriptShell
