import ScriptShell.Code

/-!
The names that an artifact uses. All its code shares one space of names: a function is declared where its name is
first come to, whether it is defined or called there, with as many parameters as it has there. What comes to the
name later finds that declaration. So a function that is named like something generated may find fewer parameters
than its own, and a call may pass more or fewer than the function has. Variables are in the same space. A function
that is named like one goes by another name, each time its own is come to, so that no call finds it.
-/
namespace ScriptShell

mutual

/-- The functions that code calls, each with the number of its arguments, in the order in which the calls
are generated. -/
def Code.applies : Code → List (String × Nat)
  | .word _ | .text _ _ | .bound _ | .self | .cell _ => []
  | .slot object _ => object.applies
  | .call symbol args => Code.appliesAll args ++ [(symbol, args.length)]
  | .op _ left right | .both left right | .either left right => left.applies ++ right.applies
  | .not operand => operand.applies
  | .cond condition thenBranch elseBranch =>
    condition.applies ++ thenBranch.applies ++ elseBranch.applies
  | .block body => CodeStep.appliesAll body

/-- The functions that a list of code calls. -/
def Code.appliesAll : List Code → List (String × Nat)
  | [] => []
  | code :: rest => code.applies ++ Code.appliesAll rest

/-- The functions that the steps of a block call. -/
def CodeStep.appliesAll : List CodeStep → List (String × Nat)
  | [] => []
  | .run value :: rest | .bind _ value :: rest | .setCell _ value :: rest
  | .setSlot _ value :: rest => value.applies ++ CodeStep.appliesAll rest

end

mutual

/-- The locals that code reads, in their order. -/
def Code.locals : Code → List LocalId
  | .word _ | .text _ _ | .self | .cell _ => []
  | .bound id => [id]
  | .slot object _ => object.locals
  | .call _ args => Code.localsAll args
  | .op _ left right | .both left right | .either left right => left.locals ++ right.locals
  | .not operand => operand.locals
  | .cond condition thenBranch elseBranch =>
    condition.locals ++ thenBranch.locals ++ elseBranch.locals
  | .block body => CodeStep.localsAll body

/-- The locals that a list of code reads. -/
def Code.localsAll : List Code → List LocalId
  | [] => []
  | code :: rest => code.locals ++ Code.localsAll rest

/-- The locals that the steps of a block read. -/
def CodeStep.localsAll : List CodeStep → List LocalId
  | [] => []
  | .run value :: rest | .bind _ value :: rest | .setCell _ value :: rest
  | .setSlot _ value :: rest => value.locals ++ CodeStep.localsAll rest

end

mutual

/-- The cells that code reads or writes, which are variables of its artifact. -/
def Code.cells : Code → List String
  | .word _ | .text _ _ | .bound _ | .self => []
  | .cell symbol => [symbol]
  | .slot object _ => object.cells
  | .call _ args => Code.cellsAll args
  | .op _ left right | .both left right | .either left right => left.cells ++ right.cells
  | .not operand => operand.cells
  | .cond condition thenBranch elseBranch =>
    condition.cells ++ thenBranch.cells ++ elseBranch.cells
  | .block body => CodeStep.cellsAll body

/-- The cells that a list of code reads or writes. -/
def Code.cellsAll : List Code → List String
  | [] => []
  | code :: rest => code.cells ++ Code.cellsAll rest

/-- The cells that the steps of a block read or write. -/
def CodeStep.cellsAll : List CodeStep → List String
  | [] => []
  | .setCell symbol value :: rest => symbol :: (value.cells ++ CodeStep.cellsAll rest)
  | .run value :: rest | .bind _ value :: rest | .setSlot _ value :: rest =>
    value.cells ++ CodeStep.cellsAll rest

end

/-- The variable that holds the first text of an artifact with frames, the name of one. -/
def textSymbol : String := "str"

namespace Procedure

/-- The variables that a procedure comes to. Those of all procedures together are the cells of the modules, since
every value has an accessor that reads its cell, and the first text. -/
def globals : Procedure → List String
  | .function none _ body => body.cells
  | .function (some _) _ body | .method _ _ body | .construct _ _ _ _ body =>
    textSymbol :: body.cells
  | .ensure owner _ body => stateSymbol owner :: textSymbol :: body.cells

/-- Calls with those of a frame around them. -/
def framed (applies : List (String × Nat)) : List (String × Nat) :=
  (Primitive.enter.symbol, 1) :: (applies ++ [(Primitive.leave.symbol, 0)])

/-- The functions that a procedure calls, those around its code included. -/
def applies : Procedure → List (String × Nat)
  | .function none _ body => body.applies
  | .function (some _) _ body | .method _ _ body => framed body.applies
  | .construct _ _ _ _ body => framed ((Primitive.alloc.symbol, 2) :: body.applies)
  | .ensure _ _ body => framed body.applies

/-- How many parameters a procedure has. -/
def arity : Procedure → Nat
  | .function _ params _ => params.length
  | .method _ params _ => params.length + 1
  | .construct _ _ _ fields _ => fields.length
  | .ensure _ _ _ => 0

/-- The functions that a procedure comes to, under its own symbol first. An initialiser is a function of its
own, which stands in front of the one that calls it. -/
def names (symbol : String) : Procedure → List (String × Nat)
  | .ensure owner frame body =>
    (frame, 0) :: (applies (.ensure owner frame body) ++
      [(symbol, 0), (Primitive.initModule.symbol, 2)])
  | procedure => (symbol, procedure.arity) :: procedure.applies

end Procedure

namespace Artifact

/-- The functions that an artifact comes to, in their order. The first entry for a symbol tells with how many
parameters the function is declared. -/
def names (artifact : Artifact) : List (String × Nat) :=
  artifact.procedures.flatMap fun (symbol, procedure) => procedure.names symbol

/-- The variables of an artifact. -/
def globals (artifact : Artifact) : List String :=
  artifact.procedures.flatMap (·.2.globals)

/-- A local that a function reads and that its declaration has no parameter for. -/
def unbound? (artifact : Artifact) : Option LocalId :=
  let declared := artifact.names
  artifact.procedures.findSome? fun (symbol, procedure) =>
    match procedure with
    | .function _ params body =>
      let lost := params.drop ((declared.lookup symbol).getD params.length)
      if artifact.globals.contains symbol then none else body.locals.find? (lost.contains ·)
    | _ => none

/-- All calls pass as many arguments as the declarations of the functions ask for. A call that does not find the
function by its name declares one of its own. -/
def fits (artifact : Artifact) : Bool :=
  let declared := artifact.names
  artifact.procedures.all fun (_, procedure) =>
    procedure.applies.all fun (symbol, count) =>
      declared.lookup symbol = some count || artifact.globals.contains symbol

/-- A function is called by the name of a variable, so that the call finds nothing. -/
def miscalls (artifact : Artifact) : Bool :=
  let globals := artifact.globals
  artifact.procedures.any fun (_, procedure) => procedure.calls.any (globals.contains ·)

/-- The initialisers of the modules of an artifact. -/
def initialisers (artifact : Artifact) : List String :=
  artifact.procedures.filterMap fun (_, procedure) =>
    match procedure with
    | .ensure _ frame _ => some frame
    | _ => none

/-- An artifact has a function that other code can come to by the symbol. Initialisers are not meant to be come
to, and functions that are named like variables cannot be. -/
def offers (artifact : Artifact) (symbol : String) : Bool :=
  (artifact.procedures.lookup symbol).isSome &&
    !(artifact.initialisers ++ artifact.globals).contains symbol

end Artifact

end ScriptShell
