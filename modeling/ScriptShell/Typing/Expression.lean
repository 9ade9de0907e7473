import ScriptShell.Typing.Conversion

/-!
Types of expressions. Operands are checked from left to right, and the first fault found is the
one reported. The check follows the expression, so it ends.
-/
namespace ScriptShell.Typing

variable {σ : Type}

/-- Requires a value: paths of modules and classes are none. -/
def asValue (typed : TypedExpr) : Check σ TypedExpr := do
  if typed.type.isValue then return typed
  else Check.fail typed.span (.notValue (← Check.text typed.type))

/-- The type of a binary operation whose operands are typed, with texts converted. -/
def checkBinary (env : CheckEnv σ) (visit : Visit σ) (scope : Scope) (span : Span)
    (op : BinaryOp) (left right : TypedExpr) : Check σ TypedExpr := do
  match op with
  | .concat =>
    let left ← toText env visit scope left
    let right ← toText env visit scope right
    return .binary span op left right
  | .equal | .different =>
    if left.type ≠ right.type then
      Check.fail span (.incomparable (← Check.text left.type) (← Check.text right.type))
    return .binary span op left right
  | _ =>
    if left.type ≠ .int || right.type ≠ .int then
      Check.fail span
        (.operandTypes op.name (← Check.text left.type) (← Check.text right.type))
    return .binary span op left right

/-- What a call applies: the built-in function, or a member with its parameters. -/
inductive Applied where
  | builtinShow
  | function (key : MemberKey) (member : MemberSymbol)

/-- The function that a callee names. -/
def applied (span : Span) (callee : TypedExpr) : Check σ Applied := do
  match callee with
  | .name _ _ _ .builtinShow => return .builtinShow
  | _ =>
    match callee.calleeMember? with
    | none => Check.fail span .notFunction
    | some key =>
      match (← Check.symbols).member? key with
      | none => Check.fail span .notFunction
      | some member =>
        if member.kind.isCallable then return .function key member
        else Check.fail span .notFunction

/-- The number of arguments must be that of the parameters. -/
def checkCount (span : Span) (what : String) (expected found : Nat) : Check σ Unit :=
  if expected ≠ found then Check.fail span (.argumentCount what expected found) else return ()

/-- The type of an argument must be that of its parameter. -/
def checkArgument (what : String) (param : Param) (arg : TypedExpr) : Check σ Unit := do
  if arg.type ≠ param.type then
    Check.fail arg.span
      (.argumentMismatch param.name what (← Check.text param.type) (← Check.text arg.type))

/-- The class that the target of `new` names. -/
def targetClass (span : Span) (target : TypedExpr) : Check σ ContainerId := do
  match target.type with
  | .space id =>
    if ((← Check.symbols).get id).isClass then return id
    else Check.fail span (.notClass (← Check.text target.type))
  | type => Check.fail span (.notClass (← Check.text type))

/-- A value of a block: its ascription, if written, must be the type of its initialiser, and its
name must be new in the block. -/
def checkLocal (env : CheckEnv σ) (visit : Visit σ) (scope : Scope) (span : Span) (name : String)
    (ascription : Option TypeRef) (locals : List (String × Local)) (init : TypedExpr) :
    Check σ Local := do
  if let some ref := ascription then
    let declared ← resolveType env visit ({ locals } :: scope) ref
    if declared ≠ init.type then
      Check.fail init.span (.typeMismatch (← Check.text declared) (← Check.text init.type))
  if (locals.lookup name).isSome then Check.fail span (.duplicateLocal name)
  return ⟨← Check.freshLocal, init.type⟩

mutual

/-- The typed form of an expression. `callee` tells that it is applied to arguments. -/
def checkExpr (env : CheckEnv σ) (visit : Visit σ) (scope : Scope) (callee : Bool) :
    Expr → Check σ TypedExpr
  | .int span value => return .int span value
  | .str span value => return .str span value
  | .unit span => return .unit span
  | .this span => do
    match scope.innermostClass? (← Check.symbols) with
    | some cls => return .this span cls
    | none => Check.fail span .thisOutsideClass
  | .name span name => resolveName env visit span name callee true scope
  | .select span object member => do
    select visit span (← checkExpr env visit scope false object) member callee
  | .call span function args => do
    let function ← checkExpr env visit scope true function
    match ← applied span function with
    | .builtinShow =>
      if args.length ≠ 1 then Check.fail span .showArguments
      return .call span .str function (← checkValues env visit scope args)
    | .function key member =>
      let what := "def " ++ member.name
      checkCount span what member.params.length args.length
      let args ← checkArguments env visit scope what member.params args
      let type := (((← Check.symbols).member? key).map (·.type)).getD .error
      return .call span type function args
  | .new span target args => do
    let target ← checkExpr env visit scope false target
    let cls ← targetClass span target
    let container := (← Check.symbols).get cls
    let what := "class " ++ container.name
    checkCount span what container.params.length args.length
    return .new span cls target (← checkArguments env visit scope what container.params args)
  | .binary span op left right => do
    let left ← asValue (← checkExpr env visit scope false left)
    let right ← asValue (← checkExpr env visit scope false right)
    checkBinary env visit scope span op left right
  | .unary span op operand => do
    let operand ← asValue (← checkExpr env visit scope false operand)
    if operand.type ≠ .int then
      Check.fail span (.operandType op.name (← Check.text operand.type))
    return .unary span op operand
  | .cond span condition thenBranch elseBranch => do
    let condition ← asValue (← checkExpr env visit scope false condition)
    if condition.type ≠ .int then
      Check.fail condition.span (.conditionType (← Check.text condition.type))
    let first ← asValue (← checkExpr env visit scope false thenBranch)
    match elseBranch with
    | none => return .cond span .unit condition first none
    | some elseBranch =>
      let second ← asValue (← checkExpr env visit scope false elseBranch)
      if first.type ≠ second.type then
        Check.fail span (.branchTypes (← Check.text first.type) (← Check.text second.type))
      return .cond span first.type condition first (some second)
  | .block span body => do
    let (body, type) ← checkBody env visit scope [] .unit body
    return .block span type body

/-- Values one after the other. -/
def checkValues (env : CheckEnv σ) (visit : Visit σ) (scope : Scope) :
    List Expr → Check σ (List TypedExpr)
  | [] => return []
  | arg :: rest => do
    let arg ← asValue (← checkExpr env visit scope false arg)
    return arg :: (← checkValues env visit scope rest)

/-- Arguments against their parameters, which are as many. -/
def checkArguments (env : CheckEnv σ) (visit : Visit σ) (scope : Scope) (what : String)
    (params : List Param) : List Expr → Check σ (List TypedExpr)
  | [] => return []
  | arg :: rest => do
    let arg ← asValue (← checkExpr env visit scope false arg)
    if let some param := params.head? then checkArgument what param arg
    return arg :: (← checkArguments env visit scope what params.tail rest)

/-- The statements of a block, with the type of the last one. A block that is empty or ends with
a value declaration has type `Unit`. -/
def checkBody (env : CheckEnv σ) (visit : Visit σ) (scope : Scope)
    (locals : List (String × Local)) (last : Ty) : List Stmt → Check σ (List TypedStmt × Ty)
  | [] => return ([], last)
  | .val span name ascription init :: rest => do
    let init ← asValue (← checkExpr env visit ({ locals } :: scope) false init)
    let own ← checkLocal env visit scope span name ascription locals init
    let (rest, type) ← checkBody env visit scope ((name, own) :: locals) .unit rest
    return (.val span name ascription own.id init :: rest, type)
  | .expr value :: rest => do
    let value ← asValue (← checkExpr env visit ({ locals } :: scope) false value)
    let (rest, type) ← checkBody env visit scope locals value.type rest
    return (.expr value :: rest, type)

end

theorem checkExpr_name (env : CheckEnv σ) (visit : Visit σ) (scope : Scope) (callee : Bool)
    (span : Span) (name : String) :
    checkExpr env visit scope callee (.name span name) =
      resolveName env visit span name callee true scope := by
  rw [checkExpr]

/-- The typed form of an expression that is a value. -/
def checkValue (env : CheckEnv σ) (visit : Visit σ) (scope : Scope) (expr : Expr) :
    Check σ TypedExpr := do
  asValue (← checkExpr env visit scope false expr)

end ScriptShell.Typing
