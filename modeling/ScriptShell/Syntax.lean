import ScriptShell.Token
import ScriptShell.Text.Sorted

/-!
Syntax trees of a compilation unit. A unit is a list of imports and of modules and classes;
these hold members, and members hold expressions. Every node keeps the span of the token it is
reported at.
-/
namespace ScriptShell

/-- Binary operators. -/
inductive BinaryOp where
  | or | and | equal | different | less | lessEqual | greater | greaterEqual | add | sub | concat
  | mul | div | mod
deriving Repr, DecidableEq, Inhabited

namespace BinaryOp

/-- The mark an operator is written with. -/
def mark : BinaryOp → Punct
  | .or => .or
  | .and => .and
  | .equal => .equal
  | .different => .different
  | .less => .less
  | .lessEqual => .lessEqual
  | .greater => .greater
  | .greaterEqual => .greaterEqual
  | .add => .plus
  | .sub => .minus
  | .concat => .concat
  | .mul => .star
  | .div => .slash
  | .mod => .percent

/-- The binary operator that a token stands for between two operands. -/
def ofToken? : TokenKind → Option BinaryOp
  | .punct .or => some .or
  | .punct .and => some .and
  | .punct .equal => some .equal
  | .punct .different => some .different
  | .punct .less => some .less
  | .punct .lessEqual => some .lessEqual
  | .punct .greater => some .greater
  | .punct .greaterEqual => some .greaterEqual
  | .punct .plus => some .add
  | .punct .minus => some .sub
  | .punct .concat => some .concat
  | .punct .star => some .mul
  | .punct .slash => some .div
  | .punct .percent => some .mod
  | _ => none

/-- How loosely an operator binds, from one (tightest) to six. -/
def looseness : BinaryOp → Nat
  | .mul | .div | .mod => 1
  | .add | .sub | .concat => 2
  | .less | .lessEqual | .greater | .greaterEqual => 3
  | .equal | .different => 4
  | .and => 5
  | .or => 6

/-- The name of an operator in messages. -/
def name (op : BinaryOp) : String := (TokenKind.punct op.mark).name

theorem ofToken?_mark (op : BinaryOp) : ofToken? (.punct op.mark) = some op := by
  cases op <;> rfl

theorem looseness_pos (op : BinaryOp) : 0 < op.looseness := by
  cases op <;> decide

theorem looseness_le (op : BinaryOp) : op.looseness ≤ 6 := by
  cases op <;> decide

end BinaryOp

/-- Operators in front of their operand. -/
inductive UnaryOp where
  | neg | not
deriving Repr, DecidableEq, Inhabited

namespace UnaryOp

/-- The mark an operator is written with. -/
def mark : UnaryOp → Punct
  | .neg => .minus
  | .not => .not

/-- The operator that a token stands for in front of an operand. -/
def ofToken? : TokenKind → Option UnaryOp
  | .punct .minus => some .neg
  | .punct .not => some .not
  | _ => none

/-- The name of an operator in messages. -/
def name (op : UnaryOp) : String := (TokenKind.punct op.mark).name

end UnaryOp

/-- A written type: `Int`, `Str`, `Unit` or the path of a class. -/
structure TypeRef where
  path : List String
  span : Span
deriving Repr, DecidableEq, Inhabited

/-- The text of a written type. -/
def TypeRef.text (ref : TypeRef) : String := joinPath ref.path

/-- A parameter as written. -/
structure ParamDecl where
  name : String
  type : TypeRef
deriving Repr, DecidableEq, Inhabited

mutual

/-- Expressions. -/
inductive Expr where
  | int (span : Span) (value : Nat)
  | str (span : Span) (value : String)
  | unit (span : Span)
  | this (span : Span)
  | name (span : Span) (name : String)
  | select (span : Span) (object : Expr) (member : String)
  | call (span : Span) (callee : Expr) (args : List Expr)
  | new (span : Span) (target : Expr) (args : List Expr)
  | binary (span : Span) (op : BinaryOp) (left right : Expr)
  | unary (span : Span) (op : UnaryOp) (operand : Expr)
  | cond (span : Span) (condition thenBranch : Expr) (elseBranch : Option Expr)
  | block (span : Span) (body : List Stmt)

/-- Statements of a block: a local value or an expression. -/
inductive Stmt where
  | val (span : Span) (name : String) (ascription : Option TypeRef) (init : Expr)
  | expr (value : Expr)

end

namespace Expr

/-- The span an expression is reported at. -/
def span : Expr → Span
  | .int span _ | .str span _ | .unit span | .this span | .name span _ | .select span _ _
  | .call span _ _ | .new span _ _ | .binary span _ _ _ | .unary span _ _ | .cond span _ _ _
  | .block span _ => span

/-- The path with the given segments, all reported at one span. -/
def ofPath (span : Span) (first : String) (rest : List String) : Expr :=
  rest.foldl (fun path segment => .select span path segment) (.name span first)

end Expr

instance : Inhabited Expr := ⟨.unit default⟩

/-- One name of a selector list, with the name it is bound to. -/
structure Selector where
  name : String
  boundAs : String
deriving Repr, DecidableEq, Inhabited

/-- An import: a path, the members picked from it, and whether it takes all others too. The
path has a first segment. -/
structure Import where
  span : Span
  head : String
  tail : List String
  selectors : List Selector
  wildcard : Bool
deriving Repr, DecidableEq, Inhabited

namespace Import

/-- The segments of an import's path. -/
def path (decl : Import) : List String := decl.head :: decl.tail

/-- The text of an import's path. -/
def pathText (decl : Import) : String := joinPath decl.path

end Import

/-- When the value of a `val` is computed: on initialisation, on first use, or by the compiler. -/
inductive ValMode where
  | strict | lazy | inline
deriving Repr, DecidableEq, Inhabited

/-- Modules have one instance of their members, classes one for each object. -/
inductive ContainerKind where
  | moduleKind | classKind
deriving Repr, DecidableEq, Inhabited

/-- A member that is a value. -/
structure ValDecl where
  span : Span
  name : String
  ascription : Option TypeRef
  mode : ValMode
  implicit : Bool
  init : Expr

/-- A member that is a function. Without parentheses it takes no arguments and is called by
its bare name. -/
structure DefDecl where
  span : Span
  name : String
  params : List ParamDecl
  parens : Bool
  result : Option TypeRef
  implicit : Bool
  body : Expr

/-- A member that stands for a function provided from outside the unit. -/
structure ForeignDecl where
  span : Span
  name : String
  params : List ParamDecl
  result : TypeRef

mutual

/-- Members of a module or class. -/
inductive Member where
  | imports (decl : Import)
  | val (decl : ValDecl)
  | func (decl : DefDecl)
  | foreign (decl : ForeignDecl)
  | container (decl : Container)
  | expr (span : Span) (value : Expr)

/-- A module or class with its constructor parameters and members. -/
inductive Container where
  | mk (span : Span) (kind : ContainerKind) (name : String) (exported : Bool)
      (params : List ParamDecl) (members : List Member)

end

namespace Container

def span : Container → Span
  | .mk span _ _ _ _ _ => span

def kind : Container → ContainerKind
  | .mk _ kind _ _ _ _ => kind

def name : Container → String
  | .mk _ _ name _ _ _ => name

def exported : Container → Bool
  | .mk _ _ _ exported _ _ => exported

def params : Container → List ParamDecl
  | .mk _ _ _ _ params _ => params

def members : Container → List Member
  | .mk _ _ _ _ _ members => members

end Container

/-- A compilation unit. -/
structure Program where
  span : Span
  imports : List Import
  items : List Container

end ScriptShell
