import ScriptShell.Syntax
import ScriptShell.Symbol

/-!
Typed trees: the syntax of a unit with the type of every expression and the meaning of every
name. A name that an import binds is expanded into the path the import stands for.
-/
namespace ScriptShell

/-- The number of a parameter or of a value of a block; numbers differ within a unit. -/
abbrev LocalId := Nat

/-- What a name or the member of a selection means. -/
inductive Ref where
  | bound (id : LocalId)
  /-- A member of a module or class. `onThis` tells that it is a member of the object at hand,
  `autoCall` that it is a function called by its bare name. -/
  | member (key : MemberKey) (ofClass onThis autoCall : Bool)
  | container (id : ContainerId)
  /-- The built-in function that shows a value. -/
  | builtinShow
deriving Repr, DecidableEq, Inhabited

mutual

/-- Expressions with their types. -/
inductive TypedExpr where
  | int (span : Span) (value : Nat)
  | str (span : Span) (value : String)
  | unit (span : Span)
  | this (span : Span) (cls : ContainerId)
  | name (span : Span) (type : Ty) (name : String) (ref : Ref)
  /-- A name that an import expands into a path. -/
  | aliased (span : Span) (type : Ty) (name : String) (path : TypedExpr)
  | select (span : Span) (type : Ty) (object : TypedExpr) (member : String) (ref : Ref)
  | call (span : Span) (type : Ty) (callee : TypedExpr) (args : List TypedExpr)
  | new (span : Span) (cls : ContainerId) (target : TypedExpr) (args : List TypedExpr)
  | binary (span : Span) (op : BinaryOp) (left right : TypedExpr)
  | unary (span : Span) (op : UnaryOp) (operand : TypedExpr)
  | cond (span : Span) (type : Ty) (condition thenBranch : TypedExpr)
      (elseBranch : Option TypedExpr)
  | block (span : Span) (type : Ty) (body : List TypedStmt)

/-- Statements of a block. -/
inductive TypedStmt where
  | val (span : Span) (name : String) (ascription : Option TypeRef) (id : LocalId)
      (init : TypedExpr)
  | expr (value : TypedExpr)

end

instance : Inhabited TypedExpr := ⟨.unit default⟩

namespace TypedExpr

/-- The span an expression is reported at. -/
def span : TypedExpr → Span
  | .int span _ | .str span _ | .unit span | .this span _ | .name span _ _ _
  | .aliased span _ _ _ | .select span _ _ _ _ | .call span _ _ _ | .new span _ _ _
  | .binary span _ _ _ | .unary span _ _ | .cond span _ _ _ _ | .block span _ _ => span

/-- The type of an expression. -/
def type : TypedExpr → Ty
  | .int _ _ => .int
  | .str _ _ => .str
  | .unit _ => .unit
  | .this _ cls => .object cls
  | .name _ type _ _ | .aliased _ type _ _ | .select _ type _ _ _ | .call _ type _ _ => type
  | .new _ cls _ _ => .object cls
  | .binary _ op _ _ => if op = .concat then .str else .int
  | .unary _ _ _ => .int
  | .cond _ type _ _ _ | .block _ type _ => type

/-- The member that a callee names, if it names one. -/
def calleeMember? : TypedExpr → Option MemberKey
  | .aliased _ _ _ path => path.calleeMember?
  | .name _ _ _ (.member key _ _ _) | .select _ _ _ _ (.member key _ _ _) => some key
  | _ => none

end TypedExpr

/-- An import with the members it picks: for each selector whether it is implicit, and the path
under which later units find its owner. The path is relative when it starts at a member of
the unit's exported class. -/
structure TypedImport where
  decl : Import
  implicits : List Bool
  path : String
  relative : Bool

mutual

/-- Members with typed bodies. -/
inductive TypedMember where
  | imports (decl : TypedImport)
  | val (decl : ValDecl) (key : MemberKey) (init : TypedExpr)
  | func (decl : DefDecl) (key : MemberKey) (locals : List LocalId) (body : TypedExpr)
  | foreign (decl : ForeignDecl) (key : MemberKey)
  | container (decl : TypedContainer)
  | expr (span : Span) (value : TypedExpr)

/-- A module or class with typed members. -/
inductive TypedContainer where
  | mk (source : Container) (id : ContainerId) (members : List TypedMember)

end

namespace TypedContainer

def source : TypedContainer → Container
  | .mk source _ _ => source

def id : TypedContainer → ContainerId
  | .mk _ id _ => id

def members : TypedContainer → List TypedMember
  | .mk _ _ members => members

end TypedContainer

/-- A typed unit. -/
structure TypedProgram where
  span : Span
  imports : List TypedImport
  items : List TypedContainer

end ScriptShell
