import ScriptShell.Proofs.Typing.Shape
import ScriptShell.Typing.Conversion

/-! Well-typed trees. The judgement says of a typed tree, in the scope it stands in, what the check
that made it has made sure of: what every name stands for, and that the types of the parts fit. It
speaks about symbols whose types are known, so it says nothing about how they were found. -/
namespace ScriptShell

/-- Reading a member as a value, or as the function of a call. The type of a constructor parameter is
left open, since a member may be checked before it is resolved. -/
structure MemberSymbol.Access (member : MemberSymbol) (callee : Bool) (type : Ty) (auto : Bool) :
    Prop where
  type_eq : member.isParam = false → member.type = type
  auto_eq : auto = (member.kind.isCallable && !callee)
  params_nil : member.isParam = false → member.kind.isCallable = true → callee = false →
    member.params = []

/-- A container has an implicit function of the name of a key. -/
def Symbols.HasConversion (S : Symbols) (key : MemberKey) : Prop :=
  ∃ member ∈ (S.get key.owner).members,
    member.name = key.name ∧ Typing.isConversion member = true

namespace Scope

/-- The numbers of all locals in sight. -/
def ids (scope : Scope) : List LocalId :=
  scope.flatMap fun frame => frame.locals.map (·.2.id)

end Scope

namespace TypedStmt

/-- The expressions of a block, each with the scope it stands in. -/
def parts (scope : Scope) (locals : List (String × Local)) :
    List TypedStmt → List (Scope × TypedExpr)
  | [] => []
  | .val _ name _ id init :: rest =>
    ({ locals } :: scope, init) :: parts scope ((name, ⟨id, init.type⟩) :: locals) rest
  | .expr value :: rest => ({ locals } :: scope, value) :: parts scope locals rest

/-- Every value of a block has a number that no local in sight has. -/
def Fresh (scope : Scope) (locals : List (String × Local)) : List TypedStmt → Prop
  | [] => True
  | .val _ name _ id init :: rest =>
    id ∉ Scope.ids ({ locals } :: scope) ∧ Fresh scope ((name, ⟨id, init.type⟩) :: locals) rest
  | .expr _ :: rest => Fresh scope locals rest

/-- The type of a block whose last statement so far has the given type. -/
def lastType (last : Ty) : List TypedStmt → Ty
  | [] => last
  | .val _ _ _ _ _ :: rest => lastType .unit rest
  | .expr value :: rest => lastType value.type rest

end TypedStmt

/-- A typed expression fits the symbols and the scope it stands in. The flag tells that it is
applied to arguments. -/
inductive WellTyped (S : Symbols) : Bool → Scope → TypedExpr → Prop where
  | int : WellTyped S callee scope (.int span value)
  | str : WellTyped S callee scope (.str span text)
  | unit : WellTyped S callee scope (.unit span)
  | this (inside : scope.innermostClass? S = some cls) : WellTyped S callee scope (.this span cls)
  | bound (visible : frame ∈ scope) (named : frame.locals.lookup name = some found) :
      WellTyped S callee scope (.name span found.type name (.bound found.id))
  | container : WellTyped S callee scope (.name span (.space owner) name (.container owner))
  | builtinShow : WellTyped S true scope (.name span .str name .builtinShow)
  | member (found : S.member? ⟨owner, name⟩ = some member) (plain : member.nested = none)
      (receiver : (S.get owner).isClass = true → scope.innermostClass? S = some owner)
      (access : member.Access callee type auto) :
      WellTyped S callee scope
        (.name span type name (.member ⟨owner, name⟩ (S.get owner).isClass (S.get owner).isClass auto))
  /-- What an import binds is looked up from the place of the import. -/
  | aliased (place : frame :: outer <:+ scope)
      (path : WellTyped S callee ({ frame with imports := earlier } :: outer) target) :
      WellTyped S callee scope (.aliased span target.type name target)
  | nested (object : WellTyped S false scope target) :
      WellTyped S callee scope (.select span (.space owner) target name (.container owner))
  | select (object : WellTyped S false scope target) (holder : target.type.container? = some owner)
      (found : S.member? ⟨owner, name⟩ = some member) (plain : member.nested = none)
      (access : member.Access callee type auto) :
      WellTyped S callee scope
        (.select span type target name (.member ⟨owner, name⟩ (S.get owner).isClass false auto))
  | show (arg : WellTyped S false scope operand) (value : operand.type.isValue = true) :
      WellTyped S callee scope
        (.call span .str (.name place type name .builtinShow) [operand])
  | call (function : WellTyped S true scope applied) (applies : applied.calleeMember? = some key)
      (found : S.member? key = some member) (callable : member.kind.isCallable = true)
      (args : ∀ arg ∈ operands, WellTyped S false scope arg)
      (types : member.isParam = false →
        member.type = type ∧ operands.map (·.type) = member.params.map (·.type)) :
      WellTyped S callee scope (.call span type applied operands)
  /-- The call of an implicit function around an operand that is no text. -/
  | convert (function : WellTyped S true scope applied)
      (applies : applied.calleeMember? = some key)
      (conversion : S.HasConversion key) (text : applied.type = .str)
      (types : ∀ member, S.member? key = some member → member.isParam = false →
        member.params.map (·.type) = [operand.type])
      (arg : WellTyped S false scope operand) :
      WellTyped S callee scope (.call span .str applied [operand])
  | new (named : WellTyped S false scope target) (cls : target.type = .space owner)
      (isClass : (S.get owner).isClass = true) (args : ∀ arg ∈ operands, WellTyped S false scope arg) :
      WellTyped S callee scope (.new span owner target operands)
  | concat (first : WellTyped S false scope left) (second : WellTyped S false scope right)
      (firstText : left.type = .str) (secondText : right.type = .str) :
      WellTyped S callee scope (.binary span .concat left right)
  | compare (first : WellTyped S false scope left) (second : WellTyped S false scope right)
      (compares : op = .equal ∨ op = .different) (same : left.type = right.type)
      (value : left.type.isValue = true) :
      WellTyped S callee scope (.binary span op left right)
  | arithmetic (first : WellTyped S false scope left) (second : WellTyped S false scope right)
      (firstWord : left.type = .int) (secondWord : right.type = .int) (other : op ≠ .concat) :
      WellTyped S callee scope (.binary span op left right)
  | unary (arg : WellTyped S false scope operand) (word : operand.type = .int) :
      WellTyped S callee scope (.unary span op operand)
  | when (condition : WellTyped S false scope test) (word : test.type = .int)
      (first : WellTyped S false scope left) :
      WellTyped S callee scope (.cond span .unit test left none)
  | cond (condition : WellTyped S false scope test) (word : test.type = .int)
      (first : WellTyped S false scope left) (second : WellTyped S false scope right)
      (same : left.type = right.type) :
      WellTyped S callee scope (.cond span left.type test left (some right))
  | block (parts : ∀ part ∈ TypedStmt.parts scope [] body, WellTyped S false part.1 part.2)
      (fresh : TypedStmt.Fresh scope [] body) :
      WellTyped S callee scope (.block span (TypedStmt.lastType .unit body) body)

end ScriptShell
