/-!
Type errors: every reason for which a unit is refused, with its wording. Types appear in them
as text.
-/
namespace ScriptShell

/-- Why a unit has no types. -/
inductive TypeCause where
  | duplicateItem (name : String)
  | duplicateMember (name container : String)
  | duplicateParam (name function : String)
  | duplicateLocal (name : String)
  | recursiveMember (word name : String)
  | typeMismatch (expected found : String)
  | resultMismatch (name declared found : String)
  | argumentMismatch (param what expected found : String)
  | argumentCount (what : String) (expected found : Nat)
  | noConversion (found : String)
  | inlineType (name : String)
  | inlineValue (name reason : String)
  | foreignMissing (name : String)
  | notMember (name owner : String)
  | noMembers (type member : String)
  | needsInstance (member cls : String)
  | enclosingMember (name cls : String)
  | notType (text : String)
  | notValue (text : String)
  | notClass (text : String)
  | badImportPath (path : String)
  | missingArguments (name : String)
  | notFound (name : String)
  | showUnapplied
  | showArguments
  | thisOutsideClass
  | operandType (op found : String)
  | operandTypes (op left right : String)
  | incomparable (left right : String)
  | conditionType (found : String)
  | branchTypes (first second : String)
  | notFunction
deriving Repr, DecidableEq

/-- The wording of a type error. -/
def TypeCause.message : TypeCause → String
  | .duplicateItem name => name ++ " is already defined in this unit"
  | .duplicateMember name container => name ++ " is already defined in " ++ container
  | .duplicateParam name function => "duplicate parameter " ++ name ++ " in def " ++ function
  | .duplicateLocal name => name ++ " is already defined in this block"
  | .recursiveMember word name => "recursive " ++ word ++ " " ++ name ++ " needs an explicit type"
  | .typeMismatch expected found =>
    "type mismatch: expected " ++ expected ++ " but found " ++ found
  | .resultMismatch name declared found =>
    "type mismatch: def " ++ name ++ " declares " ++ declared ++ " but its body is " ++ found
  | .argumentMismatch param what expected found =>
    "type mismatch for argument " ++ param ++ " of " ++ what ++ ": expected " ++ expected ++
      " but found " ++ found
  | .argumentCount what expected found =>
    what ++ " expects " ++ toString expected ++ " argument(s) but got " ++ toString found
  | .noConversion found =>
    "type mismatch: expected Str but found " ++ found ++ " and no implicit conversion is in scope"
  | .inlineType name => "inline val " ++ name ++ " must have type Int"
  | .inlineValue name reason =>
    "inline val " ++ name ++ " could not be evaluated at compile time: " ++ reason
  | .foreignMissing name => "extern symbol " ++ name ++ " not found on the runtime classpath"
  | .notMember name owner => name ++ " is not a member of " ++ owner
  | .noMembers type member => "value of type " ++ type ++ " has no member " ++ member
  | .needsInstance member cls =>
    member ++ " is a member of class " ++ cls ++ " and needs an instance"
  | .enclosingMember name cls =>
    name ++ " is a member of enclosing class " ++ cls ++
      " and cannot be used from a nested module or class"
  | .notType text => "not a type: " ++ text
  | .notValue text => text ++ " is not a value"
  | .notClass text => text ++ " is not a class"
  | .badImportPath path => "import prefix " ++ path ++ " is not a module, class or object"
  | .missingArguments name => "missing argument list for def " ++ name
  | .notFound name => "not found: " ++ name
  | .showUnapplied => "show must be applied to an argument"
  | .showArguments => "show takes exactly one argument"
  | .thisOutsideClass => "'this' can only be used inside a class"
  | .operandType op found => "operator " ++ op ++ " expects Int but found " ++ found
  | .operandTypes op left right =>
    "operator " ++ op ++ " expects Int operands but found " ++ left ++ " and " ++ right
  | .incomparable left right => "cannot compare " ++ left ++ " with " ++ right
  | .conditionType found => "condition must be Int but found " ++ found
  | .branchTypes first second => "if branches differ: " ++ first ++ " and " ++ second
  | .notFunction => "expression is not a function and cannot be applied to arguments"

/-- A type error with the place it points at. -/
structure TypeError where
  cause : TypeCause
  line : Nat
  column : Nat
deriving Repr, DecidableEq

end ScriptShell
