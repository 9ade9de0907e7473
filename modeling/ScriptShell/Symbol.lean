import ScriptShell.Text.Sorted

/-!
Symbols: what the compiler knows about the modules and classes of finished units and of the
unit at hand. Containers are known by number, so that a class that replaces another one of the
same name is a different type.
-/
namespace ScriptShell

/-- The number of a module or class. -/
abbrev ContainerId := Nat

/-- Types of expressions. -/
inductive Ty where
  /-- Not known, or not a type. -/
  | error
  | int
  | str
  | unit
  /-- An object of a class. -/
  | object (cls : ContainerId)
  /-- A module or class named by a path; never a value. -/
  | space (container : ContainerId)
deriving Repr, DecidableEq, Inhabited

namespace Ty

/-- Values have one of the other types. -/
def isValue : Ty → Bool
  | .error | .space _ => false
  | _ => true

/-- The module or class whose members an expression of this type has. -/
def container? : Ty → Option ContainerId
  | .object cls => some cls
  | .space container => some container
  | _ => none

end Ty

/-- A parameter with its type. -/
structure Param where
  name : String
  type : Ty
deriving Repr, DecidableEq, Inhabited

/-- What a member is. -/
inductive MemberKind where
  | val | lazyVal | inlineVal | func | foreign | container
deriving Repr, DecidableEq, Inhabited

namespace MemberKind

/-- Functions of the program or from outside. -/
def isCallable : MemberKind → Bool
  | .func | .foreign => true
  | _ => false

/-- The word for a kind in messages. -/
def word : MemberKind → String
  | .func | .foreign => "def"
  | .container => "container"
  | _ => "val"

end MemberKind

/-- A member of a module or class. `symbol` is the name its code is linked under. Members of a
class that are stored in its objects have a slot, lazy ones also a slot that tells whether the
value is there. -/
structure MemberSymbol where
  name : String
  kind : MemberKind
  implicit : Bool := false
  params : List Param := []
  parens : Bool := true
  /-- The type of the value, or of the result of a function. -/
  type : Ty := .error
  /-- The value of an inline member. -/
  constant : Int64 := 0
  slot : Option Nat := none
  flagSlot : Option Nat := none
  isParam : Bool := false
  symbol : String := ""
  nested : Option ContainerId := none
deriving Repr, DecidableEq, Inhabited

/-- A module or class. Slot zero of an object holds the name of its class. -/
structure ContainerSymbol where
  isClass : Bool := false
  name : String := ""
  /-- The path from the top-level container. -/
  qualified : String := ""
  /-- The top-level container whose code holds this one's. -/
  artifact : String := ""
  members : List MemberSymbol := []
  params : List Param := []
  slotCount : Nat := 1
deriving Repr, DecidableEq, Inhabited

namespace ContainerSymbol

/-- The member of the given name. -/
def find? (container : ContainerSymbol) (name : String) : Option MemberSymbol :=
  container.members.find? (·.name = name)

/-- The kind and name of a container in messages. -/
def describe (container : ContainerSymbol) : String :=
  (if container.isClass then "class " else "module ") ++ container.name

/-- Changes the member of the given name. -/
def modify (container : ContainerSymbol) (name : String) (f : MemberSymbol → MemberSymbol) :
    ContainerSymbol :=
  { container with
    members := container.members.map fun member => if member.name = name then f member else member }

end ContainerSymbol

/-- A member, by the number of its owner and its name. -/
structure MemberKey where
  owner : ContainerId
  name : String
deriving Repr, DecidableEq, Inhabited

/-- All modules and classes, by number. -/
structure Symbols where
  containers : Array ContainerSymbol := #[]
deriving Repr, DecidableEq, Inhabited

namespace Symbols

/-- The container with a number. -/
def get (symbols : Symbols) (id : ContainerId) : ContainerSymbol :=
  symbols.containers.getD id {}

/-- The member of a key. -/
def member? (symbols : Symbols) (key : MemberKey) : Option MemberSymbol :=
  (symbols.get key.owner).find? key.name

/-- Adds a container under the next number. -/
def push (symbols : Symbols) (container : ContainerSymbol) : ContainerId × Symbols :=
  (symbols.containers.size, ⟨symbols.containers.push container⟩)

/-- Changes a container. -/
def modify (symbols : Symbols) (id : ContainerId) (f : ContainerSymbol → ContainerSymbol) :
    Symbols :=
  ⟨symbols.containers.modify id f⟩

/-- Changes a member. -/
def modifyMember (symbols : Symbols) (key : MemberKey) (f : MemberSymbol → MemberSymbol) :
    Symbols :=
  symbols.modify key.owner (·.modify key.name f)

/-- The text of a type. -/
def typeText (symbols : Symbols) : Ty → String
  | .int => "Int"
  | .str => "Str"
  | .unit => "Unit"
  | .object cls => (symbols.get cls).name
  | .space id =>
    let container := symbols.get id
    (if container.isClass then "class " else "module ") ++ container.qualified
  | .error => "<error>"

end Symbols

/-- The symbols of all finished units: their containers, and the names of the top-level ones in
increasing order. -/
structure SymbolTable where
  symbols : Symbols := {}
  globals : List (String × ContainerId) := []
deriving Repr, DecidableEq, Inhabited

namespace SymbolTable

/-- The top-level container of the given name. -/
def find? (table : SymbolTable) (name : String) : Option ContainerId :=
  table.globals.lookup name

/-- The names of the top-level containers. -/
def names (table : SymbolTable) : List String := table.globals.map (·.1)

/-- Takes over the symbols of a finished unit and its top-level containers. -/
def commit (table : SymbolTable) (symbols : Symbols) (containers : List ContainerId) :
    SymbolTable :=
  ⟨symbols, containers.foldl (fun globals id => bindName (symbols.get id).name id globals)
    table.globals⟩

/-- Drops the containers of a unit that comes to nothing. Those of finished units stay as its check left
them. -/
def leave (table : SymbolTable) (symbols : Symbols) : SymbolTable :=
  { table with symbols := ⟨symbols.containers.extract 0 table.symbols.containers.size⟩ }

end SymbolTable

end ScriptShell
