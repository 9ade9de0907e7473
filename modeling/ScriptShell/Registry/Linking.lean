import ScriptShell.Registry
import ScriptShell.Code.Names

/-!
Linking and calling of loaded code. Code is linked when it is first reached: each symbol it
calls is bound to what its surroundings provide at that time, and the code reached that way is
linked too. A binding is kept for good, also when the artifact it leads to is replaced. Code that
leads to something missing has failed for good, whatever is added later; its artifact has to be
added again.
-/
namespace ScriptShell

/-- Why a symbol leads nowhere. -/
inductive LinkError where
  | retired (tier : Tier) (generation : Nat)
  | notFound (symbol : String)
  /-- Code with the symbols is there, but leads to something that is not. -/
  | unlinkable (home : String) (symbols : List String)
deriving Repr, DecidableEq

/-- The wording of a link error. -/
def LinkError.message : LinkError → String
  | .retired tier generation =>
    tier.name ++ " loader of generation " ++ toString generation ++ " was retired"
  | .notFound symbol => "Symbols not found: [ " ++ symbol ++ " ]"
  | .unlinkable home symbols =>
    "Failed to materialize symbols: \x7b (" ++ home ++ ", \x7b " ++ joinWith ", " symbols ++
      " \x7d) \x7d"

/-- An entry point that was found. -/
structure Entry where
  generation : Nat
  name : String
  target : Target

/-- What came of calling an entry point. -/
structure Reply where
  value : String := ""
  fault : Option Fault := none

namespace Registry

/-- The present artifact that offers a symbol. -/
def artifactTarget? (registry : Registry) (symbol : String) : Option Target :=
  (registry.loaded.find? fun (_, index) =>
    (registry.images[index]?).any (·.artifact.offers symbol)).map fun (_, index) =>
      .procedure index symbol

/-- What the machine and its process provide for a symbol. -/
def hostTarget? (registry : Registry) (symbol : String) : Option Target :=
  (Primitive.ofSymbol? symbol).map .primitive <|>
    (registry.toolchain.host.lookup symbol).map .foreign

/-- What libraries, the machine and its process provide for a symbol. -/
def outerTarget? (registry : Registry) (libraries : List FunctionTable) (symbol : String) :
    Option Target :=
  (libraries.findSome? (·.lookup symbol)).map .foreign <|> registry.hostTarget? symbol

/-- What the surroundings provide for a symbol. -/
def target? (registry : Registry) (seesArtifacts : Bool) (libraries : List FunctionTable)
    (symbol : String) : Option Target :=
  let own := if seesArtifacts then registry.artifactTarget? symbol else none
  own <|> registry.outerTarget? libraries symbol

/-- The bindings of an artifact, if everything it calls is there. -/
def bindings? (registry : Registry) (seesArtifacts : Bool) (libraries : List FunctionTable)
    (artifact : Artifact) : Option (List (String × Target)) :=
  if artifact.miscalls then none
  else
    artifact.imports.mapM fun symbol =>
      (registry.target? seesArtifacts libraries symbol).map (symbol, ·)

/-- The loaded code that a target belongs to. -/
def imageOf? : Target → Option Nat
  | .procedure index _ => some index
  | _ => none

/-- The code that bindings lead to. -/
def reached (bindings : List (String × Target)) : List Nat :=
  bindings.filterMap fun (_, target) => imageOf? target

/-- How far the linking of code is. -/
def linkState (registry : Registry) (index : Nat) : LinkState :=
  ((registry.images[index]?).map (·.link)).getD .failed

/-- Code that need not be linked any more. -/
def isSettled (registry : Registry) (index : Nat) : Bool :=
  registry.linkState index ≠ .unlinked

/-- Code that cannot be called. -/
def hasFailed (registry : Registry) (index : Nat) : Bool := registry.linkState index = .failed

/-- The symbols of code. -/
def symbolsOf (registry : Registry) (index : Nat) : List String :=
  ((registry.images[index]?).map (·.artifact.symbols)).getD []

/-- Links one piece of code. It has failed if a symbol that it calls is not there. -/
def linkOne (registry : Registry) (index : Nat) : Registry :=
  { registry with
    images := registry.images.modify index fun image =>
      { image with
        link :=
          match registry.bindings? true registry.links image.artifact with
          | some bindings => .linked bindings
          | none => .failed } }

/-- Links the code with the given numbers, and all that it reaches. Every turn settles a piece of
code. -/
def linkReached (registry : Registry) : Nat → List Nat → Registry
  | 0, _ => registry
  | turns + 1, pending =>
    match pending.dropWhile registry.isSettled with
    | [] => registry
    | index :: rest =>
      let linked := registry.linkOne index
      linkReached linked turns (reached (linked.linkState index).bindings ++ rest)

/-- Linked code that leads straight to code that has failed. -/
def leadsToFailed (registry : Registry) (image : Image) : Bool :=
  (reached image.link.bindings).any registry.hasFailed

/-- Fails all code that leads to failed code. Every turn fails a piece of code. -/
def spreadFailure (registry : Registry) : Nat → Registry
  | 0 => registry
  | turns + 1 =>
    if registry.images.any registry.leadsToFailed then
      spreadFailure { registry with
        images := registry.images.map fun image =>
          if registry.leadsToFailed image then { image with link := .failed } else image } turns
    else registry

/-- Links the code with the given numbers, with as many turns as there is code. -/
def linkAll (registry : Registry) (pending : List Nat) : Registry :=
  (registry.linkReached registry.images.size pending).spreadFailure registry.images.size

/-- Looks a symbol up through a loader. -/
def lookup (registry : Registry) (loader : Loader) (symbol : String) :
    Except LinkError Target × Registry :=
  if registry.isRetired loader.generation then
    (.error (.retired loader.tier loader.generation), registry)
  else
    match registry.target? loader.seesArtifacts loader.libraries symbol with
    | none => (.error (.notFound symbol), registry)
    | some target =>
      let linked := registry.linkAll (imageOf? target).toList
      match (imageOf? target).filter linked.hasFailed with
      | some index =>
        (.error (.unlinkable "kiln.artifacts" (linked.symbolsOf index)), linked)
      | none => (.ok target, linked)

/-- A loader can see a symbol. -/
def isVisible (registry : Registry) (loader : Loader) (symbol : String) : Bool × Registry :=
  match registry.lookup loader symbol with
  | (.ok _, registry) => (true, registry)
  | (.error _, registry) => (false, registry)

/-- The entry point of an artifact. -/
def resolve (registry : Registry) (loader : Loader) (name : String) :
    Except String Entry × Registry :=
  match registry.lookup loader (name ++ ".$main") with
  | (.ok target, registry) => (.ok ⟨loader.generation, name, target⟩, registry)
  | (.error (.retired tier generation), registry) =>
    (.error (LinkError.retired tier generation).message, registry)
  | (.error error, registry) =>
    (.error ("class " ++ name ++ " not found (" ++ error.message ++ ")"), registry)

/-- Calls an entry point on a machine, if there is one. -/
def invoke (registry : Registry) (entry : Entry) (machine : Option Machine) :
    Reply × Option Machine :=
  let refuse (message : String) : Reply := { fault := some ⟨⟨.runtimeError, message, []⟩, []⟩ }
  if registry.isRetired entry.generation then
    (refuse (entry.name ++ " belongs to retired loader generation " ++
      toString entry.generation), machine)
  else
    match machine with
    | none => (refuse "no runtime context is active", none)
    | some machine =>
      match machine.callEntry registry.images entry.target with
      | (.ok value, machine) => ({ value := value.toText }, some machine)
      | (.error fault, machine) =>
        ({ fault := some (fault.wrap ⟨.invocation, "", []⟩) }, some machine)

/-- Where code that the compiler runs is put. -/
def probeHome (loader : Loader) : String :=
  if loader.seesArtifacts then "kiln.artifacts" else "kiln.compile_time"

/-- Runs code once on behalf of the compiler, under a symbol of its own, and drops it again. It
is refused as a whole if the loader is retired or if anything it calls is not there. -/
def evaluate (registry : Registry) (loader : Loader) (machine : Machine) (symbol : String)
    (code : Code) : Except String Int64 × Machine × Registry :=
  if registry.isRetired loader.generation then
    (.error (LinkError.retired loader.tier loader.generation).message, machine, registry)
  else
    let artifact : Artifact := ⟨symbol, [(symbol, .function none [] code)]⟩
    let refused := (LinkError.unlinkable (probeHome loader) [symbol]).message
    match registry.bindings? loader.seesArtifacts loader.libraries artifact with
    | none => (.error refused, machine, registry)
    | some bindings =>
      let registry := registry.linkAll (reached bindings)
      if (reached bindings).any registry.hasFailed then (.error refused, machine, registry)
      else
        let images := registry.images.push ⟨artifact, .linked bindings⟩
        match machine.callWord images (.procedure registry.images.size symbol) with
        | (.ok value, machine) => (.ok value, machine, registry)
        | (.error fault, machine) => (.error fault.describe, machine, registry)

end Registry

end ScriptShell
