import ScriptShell.Typing.Path

/-!
Implicit conversions to text. An operand of a concatenation that is no text is wrapped in a call
of an implicit function. The candidates are the implicit functions in sight, frame by frame from
the inside: those of the container first, then those of the imports from the last to the first.
The first one counts that its bare name reaches, that takes the operand and gives a text.
-/
namespace ScriptShell.Typing

variable {σ : Type}

/-- A function that may convert, with the bare name it has at the operand. -/
structure Candidate where
  name : String
  key : MemberKey
deriving Repr, DecidableEq

/-- Implicit functions convert; other implicit members do not. -/
def isConversion (member : MemberSymbol) : Bool :=
  member.implicit && member.kind = .func

/-- The conversions among the members of a container. -/
def ownConversions (symbols : Symbols) (id : ContainerId) : List Candidate :=
  ((symbols.get id).members.filter isConversion).map fun member => ⟨member.name, ⟨id, member.name⟩⟩

/-- The conversions that an import picks from a container. -/
def pickedConversions (symbols : Symbols) (id : ContainerId) (decl : Import) : List Candidate :=
  let picked := decl.selectors.filter fun selector =>
    ((symbols.get id).find? selector.name).any isConversion
  picked.map (fun selector => ⟨selector.boundAs, ⟨id, selector.name⟩⟩) ++
    (if decl.wildcard then ownConversions symbols id else [])

/-- The conversions that the imports of a frame bring in, those of the last import first. -/
def importedConversions (env : CheckEnv σ) (visit : Visit σ) (frame : Frame) (outer : Scope) :
    List ScopedImport → Check σ (List Candidate)
  | [] => return []
  | own :: earlier => do
    let path ← importPath env visit own ({ frame with imports := earlier } :: outer)
    let symbols ← Check.symbols
    let found := match path.type.container? with
      | some id => pickedConversions symbols id own.decl
      | none => []
    return found ++ (← importedConversions env visit frame outer earlier)

/-- The conversions in sight, in the order they are tried. -/
def conversions (env : CheckEnv σ) (visit : Visit σ) : Scope → Check σ (List Candidate)
  | [] => return []
  | frame :: outer => do
    let symbols ← Check.symbols
    let own := match frame.container with
      | some id => ownConversions symbols id
      | none => []
    let imported ← importedConversions env visit frame outer frame.imports
    return own ++ imported ++ (← conversions env visit outer)

/-- Wraps an operand in the first conversion that fits. -/
def applyFirst (env : CheckEnv σ) (visit : Visit σ) (scope : Scope) (operand : TypedExpr) :
    List Candidate → Check σ TypedExpr
  | [] => do Check.fail operand.span (.noConversion (← Check.text operand.type))
  | candidate :: rest => do
    let callee ← resolveName env visit operand.span candidate.name true true scope
    let params := (((← Check.symbols).member? candidate.key).map (·.params)).getD []
    if callee.calleeMember? = some candidate.key && params.map (·.type) = [operand.type] &&
        callee.type = .str then
      return .call operand.span .str callee [operand]
    else applyFirst env visit scope operand rest

/-- An operand as a text. -/
def toText (env : CheckEnv σ) (visit : Visit σ) (scope : Scope) (operand : TypedExpr) :
    Check σ TypedExpr := do
  if operand.type = .str then return operand
  else applyFirst env visit scope operand (← conversions env visit scope)

end ScriptShell.Typing
