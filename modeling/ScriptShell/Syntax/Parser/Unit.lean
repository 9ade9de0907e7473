import ScriptShell.Syntax.Parser.Expression
import ScriptShell.Syntax.Parser.Import

/-!
Reading of members, modules, classes and whole units, by recursive descent. The recursion ends
because the tokens run out.
-/
namespace ScriptShell.Parser

/-- The modifiers in front of a member. -/
structure Modifiers where
  implicit : Bool := false
  isLazy : Bool := false
  isInline : Bool := false
  isForeign : Bool := false
deriving DecidableEq

namespace Modifiers

/-- Adds the modifier that a token stands for. -/
def add? (own : Modifiers) : TokenKind → Option Modifiers
  | .keyword .kwImplicit => some { own with implicit := true }
  | .keyword .kwLazy => some { own with isLazy := true }
  | .keyword .kwInline => some { own with isInline := true }
  | .keyword .kwExtern => some { own with isForeign := true }
  | _ => none

/-- No modifier was written. -/
def isNone (own : Modifiers) : Bool := own = {}

end Modifiers

/-- The modifiers in front of a member. -/
def modifiers (own : Modifiers) (c : Cursor) : Extended Modifiers c :=
  match h : own.add? c.kind with
  | none => ⟨own, c, .refl c⟩
  | some more =>
    have follows := Cursor.follows_next (c := c) (by intro stop; simp [stop, Modifiers.add?] at h)
    have := follows.lt
    let rest := modifiers more c.next
    ⟨rest.value, rest.cursor, (follows.trans rest.reaches).reaches⟩
termination_by c.left

/-- A function provided from outside, from its `def`. -/
def foreignDecl (c : Cursor) : Parse ForeignDecl c := do
  let keyword ← c.expectWord .kwDef "'def'"
  let name ← keyword.cursor.expectName "function name"
  let list ← params name.cursor
  let colon ← list.cursor.expectMark .colon "':' and the result type of an extern def"
  let result ← typeRef colon.cursor
  return ⟨⟨keyword.value.span, name.value.lexeme, list.value, result.value⟩, result.cursor,
    (((keyword.follows.then name.follows).then list.follows).then colon.follows).then
      result.follows⟩

/-- The parameters of a function, if it has a list, and whether it has one. -/
def optionalParams (c : Cursor) : Extend (List ParamDecl × Bool) c :=
  if c.kind = .punct .openParen then do
    let list ← params c
    return ⟨(list.value, true), list.cursor, list.follows.reaches⟩
  else return ⟨([], false), c, .refl c⟩

/-- A function, from its `def`. -/
def defDecl (implicit : Bool) (c : Cursor) : Parse DefDecl c := do
  let keyword ← c.expectWord .kwDef "'def'"
  let name ← keyword.cursor.expectName "function name"
  let list ← optionalParams name.cursor
  let result ← ascription list.cursor
  let assign ← result.cursor.expectMark .assign "'='"
  let body ← expr assign.cursor.skipNewlines
  let (own, parens) := list.value
  return ⟨⟨keyword.value.span, name.value.lexeme, own, parens, result.value, implicit, body.value⟩,
    body.cursor,
    (((((keyword.follows.then name.follows).trans list.reaches).trans result.reaches).then
      assign.follows).trans assign.cursor.reaches_skipNewlines).then body.follows⟩

mutual

/-- A module or class, from its keyword. -/
def container (exported : Bool) (kind : ContainerKind) (c : Cursor) : Parse Container c := do
  let keyword ← (match kind with
    | .classKind => c.expectWord .kwClass "'class'"
    | .moduleKind => c.expectWord .kwModule "'module'")
  let name ← keyword.cursor.expectName
    (match kind with | .classKind => "class name" | .moduleKind => "module name")
  have head := keyword.follows.then name.follows
  let own : Extended (List ParamDecl) name.cursor ← (do
    if kind = .classKind then
      let list ← optionalParams name.cursor
      return ⟨list.value.1, list.cursor, list.reaches⟩
    else return ⟨[], name.cursor, .refl name.cursor⟩)
  have start := head.trans own.reaches
  if own.cursor.kind = .punct .openBrace then
    let opening ← own.cursor.expectMark .openBrace "'\x7b'"
    have inner := start.then opening.follows
    have := inner.lt
    have : (opening.cursor.atDepth 0).skipSeparators.left ≤ opening.cursor.left :=
      Cursor.left_skipSeparators_le _
    let body ← members (opening.cursor.atDepth 0).skipSeparators
    let closing ← (body.cursor.atDepth c.depth).expectMark .closeBrace "'\x7d'"
    return ⟨.mk keyword.value.span kind name.value.lexeme exported own.value body.value,
      closing.cursor,
      (inner.inBraces ((opening.cursor.atDepth 0).reaches_skipSeparators.trans
        body.reaches)).then closing.follows⟩
  else if kind = .moduleKind then throw (own.cursor.fail .moduleBody)
  else
    return ⟨.mk keyword.value.span kind name.value.lexeme exported own.value [], own.cursor, start⟩
termination_by 4 * c.left

/-- The members up to a closing brace, which is left unread. -/
def members (c : Cursor) : Extend (List Member) c :=
  if c.kind = .punct .closeBrace then return ⟨[], c, .refl c⟩
  else if c.kind = .endOfInput then throw (c.fail .unclosedBody)
  else do
    let first ← member c
    if first.cursor.kind = .punct .closeBrace then
      return ⟨[first.value], first.cursor, first.follows.reaches⟩
    else if first.cursor.kind.isSeparator then
      have follows := first.follows.trans first.cursor.reaches_skipSeparators
      have := follows.lt
      let rest ← members first.cursor.skipSeparators
      return ⟨first.value :: rest.value, rest.cursor, (follows.trans rest.reaches).reaches⟩
    else throw (first.cursor.fail .statementSeparator)
termination_by 4 * c.left + 2

/-- A member of a module or class. -/
def member (c : Cursor) : Parse Member c := do
  if c.kind = .keyword .kwImport then
    let decl ← importDecl c
    return ⟨.imports decl.value, decl.cursor, decl.follows⟩
  else if c.kind = .keyword .kwExport then throw (c.fail .nestedExport)
  else
    let ⟨own, start, reaches⟩ := modifiers {} c
    have := reaches.le
    match start.kind with
    | .keyword .kwVal =>
      if own.isForeign then throw (c.fail .foreignVal)
      else if own.isLazy && own.isInline then throw (c.fail .lazyInlineVal)
      else
        let mode : ValMode :=
          if own.isLazy then .lazy else if own.isInline then .inline else .strict
        let val ← valBinding start
        let decl := val.value
        return ⟨.val ⟨decl.span, decl.name, decl.ascription, mode, own.implicit, decl.init⟩,
          val.cursor, reaches.follows val.follows⟩
    | .keyword .kwDef =>
      if own.isLazy || own.isInline then throw (c.fail .valModifier)
      else if own.isForeign then
        if own.implicit then throw (c.fail .implicitForeign)
        else
          let decl ← foreignDecl start
          return ⟨.foreign decl.value, decl.cursor, reaches.follows decl.follows⟩
      else
        let decl ← defDecl own.implicit start
        return ⟨.func decl.value, decl.cursor, reaches.follows decl.follows⟩
    | .keyword .kwClass =>
      if own.isNone then
        let decl ← container false .classKind start
        return ⟨.container decl.value, decl.cursor, reaches.follows decl.follows⟩
      else throw (c.fail .containerModifier)
    | .keyword .kwModule =>
      if own.isNone then
        let decl ← container false .moduleKind start
        return ⟨.container decl.value, decl.cursor, reaches.follows decl.follows⟩
      else throw (c.fail .containerModifier)
    | _ =>
      if own.isNone then
        let value ← expr start
        return ⟨.expr c.current.span value.value, value.cursor, reaches.follows value.follows⟩
      else throw (start.fail .danglingModifier)
termination_by 4 * c.left + 1

end

/-- An import or a module or class of a unit. -/
inductive TopLevel where
  | imports (decl : Import)
  | item (decl : Container)

/-- One top-level definition. -/
def topLevel (c : Cursor) : Parse TopLevel c := do
  if c.kind = .keyword .kwImport then
    let decl ← importDecl c
    return ⟨.imports decl.value, decl.cursor, decl.follows⟩
  else
    let exported := c.kind == .keyword .kwExport
    let start := if exported then c.next else c
    have reaches : c.Reaches start := by
      unfold start
      split
      · exact c.reaches_next
      · exact .refl c
    match start.kind with
    | .keyword .kwModule =>
      let decl ← container exported .moduleKind start
      return ⟨.item decl.value, decl.cursor, reaches.follows decl.follows⟩
    | .keyword .kwClass =>
      let decl ← container exported .classKind start
      return ⟨.item decl.value, decl.cursor, reaches.follows decl.follows⟩
    | _ => throw (start.fail .expectedTopLevel)

/-- The top-level definitions up to the end of the input. -/
def topLevels (c : Cursor) : Except SyntaxError (List TopLevel) :=
  if c.kind = .endOfInput then return []
  else do
    let first ← topLevel c
    if first.cursor.kind = .endOfInput || first.cursor.kind.isSeparator then
      have := (first.follows.trans first.cursor.reaches_skipSeparators).lt
      let rest ← topLevels first.cursor.skipSeparators
      return first.value :: rest
    else throw (first.cursor.fail .topLevelSeparator)
termination_by c.left

end ScriptShell.Parser

namespace ScriptShell

/-- Reads a token list as a compilation unit. -/
def parseProgram (tokens : List Token) : Except SyntaxError Program := do
  let parts ← Parser.topLevels (Cursor.ofTokens tokens).skipSeparators
  return {
    span := (tokens.headD .noEnd).span
    imports := parts.filterMap fun
      | .imports decl => some decl
      | .item _ => none
    items := parts.filterMap fun
      | .item decl => some decl
      | .imports _ => none }

/-- Reads a token list as one expression. -/
def parseExpr (tokens : List Token) : Except SyntaxError Expr := do
  let value ← Parser.expr (Cursor.ofTokens tokens).skipSeparators
  let rest := value.cursor.skipSeparators
  if rest.kind = .endOfInput then return value.value else throw (rest.fail .trailingInput)

end ScriptShell
