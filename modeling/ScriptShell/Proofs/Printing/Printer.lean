import ScriptShell.Proofs.Splitting.Places

/-!
Units as text. The canonical text of a unit has a blank behind every token, and every import, member
and statement stands on a line of its own. Operands, callees, arguments and conditionals stand in
parentheses, imports name what they take between braces or end in `_`, and string literals escape
line ends, tabs, carriage returns, quotes and backslashes.

Syntax is *valid* when it has a text at all: names are identifiers and no keywords, integer
literals are in range, a path has segments, what is constructed is a path, functions without
parentheses and modules have no parameters, and only top-level modules and classes are exported.
The name `_` is valid except in the path and the selectors of an import, where it takes all
members.
-/
namespace ScriptShell

open Lexer

/-- The token of a mark. -/
def Punct.glyph (mark : Punct) : Glyph := (.punct mark, mark.text)

/-- The token of a keyword. -/
def Keyword.glyph (word : Keyword) : Glyph := (.keyword word, word.text)

namespace Printer

/-- The token of an identifier. -/
def named (text : String) : Glyph := (.identifier, text)

/-- The token of a line end. -/
def line : Glyph := (.newline, "\\n")

/-- A character as it is written in a string literal. -/
def escape (c : Char) : List Char :=
  if c = '\n' then ['\\', 'n']
  else if c = '\t' then ['\\', 't']
  else if c = '\r' then ['\\', 'r']
  else if c = '"' || c = '\\' then ['\\', c]
  else [c]

/-- The text of one token: a line end for a newline, else its spelling and a blank. -/
def spelling (glyph : Glyph) : List Char :=
  match glyph.1 with
  | .newline => ['\n']
  | .string => '"' :: (glyph.2.toList.flatMap escape ++ ['"', ' '])
  | _ => glyph.2.toList ++ [' ']

/-- The text of a token list. -/
def text (glyphs : List Glyph) : List Char := glyphs.flatMap spelling

/-- Tokens between parentheses. -/
def grouped (glyphs : List Glyph) : List Glyph :=
  Punct.openParen.glyph :: (glyphs ++ [Punct.closeParen.glyph])

/-- Segments with a dot in front of each. -/
def further (rest : List String) : List Glyph :=
  rest.flatMap fun segment => [Punct.dot.glyph, named segment]

/-- A dotted path. -/
def segments : List String → List Glyph
  | [] => []
  | first :: rest => named first :: further rest

/-- Phrases with a comma between each two. -/
def listed : List (List Glyph) → List Glyph
  | [] => []
  | first :: rest =>
    first ++ (if rest.isEmpty then [] else Punct.comma.glyph :: listed rest)

/-- Phrases, each on its line. -/
def lined (phrases : List (List Glyph)) : List Glyph := phrases.flatMap (· ++ [line])

/-- A keyword, if it is given. -/
def flag (given : Bool) (word : Keyword) : List Glyph := if given then [word.glyph] else []

end Printer

open Printer

def TypeRef.glyphs (ref : TypeRef) : List Glyph := segments ref.path

/-- A type behind a colon, if there is one. -/
def TypeRef.ascribed : Option TypeRef → List Glyph
  | none => []
  | some ref => Punct.colon.glyph :: ref.glyphs

def ParamDecl.glyphs (param : ParamDecl) : List Glyph :=
  named param.name :: Punct.colon.glyph :: param.type.glyphs

/-- A parameter list. -/
def ParamDecl.list (params : List ParamDecl) : List Glyph :=
  grouped (listed (params.map ParamDecl.glyphs))

/-- The path of a class. -/
def Expr.pathGlyphs : Expr → List Glyph
  | .name _ own => [named own]
  | .select _ object member => object.pathGlyphs ++ [Punct.dot.glyph, named member]
  | _ => []

mutual

/-- The tokens of an expression. -/
def Expr.glyphs : Expr → List Glyph
  | .int _ value => [(.number, toString value)]
  | .str _ value => [(.string, value)]
  | .unit _ => grouped []
  | .this _ => [Keyword.kwThis.glyph]
  | .name _ own => [named own]
  | .select _ object member => grouped object.glyphs ++ [Punct.dot.glyph, named member]
  | .call _ callee args => grouped callee.glyphs ++ grouped (Expr.listGlyphs args)
  | .new _ target args =>
    Keyword.kwNew.glyph :: (target.pathGlyphs ++ grouped (Expr.listGlyphs args))
  | .binary _ op left right => grouped left.glyphs ++ op.mark.glyph :: grouped right.glyphs
  | .unary _ op operand => op.mark.glyph :: grouped operand.glyphs
  | .cond _ condition yes none =>
    grouped (Keyword.kwIf.glyph :: (grouped condition.glyphs ++ yes.glyphs))
  | .cond _ condition yes (some no) =>
    grouped (Keyword.kwIf.glyph ::
      (grouped condition.glyphs ++ (yes.glyphs ++ Keyword.kwElse.glyph :: no.glyphs)))
  | .block _ body =>
    Punct.openBrace.glyph :: line :: (Stmt.linesGlyphs body ++ [Punct.closeBrace.glyph])

/-- Arguments with commas between them. -/
def Expr.listGlyphs : List Expr → List Glyph
  | [] => []
  | first :: rest =>
    first.glyphs ++ (if rest.isEmpty then [] else Punct.comma.glyph :: Expr.listGlyphs rest)

/-- The tokens of a statement. -/
def Stmt.glyphs : Stmt → List Glyph
  | .val _ own ascription init =>
    Keyword.kwVal.glyph :: named own ::
      (TypeRef.ascribed ascription ++ Punct.assign.glyph :: init.glyphs)
  | .expr value => value.glyphs

/-- Statements, each on its line. -/
def Stmt.linesGlyphs : List Stmt → List Glyph
  | [] => []
  | first :: rest => first.glyphs ++ line :: Stmt.linesGlyphs rest

end

/-- One thing that an import takes: a selector, or all other members. -/
def Selector.glyphs : Option Selector → List Glyph
  | some selector => [named selector.name, Punct.arrow.glyph, named selector.boundAs]
  | none => [named "_"]

/-- What an import takes: its selectors, then perhaps all other members. -/
def Import.items (decl : Import) : List (Option Selector) :=
  decl.selectors.map some ++ if decl.wildcard then [none] else []

/-- What an import takes, between braces unless it is all members alone. -/
def Import.taken (decl : Import) : List Glyph :=
  if decl.selectors.isEmpty then [named "_"]
  else Punct.openBrace.glyph ::
    (listed (decl.items.map Selector.glyphs) ++ [Punct.closeBrace.glyph])

def Import.glyphs (decl : Import) : List Glyph :=
  Keyword.kwImport.glyph :: named decl.head ::
    (further decl.tail ++ Punct.dot.glyph :: decl.taken)

def ValDecl.glyphs (decl : ValDecl) : List Glyph :=
  flag decl.implicit .kwImplicit ++ (flag (decl.mode = .lazy) .kwLazy ++
    (flag (decl.mode = .inline) .kwInline ++ Keyword.kwVal.glyph :: named decl.name ::
      (TypeRef.ascribed decl.ascription ++ Punct.assign.glyph :: decl.init.glyphs)))

def DefDecl.glyphs (decl : DefDecl) : List Glyph :=
  flag decl.implicit .kwImplicit ++ Keyword.kwDef.glyph :: named decl.name ::
    ((if decl.parens then ParamDecl.list decl.params else []) ++
      (TypeRef.ascribed decl.result ++ Punct.assign.glyph :: decl.body.glyphs))

def ForeignDecl.glyphs (decl : ForeignDecl) : List Glyph :=
  Keyword.kwExtern.glyph :: Keyword.kwDef.glyph :: named decl.name ::
    (ParamDecl.list decl.params ++ Punct.colon.glyph :: decl.result.glyphs)

/-- The tokens in front of the body of a module or class. -/
def ContainerKind.head (kind : ContainerKind) (own : String) (params : List ParamDecl) :
    List Glyph :=
  kind.word.glyph :: named own :: if kind = .classKind then ParamDecl.list params else []

mutual

/-- The tokens of a member. -/
def Member.glyphs : Member → List Glyph
  | .imports decl => decl.glyphs
  | .val decl => decl.glyphs
  | .func decl => decl.glyphs
  | .foreign decl => decl.glyphs
  | .container decl => decl.glyphs
  | .expr _ value => value.glyphs

/-- Members, each on its line. -/
def Member.linesGlyphs : List Member → List Glyph
  | [] => []
  | first :: rest => first.glyphs ++ line :: Member.linesGlyphs rest

/-- The tokens of a module or class, from its keyword. -/
def Container.glyphs : Container → List Glyph
  | .mk _ kind own _ params members =>
    kind.head own params ++
      Punct.openBrace.glyph :: line :: (Member.linesGlyphs members ++ [Punct.closeBrace.glyph])

end

/-- The tokens of a top-level module or class. -/
def Container.topGlyphs (decl : Container) : List Glyph :=
  flag decl.exported .kwExport ++ decl.glyphs

/-- The tokens of a unit: its imports, then its modules and classes, each on its line. -/
def Program.glyphs (program : Program) : List Glyph :=
  lined (program.imports.map Import.glyphs ++ program.items.map Container.topGlyphs)

/-- The canonical text of a unit. -/
def Program.text (program : Program) : String := String.ofList (Printer.text program.glyphs)

/-- A unit without its places. -/
def Program.unplaced (program : Program) : Program where
  span := .anywhere
  imports := program.imports.map Import.unplaced
  items := program.items.map Container.unplaced

/-! What has a text. -/

/-- An identifier that is no keyword. -/
def IsName (text : String) : Prop := IsWord text.toList ∧ Keyword.ofText? text = none

instance : DecidablePred IsName := fun _ => inferInstanceAs (Decidable (_ ∧ _))

def TypeRef.Valid (ref : TypeRef) : Prop := ref.path ≠ [] ∧ ∀ segment ∈ ref.path, IsName segment

def ParamDecl.Valid (param : ParamDecl) : Prop := IsName param.name ∧ param.type.Valid

/-- A path of names. -/
def Expr.IsPath : Expr → Prop
  | .name _ own => IsName own
  | .select _ object member => object.IsPath ∧ IsName member
  | _ => False

mutual

def Expr.Valid : Expr → Prop
  | .int _ value => value ≤ maxLiteral
  | .str _ _ | .unit _ | .this _ => True
  | .name _ own => IsName own
  | .select _ object member => object.Valid ∧ IsName member
  | .call _ callee args => callee.Valid ∧ Expr.ValidAll args
  | .new _ target args => target.IsPath ∧ Expr.ValidAll args
  | .binary _ _ left right => left.Valid ∧ right.Valid
  | .unary _ _ operand => operand.Valid
  | .cond _ condition yes none => condition.Valid ∧ yes.Valid
  | .cond _ condition yes (some no) => condition.Valid ∧ yes.Valid ∧ no.Valid
  | .block _ body => Stmt.ValidAll body

def Expr.ValidAll : List Expr → Prop
  | [] => True
  | first :: rest => first.Valid ∧ Expr.ValidAll rest

def Stmt.Valid : Stmt → Prop
  | .val _ own ascription init =>
    IsName own ∧ (∀ type ∈ ascription, type.Valid) ∧ init.Valid
  | .expr value => value.Valid

def Stmt.ValidAll : List Stmt → Prop
  | [] => True
  | first :: rest => first.Valid ∧ Stmt.ValidAll rest

end

/-- A name that takes no other members with it. -/
def IsPlain (text : String) : Prop := IsName text ∧ text ≠ "_"

instance : DecidablePred IsPlain := fun _ => inferInstanceAs (Decidable (_ ∧ _))

structure Import.Valid (decl : Import) : Prop where
  head : IsPlain decl.head
  tail : ∀ segment ∈ decl.tail, IsPlain segment
  selectors : ∀ selector ∈ decl.selectors, IsPlain selector.name ∧ IsName selector.boundAs
  takes : decl.wildcard = true ∨ decl.selectors ≠ []

structure ValDecl.Valid (decl : ValDecl) : Prop where
  name : IsName decl.name
  ascription : ∀ type ∈ decl.ascription, type.Valid
  init : decl.init.Valid

structure DefDecl.Valid (decl : DefDecl) : Prop where
  name : IsName decl.name
  params : ∀ param ∈ decl.params, param.Valid
  parens : decl.parens = false → decl.params = []
  result : ∀ type ∈ decl.result, type.Valid
  body : decl.body.Valid

structure ForeignDecl.Valid (decl : ForeignDecl) : Prop where
  name : IsName decl.name
  params : ∀ param ∈ decl.params, param.Valid
  result : decl.result.Valid

mutual

def Member.Valid : Member → Prop
  | .imports decl => decl.Valid
  | .val decl => decl.Valid
  | .func decl => decl.Valid
  | .foreign decl => decl.Valid
  | .container decl => decl.exported = false ∧ decl.Valid
  | .expr _ value => value.Valid

def Member.ValidAll : List Member → Prop
  | [] => True
  | first :: rest => first.Valid ∧ Member.ValidAll rest

def Container.Valid : Container → Prop
  | .mk _ kind own _ params members =>
    IsName own ∧ (kind = .moduleKind → params = []) ∧ (∀ param ∈ params, param.Valid) ∧
      Member.ValidAll members

end

structure Program.Valid (program : Program) : Prop where
  imports : ∀ decl ∈ program.imports, decl.Valid
  items : ∀ decl ∈ program.items, decl.Valid

end ScriptShell
