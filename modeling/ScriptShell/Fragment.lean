import ScriptShell.Token.Lexer
import ScriptShell.Text.Sorted

/-!
Fragments of input: what a user types at once. A fragment is split into its top-level
statements by its brackets, newlines and semicolons alone; everything else is left to the
compiler. A bare expression becomes a value definition, so that its result has a name.

A fragment is *incomplete* when a bracket is open or its last token asks for more, and
*malformed* when no further text can mend it.
-/
namespace ScriptShell

/-- What a statement did, for the text shown after it ran. -/
inductive DisplayItem where
  /-- A function, class or module was defined. -/
  | definition (label name : String)
  /-- Something was imported. -/
  | imported (path : String)
  /-- A value was computed. -/
  | identity (name : String)
  /-- A value was defined that is computed on first use. -/
  | lazyIdentity (name : String)
deriving Repr, DecidableEq

/-- One top-level statement: its code, what to show for it, and the first segments of the
paths it mentions, in increasing order. -/
structure Decl where
  code : String
  display : List DisplayItem
  references : List String
deriving Repr, DecidableEq

/-- Why no further text can complete a fragment. -/
inductive FragmentError where
  | lexical (error : LexError)
  | bracket (closer : Token)
deriving Repr, DecidableEq

/-- The wording of a fragment error. -/
def FragmentError.message : FragmentError → String
  | .lexical error =>
    toString error.line ++ ":" ++ toString error.column ++ ": " ++ error.cause.message
  | .bracket closer =>
    toString closer.span.line ++ ":" ++ toString closer.span.columnStart ++ ": unexpected " ++
      closer.kind.name

/-- What a fragment turns out to be. -/
inductive Fragment where
  | declarations (decls : List Decl)
  | incomplete (text : String)
  | blank
  | malformed (error : FragmentError)
deriving Repr, DecidableEq

namespace Fragment

/-- The brackets that are open after a token list, innermost first, or the first closing
bracket that does not close the innermost one. -/
def brackets (opened : List TokenKind) : List Token → Except Token (List TokenKind)
  | [] => .ok opened
  | token :: rest =>
    if token.kind.isOpener then brackets (token.kind :: opened) rest
    else
      match token.kind.opener?, opened with
      | none, _ => brackets opened rest
      | some opener, innermost :: outer =>
        if innermost = opener then brackets outer rest else .error token
      | some _, [] => .error token

theorem brackets_append (opened : List TokenKind) (front back : List Token) :
    brackets opened (front ++ back) = (brackets opened front).bind (brackets · back) := by
  induction front generalizing opened with
  | nil => rfl
  | cons token rest ih =>
    simp only [List.cons_append, brackets]
    repeat' split
    all_goals first | exact ih _ | rfl

/-- The bracket depth behind a token. -/
def depthAfter (depth : Nat) (kind : TokenKind) : Nat :=
  if kind.isOpener then depth + 1
  else if kind.opener?.isSome then depth - 1
  else depth

/-- The next token that is not a newline continues the statement before it. -/
def resumes (tokens : List Token) : Bool :=
  match tokens.dropWhile (·.kind = .newline) with
  | [] => false
  | token :: _ => token.kind = .keyword .kwElse || token.kind = .punct .dot

/-- Splits a token list into statements at the separators outside all brackets. `current` holds
the tokens of the statement being read, last one first. -/
def splitFrom (current : List Token) (depth : Nat) : List Token → List (List Token)
  | [] => if current.isEmpty then [] else [current.reverse]
  | token :: rest =>
    if depth = 0 && token.kind.isSeparator then
      match current with
      | [] => splitFrom [] 0 rest
      | last :: _ =>
        if token.kind = .newline && (last.kind.continues || resumes rest) then
          splitFrom (token :: current) 0 rest
        else current.reverse :: splitFrom [] 0 rest
    else splitFrom (token :: current) (depthAfter depth token.kind) rest

/-- The top-level statements of a token list. -/
def statements (tokens : List Token) : List (List Token) := splitFrom [] 0 tokens

/-- Words that stand before a definition's keyword. -/
def isModifier : TokenKind → Bool
  | .keyword .kwImplicit | .keyword .kwLazy | .keyword .kwInline | .keyword .kwExport => true
  | _ => false

/-- Words that start a definition or an import. -/
def startsDefinition : TokenKind → Bool
  | .keyword .kwVal | .keyword .kwDef | .keyword .kwExtern | .keyword .kwClass
  | .keyword .kwModule | .keyword .kwImport => true
  | _ => false

/-- The statement is a bare expression. -/
def isExpression : List Token → Bool
  | [] => false
  | first :: _ => !isModifier first.kind && !startsDefinition first.kind

/-- The identifiers of a statement that do not follow a dot. -/
def identifiers (afterDot : Bool) : List Token → List String
  | [] => []
  | token :: rest =>
    let own := if token.kind = .identifier && !afterDot then [token.lexeme] else []
    own ++ identifiers (token.kind = .punct .dot) rest

/-- The source text that a statement spans. -/
def spanText (source : String) (statement : List Token) : String :=
  match statement.head?, statement.getLast? with
  | some first, some last =>
    String.ofList ((source.toList.drop first.span.start).take (last.span.stop - first.span.start))
  | _, _ => ""

/-- The text shown for the path of an import. -/
def importPath : List Token → String
  | [] => ""
  | token :: rest =>
    (match token.kind with
     | .punct .comma => ", "
     | .punct .arrow => " => "
     | .newline => ""
     | _ => token.lexeme) ++ importPath rest

/-- The identifier at the front of a token list. -/
def leadingName : List Token → Option String
  | [] => none
  | token :: _ => if token.kind = .identifier then some token.lexeme else none

/-- What to show for a definition or import. -/
def displayItems (statement : List Token) : List DisplayItem :=
  let isLazy := (statement.takeWhile (isModifier ·.kind)).any (·.kind = .keyword .kwLazy)
  match statement.dropWhile (isModifier ·.kind) with
  | [] => []
  | keyword :: rest =>
    match keyword.kind with
    | .keyword .kwVal =>
      ((leadingName rest).map (if isLazy then .lazyIdentity else .identity)).toList
    | .keyword .kwDef => ((leadingName rest).map (.definition "function")).toList
    | .keyword .kwExtern => ((leadingName rest.tail).map (.definition "function")).toList
    | .keyword .kwClass => ((leadingName rest).map (.definition "class")).toList
    | .keyword .kwModule => ((leadingName rest).map (.definition "module")).toList
    | .keyword .kwImport => [.imported (importPath rest)]
    | _ => []

/-- The name that a bare expression is bound to: `res` and the line, numbered when the
fragment holds several expressions. -/
def resultName (line : String) (several : Bool) (index : Nat) : String :=
  "res" ++ line ++ (if several then "_" ++ toString index else "")

/-- The declarations of the statements of a fragment. `index` counts the expressions before. -/
def declarationsFrom (source line : String) (several : Bool) (index : Nat) :
    List (List Token) → List Decl
  | [] => []
  | statement :: rest =>
    let text := spanText source statement
    let references := sortNames (identifiers false statement)
    if isExpression statement then
      let name := resultName line several index
      ⟨"val " ++ name ++ " = " ++ text, [.identity name], references⟩ ::
        declarationsFrom source line several (index + 1) rest
    else
      ⟨text, displayItems statement, references⟩ ::
        declarationsFrom source line several index rest

/-- A line id as a part of an identifier. -/
def sanitize (name : String) : String :=
  String.ofList (name.toList.map fun c => if c = '-' then '_' else c)

/-- The last token that is not a newline asks for more. -/
def dangling (tokens : List Token) : Bool :=
  match tokens.reverse.dropWhile (·.kind = .newline) with
  | [] => false
  | last :: _ => last.kind.continues

/-- Classifies a token list without its end-of-input token. -/
def ofTokens (source line : String) (tokens : List Token) : Fragment :=
  if tokens.all (·.kind.isSeparator) then .blank
  else
    match brackets [] tokens with
    | .error closer => .malformed (.bracket closer)
    | .ok opened =>
      if !opened.isEmpty || dangling tokens then .incomplete source
      else
        let parts := statements tokens
        let several := (parts.filter isExpression).length > 1
        .declarations (declarationsFrom source (sanitize line) several 0 parts)

/-- Classifies the text of a fragment entered on the given line. -/
def parse (source line : String) : Fragment :=
  match tokenize source with
  | .error error => .malformed (.lexical error)
  | .ok tokens => ofTokens source line (tokens.filter (·.kind ≠ .endOfInput))

end Fragment

end ScriptShell
