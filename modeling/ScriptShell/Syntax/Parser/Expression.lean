import ScriptShell.Syntax
import ScriptShell.Syntax.Cursor
import ScriptShell.Token.Lexer

/-!
Recursive descent for types, parameter lists and expressions. A newline ends a statement,
except inside parentheses, after a binary operator, and before `else` or `.`. Every function
hands back the cursor behind what it read, together with the proof that it lies further on at
the same parenthesis depth; the recursion ends because the tokens run out.
-/
namespace ScriptShell.Parser

/-- The further segments of a dotted path. -/
def pathRest (what : String) (c : Cursor) : Extend (List String) c :=
  if h : c.kind = .punct .dot then do
    have dot := Cursor.follows_next (c := c) (by simp [h])
    let segment ← c.next.expectName what
    have follows := dot.then segment.follows
    have := follows.lt
    let rest ← pathRest what segment.cursor
    return ⟨segment.value.lexeme :: rest.value, rest.cursor,
      (follows.trans rest.reaches).reaches⟩
  else return ⟨[], c, .refl c⟩
termination_by c.left

/-- A written type. -/
def typeRef (c : Cursor) : Parse TypeRef c := do
  let first ← c.expectName "type name"
  let rest ← pathRest "type name" first.cursor
  return ⟨⟨first.value.lexeme :: rest.value, first.value.span⟩, rest.cursor,
    first.follows.trans rest.reaches⟩

/-- The parameters of a list with at least one. -/
def paramList (c : Cursor) : Parse (List ParamDecl) c := do
  let name ← c.expectName "parameter name"
  let colon ← name.cursor.expectMark .colon "':' and a parameter type"
  let type ← typeRef colon.cursor
  have follows := (name.follows.then colon.follows).then type.follows
  let param : ParamDecl := ⟨name.value.lexeme, type.value⟩
  if h : type.cursor.kind = .punct .comma then
    have comma := Cursor.follows_next (c := type.cursor) (by simp [h])
    have := (follows.then comma).lt
    let rest ← paramList type.cursor.next
    return ⟨param :: rest.value, rest.cursor, (follows.then comma).then rest.follows⟩
  else return ⟨[param], type.cursor, follows⟩
termination_by c.left

/-- A parameter list in parentheses. -/
def params (c : Cursor) : Parse (List ParamDecl) c := do
  let opening ← c.expectMark .openParen "'('"
  if opening.cursor.deeper.kind = .punct .closeParen then
    let closing ← opening.cursor.deeper.expectMark .closeParen "')'"
    return ⟨[], closing.cursor.shallower, opening.follows.closed closing.follows⟩
  else
    let list ← paramList opening.cursor.deeper
    let closing ← list.cursor.expectMark .closeParen "')'"
    return ⟨list.value, closing.cursor.shallower,
      opening.follows.closed (list.follows.then closing.follows)⟩

/-- A value definition after its modifiers. -/
structure ValBinding where
  span : Span
  name : String
  ascription : Option TypeRef
  init : Expr

/-- The type written for a definition, if there is one. -/
def ascription (c : Cursor) : Extend (Option TypeRef) c :=
  if c.kind = .punct .colon then do
    let type ← typeRef c.next
    return ⟨some type.value, type.cursor, c.reaches_next.trans type.follows.reaches⟩
  else return ⟨none, c, .refl c⟩

/-- The path of a class, every segment reported at its own token. -/
def targetRest (target : Expr) (c : Cursor) : Extend Expr c :=
  if h : c.kind = .punct .dot then do
    have dot := Cursor.follows_next (c := c) (by simp [h])
    let segment ← c.next.expectName "class name"
    have follows := dot.then segment.follows
    have := follows.lt
    let rest ← targetRest (.select segment.value.span target segment.value.lexeme) segment.cursor
    return ⟨rest.value, rest.cursor, (follows.trans rest.reaches).reaches⟩
  else return ⟨target, c, .refl c⟩
termination_by c.left

mutual

/-- An expression: a conditional, or operands joined by operators of any looseness. -/
def expr (c : Cursor) : Parse Expr c :=
  if c.kind = .keyword .kwIf then condition c else binary ⟨6, by decide⟩ c
termination_by 32 * c.left + 20

/-- A conditional expression. A newline may stand before `else`. -/
def condition (c : Cursor) : Parse Expr c := do
  let keyword ← c.expectWord .kwIf "'if'"
  let opening ← keyword.cursor.expectMark .openParen "'(' after 'if'"
  have start := keyword.follows.then opening.follows
  have := start.lt
  let test ← expr opening.cursor.deeper
  let closing ← test.cursor.expectMark .closeParen "')' closing the condition"
  have head := start.closed (test.follows.then closing.follows)
  have inner := head.trans closing.cursor.shallower.reaches_skipNewlines
  have := inner.lt
  let yes ← expr closing.cursor.shallower.skipNewlines
  have body := inner.then yes.follows
  if yes.cursor.kindPastNewlines = .keyword .kwElse then
    have before := yes.cursor.reaches_skipNewlines.trans yes.cursor.skipNewlines.reaches_next
    have marker := before.trans yes.cursor.skipNewlines.next.reaches_skipNewlines
    have := (body.trans marker).lt
    let no ← expr yes.cursor.skipNewlines.next.skipNewlines
    return ⟨.cond keyword.value.span test.value yes.value (some no.value), no.cursor,
      (body.trans marker).then no.follows⟩
  else return ⟨.cond keyword.value.span test.value yes.value none, yes.cursor, body⟩
termination_by 32 * c.left

/-- Operands joined by operators of at most the given looseness. -/
def binary (loose : Fin 7) (c : Cursor) : Parse Expr c :=
  match loose with
  | ⟨0, _⟩ => unary c
  | ⟨tighter + 1, bound⟩ => do
    let left ← binary ⟨tighter, by omega⟩ c
    have := left.follows.lt
    let whole ← binaryRest ⟨tighter, by omega⟩ left.value left.cursor
    return ⟨whole.value, whole.cursor, left.follows.trans whole.reaches⟩
termination_by 32 * c.left + 4 + loose.val

/-- The operators one looser than `tighter` and their right operands, behind a left operand. -/
def binaryRest (tighter : Fin 6) (left : Expr) (c : Cursor) : Extend Expr c :=
  match h : BinaryOp.ofToken? c.kind with
  | none => return ⟨left, c, .refl c⟩
  | some op =>
    if op.looseness = tighter.val + 1 then do
      have mark := Cursor.follows_next (c := c) (by intro stop; simp [stop, BinaryOp.ofToken?] at h)
      have start := mark.trans c.next.reaches_skipNewlines
      have := start.lt
      let right ← (if c.next.skipNewlines.kind = .keyword .kwIf
        then condition c.next.skipNewlines
        else binary ⟨tighter.val, by omega⟩ c.next.skipNewlines)
      have follows := start.then right.follows
      have := follows.lt
      let whole ← binaryRest tighter (.binary c.current.span op left right.value) right.cursor
      return ⟨whole.value, whole.cursor, (follows.trans whole.reaches).reaches⟩
    else return ⟨left, c, .refl c⟩
termination_by 32 * c.left

/-- An operand with the operators in front of it. -/
def unary (c : Cursor) : Parse Expr c :=
  match h : UnaryOp.ofToken? c.kind with
  | some op => do
    have mark := Cursor.follows_next (c := c) (by intro stop; simp [stop, UnaryOp.ofToken?] at h)
    have := mark.lt
    let operand ← unary c.next
    return ⟨.unary c.current.span op operand.value, operand.cursor, mark.then operand.follows⟩
  | none => postfixed c
termination_by 32 * c.left + 3

/-- An operand with its selections and argument lists. -/
def postfixed (c : Cursor) : Parse Expr c := do
  let operand ← primary c
  have := operand.follows.lt
  let whole ← postfixRest operand.value operand.cursor
  return ⟨whole.value, whole.cursor, operand.follows.trans whole.reaches⟩
termination_by 32 * c.left + 2

/-- The selections and argument lists behind an operand. A newline may stand before `.`. -/
def postfixRest (operand : Expr) (c : Cursor) : Extend Expr c :=
  if c.kindPastNewlines = .punct .dot then do
    have dot := c.reaches_skipNewlines.trans c.skipNewlines.reaches_next
    let name ← c.skipNewlines.next.expectName "member name after '.'"
    have follows := dot.follows name.follows
    have := follows.lt
    let whole ← postfixRest (.select name.value.span operand name.value.lexeme) name.cursor
    return ⟨whole.value, whole.cursor, (follows.trans whole.reaches).reaches⟩
  else if c.kind = .punct .openParen then do
    let args ← arguments c
    have := args.follows.lt
    let whole ← postfixRest (.call c.current.span operand args.value) args.cursor
    return ⟨whole.value, whole.cursor, (args.follows.trans whole.reaches).reaches⟩
  else return ⟨operand, c, .refl c⟩
termination_by 32 * c.left + 1

/-- A literal, a name, `this`, an expression in parentheses, a block, or a construction. -/
def primary (c : Cursor) : Parse Expr c :=
  match h : c.kind with
  | .number =>
    return ⟨.int c.current.span (Lexer.digitsValue c.current.lexeme.toList), c.next,
      Cursor.follows_next (by simp [h])⟩
  | .string =>
    return ⟨.str c.current.span c.current.lexeme, c.next, Cursor.follows_next (by simp [h])⟩
  | .identifier =>
    return ⟨.name c.current.span c.current.lexeme, c.next, Cursor.follows_next (by simp [h])⟩
  | .keyword .kwThis =>
    return ⟨.this c.current.span, c.next, Cursor.follows_next (by simp [h])⟩
  | .punct .openParen => do
    have opening := Cursor.follows_next (c := c) (by simp [h])
    have := opening.lt
    if c.next.deeper.kind = .punct .closeParen then
      let closing ← c.next.deeper.expectMark .closeParen "')'"
      return ⟨.unit c.current.span, closing.cursor.shallower, opening.closed closing.follows⟩
    else
      let inner ← expr c.next.deeper
      let closing ← inner.cursor.expectMark .closeParen "')'"
      return ⟨inner.value, closing.cursor.shallower,
        opening.closed (inner.follows.then closing.follows)⟩
  | .punct .openBrace => block c
  | .keyword .kwNew => construction c
  | .keyword .kwIf => condition c
  | .endOfInput => throw (c.fail .expressionAtEnd)
  | kind => throw (c.fail (.expressionExpected kind))
termination_by 32 * c.left + 1

/-- Statements between braces. -/
def block (c : Cursor) : Parse Expr c := do
  let opening ← c.expectMark .openBrace "'\x7b'"
  have := opening.follows.lt
  have : (opening.cursor.atDepth 0).skipSeparators.left ≤ opening.cursor.left :=
    Cursor.left_skipSeparators_le _
  let body ← statements (opening.cursor.atDepth 0).skipSeparators
  let closing ← (body.cursor.atDepth c.depth).expectMark .closeBrace "'\x7d'"
  return ⟨.block opening.value.span body.value, closing.cursor,
    (opening.follows.inBraces ((opening.cursor.atDepth 0).reaches_skipSeparators.trans
      body.reaches)).then closing.follows⟩
termination_by 32 * c.left

/-- The statements up to a closing brace, which is left unread. -/
def statements (c : Cursor) : Extend (List Stmt) c :=
  if c.kind = .punct .closeBrace then return ⟨[], c, .refl c⟩
  else if c.kind = .endOfInput then throw (c.fail .unclosedBody)
  else do
    let first ← statement c
    if first.cursor.kind = .punct .closeBrace then
      return ⟨[first.value], first.cursor, first.follows.reaches⟩
    else if first.cursor.kind.isSeparator then
      have follows := first.follows.trans first.cursor.reaches_skipSeparators
      have := follows.lt
      let rest ← statements first.cursor.skipSeparators
      return ⟨first.value :: rest.value, rest.cursor, (follows.trans rest.reaches).reaches⟩
    else throw (first.cursor.fail .statementSeparator)
termination_by 32 * c.left + 22

/-- A statement of a block. -/
def statement (c : Cursor) : Parse Stmt c :=
  match c.kind with
  | .keyword .kwVal => do
    let val ← valBinding c
    let decl := val.value
    return ⟨.val decl.span decl.name decl.ascription decl.init, val.cursor, val.follows⟩
  | .keyword .kwDef | .keyword .kwClass | .keyword .kwModule | .keyword .kwImport =>
    throw (c.fail .blockDefinition)
  | _ => do
    let value ← expr c
    return ⟨.expr value.value, value.cursor, value.follows⟩
termination_by 32 * c.left + 21

/-- A value definition after its modifiers. -/
def valBinding (c : Cursor) : Parse ValBinding c := do
  let keyword ← c.expectWord .kwVal "'val'"
  let name ← keyword.cursor.expectName "value name"
  let type ← ascription name.cursor
  let assign ← type.cursor.expectMark .assign "'='"
  have head := ((keyword.follows.then name.follows).trans type.reaches).then assign.follows
  have start := head.trans assign.cursor.reaches_skipNewlines
  have := start.lt
  let init ← expr assign.cursor.skipNewlines
  return ⟨⟨keyword.value.span, name.value.lexeme, type.value, init.value⟩, init.cursor,
    start.then init.follows⟩
termination_by 32 * c.left

/-- The construction of an object. -/
def construction (c : Cursor) : Parse Expr c := do
  let keyword ← c.expectWord .kwNew "'new'"
  let first ← keyword.cursor.expectName "class name after 'new'"
  let target ← targetRest (.name first.value.span first.value.lexeme) first.cursor
  have head := (keyword.follows.then first.follows).trans target.reaches
  if target.cursor.kind = .punct .openParen then
    have := head.lt
    let args ← arguments target.cursor
    return ⟨.new keyword.value.span target.value args.value, args.cursor, head.then args.follows⟩
  else return ⟨.new keyword.value.span target.value [], target.cursor, head⟩
termination_by 32 * c.left

/-- Arguments in parentheses. -/
def arguments (c : Cursor) : Parse (List Expr) c := do
  let opening ← c.expectMark .openParen "'('"
  have := opening.follows.lt
  if opening.cursor.deeper.kind = .punct .closeParen then
    let closing ← opening.cursor.deeper.expectMark .closeParen "')' closing the argument list"
    return ⟨[], closing.cursor.shallower, opening.follows.closed closing.follows⟩
  else
    let list ← argumentList opening.cursor.deeper
    let closing ← list.cursor.expectMark .closeParen "')' closing the argument list"
    return ⟨list.value, closing.cursor.shallower,
      opening.follows.closed (list.follows.then closing.follows)⟩
termination_by 32 * c.left

/-- At least one argument. -/
def argumentList (c : Cursor) : Parse (List Expr) c := do
  let first ← expr c
  if h : first.cursor.kind = .punct .comma then
    have follows := first.follows.then (Cursor.follows_next (by simp [h]))
    have := follows.lt
    let rest ← argumentList first.cursor.next
    return ⟨first.value :: rest.value, rest.cursor, follows.then rest.follows⟩
  else return ⟨[first.value], first.cursor, first.follows⟩
termination_by 32 * c.left + 21

end

theorem expr_eq (c : Cursor) :
    expr c = if c.kind = .keyword .kwIf then condition c else binary ⟨6, by decide⟩ c := by
  rw [expr]

end ScriptShell.Parser
