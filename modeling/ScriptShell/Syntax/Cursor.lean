import ScriptShell.Token

/-!
The parser's place in a token list. A cursor holds the tokens not yet read, the end-of-input
token behind them, and the number of open parentheses. Inside parentheses newlines are not
seen. Reading past the end yields the end-of-input token again and again.

`Reaches` says that a cursor was got from another by reading; `Follows` that at least one
token was read. Both keep the parenthesis depth.
-/
namespace ScriptShell

/-- Why a token list is not a program or an expression. -/
inductive SyntaxCause where
  | expected (what : String) (found : Token)
  | expectedTopLevel
  | topLevelSeparator
  | trailingInput
  | unqualifiedImport
  | moduleBody
  | unclosedBody
  | blockDefinition
  | statementSeparator
  | nestedExport
  | foreignVal
  | lazyInlineVal
  | valModifier
  | implicitForeign
  | containerModifier
  | danglingModifier
  | expressionAtEnd
  | expressionExpected (found : TokenKind)
deriving Repr, DecidableEq

/-- The wording of a syntax error. -/
def SyntaxCause.message : SyntaxCause → String
  | .expected what found =>
    "expected " ++ what ++ " but found " ++
      (if found.kind = .identifier || found.kind = .number then "'" ++ found.lexeme ++ "'"
       else found.kind.name)
  | .expectedTopLevel => "expected 'module' or 'class' at top level"
  | .topLevelSeparator => "expected ';' or newline after top-level definition"
  | .trailingInput => "unexpected trailing input"
  | .unqualifiedImport => "import requires a qualified path"
  | .moduleBody => "expected '\x7b' after module name"
  | .unclosedBody => "expected '\x7d' before end of input"
  | .blockDefinition => "only 'val' definitions and expressions are allowed inside a block"
  | .statementSeparator => "expected ';' or newline between statements"
  | .nestedExport => "'export' is only allowed on top-level modules and classes"
  | .foreignVal => "'extern' applies to 'def' only"
  | .lazyInlineVal => "a val cannot be both 'lazy' and 'inline'"
  | .valModifier => "'lazy' and 'inline' apply to 'val' only"
  | .implicitForeign => "an extern def cannot be implicit"
  | .containerModifier => "modifiers are not allowed on nested modules and classes"
  | .danglingModifier => "expected 'val' or 'def' after modifier"
  | .expressionAtEnd => "expected expression before end of input"
  | .expressionExpected found => "expected expression but found " ++ found.name

/-- A syntax error with the place it points at. -/
structure SyntaxError where
  cause : SyntaxCause
  line : Nat
  column : Nat
deriving Repr, DecidableEq

/-- The error `cause` reported at a token. -/
def Token.fail (token : Token) (cause : SyntaxCause) : SyntaxError :=
  ⟨cause, token.span.line, token.span.columnStart⟩

/-- A place in a token list. -/
structure Cursor where
  rest : List Token
  final : Token
  depth : Nat
  ends : final.kind = .endOfInput

namespace Cursor

/-- The start of a token list. Its last token is the end of the input; a list without one gets
an end without a place. -/
def ofTokens (tokens : List Token) : Cursor :=
  match tokens.getLast? with
  | none => ⟨[], .noEnd, 0, rfl⟩
  | some last =>
    if h : last.kind = .endOfInput then ⟨tokens.dropLast, last, 0, h⟩
    else ⟨tokens, .noEnd, 0, rfl⟩

/-- The number of tokens not yet read. -/
def left (c : Cursor) : Nat := c.rest.length

/-- The tokens not yet read, from the first one that is seen. -/
def visible (c : Cursor) : List Token :=
  if c.depth = 0 then c.rest else c.rest.dropWhile (·.kind = .newline)

/-- The token read next. -/
def current (c : Cursor) : Token := c.visible.headD c.final

/-- The kind of the token read next. -/
def kind (c : Cursor) : TokenKind := c.current.kind

/-- The cursor behind the token read next. -/
def next (c : Cursor) : Cursor := { c with rest := c.visible.tail }

/-- The cursor behind the newlines at the front. -/
def skipNewlines (c : Cursor) : Cursor :=
  { c with rest := c.rest.dropWhile (·.kind = .newline) }

/-- The cursor behind the newlines and semicolons at the front. -/
def skipSeparators (c : Cursor) : Cursor :=
  { c with rest := c.rest.dropWhile (·.kind.isSeparator) }

/-- The kind of the first token that is not a newline. -/
def kindPastNewlines (c : Cursor) : TokenKind := (c.skipNewlines.rest.headD c.final).kind

/-- One more open parenthesis. -/
def deeper (c : Cursor) : Cursor := { c with depth := c.depth + 1 }

/-- One open parenthesis less. -/
def shallower (c : Cursor) : Cursor := { c with depth := c.depth - 1 }

/-- The cursor with another number of open parentheses. -/
def atDepth (c : Cursor) (depth : Nat) : Cursor := { c with depth }

/-- An error at the token read next. -/
def fail (c : Cursor) (cause : SyntaxCause) : SyntaxError := c.current.fail cause

/-- Reading from `c` leads to `d`: what is left at `d` is a tail of what is left at `c`. -/
structure Reaches (c d : Cursor) : Prop where
  rest : d.rest <:+ c.rest
  final : d.final = c.final
  depth : d.depth = c.depth

/-- Reading at least one token from `c` leads to `d`. -/
structure Follows (c d : Cursor) : Prop where
  reaches : c.Reaches d
  lt : d.left < c.left

theorem Reaches.refl (c : Cursor) : c.Reaches c := ⟨List.suffix_refl _, rfl, rfl⟩

theorem Reaches.le {c d : Cursor} (h : c.Reaches d) : d.left ≤ c.left := h.rest.length_le

theorem Reaches.trans {c d e : Cursor} (h : c.Reaches d) (k : d.Reaches e) : c.Reaches e :=
  ⟨k.rest.trans h.rest, k.final.trans h.final, k.depth.trans h.depth⟩

theorem Follows.trans {c d e : Cursor} (h : c.Follows d) (k : d.Reaches e) : c.Follows e :=
  ⟨h.reaches.trans k, Nat.lt_of_le_of_lt k.le h.lt⟩

theorem Reaches.follows {c d e : Cursor} (h : c.Reaches d) (k : d.Follows e) : c.Follows e :=
  ⟨h.trans k.reaches, Nat.lt_of_lt_of_le k.lt h.le⟩

theorem Follows.then {c d e : Cursor} (h : c.Follows d) (k : d.Follows e) : c.Follows e :=
  h.trans k.reaches

theorem visible_suffix (c : Cursor) : c.visible <:+ c.rest := by
  unfold visible
  split
  · exact List.suffix_refl _
  · exact List.dropWhile_suffix _

theorem reaches_next (c : Cursor) : c.Reaches c.next :=
  ⟨(List.tail_suffix _).trans c.visible_suffix, rfl, rfl⟩

theorem reaches_skipNewlines (c : Cursor) : c.Reaches c.skipNewlines :=
  ⟨List.dropWhile_suffix _, rfl, rfl⟩

theorem reaches_skipSeparators (c : Cursor) : c.Reaches c.skipSeparators :=
  ⟨List.dropWhile_suffix _, rfl, rfl⟩

/-- A token that does not end the input is really read. -/
theorem follows_next {c : Cursor} (h : c.kind ≠ .endOfInput) : c.Follows c.next := by
  refine ⟨c.reaches_next, ?_⟩
  have suffix := c.visible_suffix.length_le
  unfold kind current at h
  unfold left next
  cases seen : c.visible with
  | nil => simp [seen, c.ends] at h
  | cons token tail => simp only [seen, List.length_cons, List.tail_cons] at suffix ⊢; omega

/-- Parentheses opened and closed again leave the depth as it was. -/
theorem Follows.closed {c d e : Cursor} (h : c.Follows d) (k : d.deeper.Follows e) :
    c.Follows e.shallower where
  reaches := ⟨k.reaches.rest.trans h.reaches.rest, k.reaches.final.trans h.reaches.final, by
    have depth := k.reaches.depth
    have outer := h.reaches.depth
    simp only [deeper, shallower] at depth ⊢
    omega⟩
  lt := Nat.lt_trans k.lt h.lt

/-- A body between braces, read at depth zero, leaves the depth as it was. -/
theorem Follows.inBraces {c d e : Cursor} (h : c.Follows d) (k : (d.atDepth 0).Reaches e) :
    c.Follows (e.atDepth c.depth) where
  reaches := ⟨k.rest.trans h.reaches.rest, k.final.trans h.reaches.final, rfl⟩
  lt := Nat.lt_of_le_of_lt k.le h.lt

@[simp] theorem left_deeper (c : Cursor) : c.deeper.left = c.left := rfl

@[simp] theorem left_shallower (c : Cursor) : c.shallower.left = c.left := rfl

@[simp] theorem left_atDepth (c : Cursor) (depth : Nat) : (c.atDepth depth).left = c.left := rfl

theorem left_skipNewlines_le (c : Cursor) : c.skipNewlines.left ≤ c.left :=
  c.reaches_skipNewlines.le

theorem left_skipSeparators_le (c : Cursor) : c.skipSeparators.left ≤ c.left :=
  c.reaches_skipSeparators.le

theorem left_next_le (c : Cursor) : c.next.left ≤ c.left :=
  c.reaches_next.le

end Cursor

/-- A value read from `c`, and the cursor behind it: at least one token was read. -/
structure Parsed (α : Type) (c : Cursor) where
  value : α
  cursor : Cursor
  follows : c.Follows cursor

/-- A value read from `c`, and the cursor behind it: perhaps no token was read. -/
structure Extended (α : Type) (c : Cursor) where
  value : α
  cursor : Cursor
  reaches : c.Reaches cursor

/-- Reading a value at a cursor. -/
abbrev Parse (α : Type) (c : Cursor) := Except SyntaxError (Parsed α c)

/-- Reading a value, perhaps from no token at all, at a cursor. -/
abbrev Extend (α : Type) (c : Cursor) := Except SyntaxError (Extended α c)

namespace Cursor

/-- Reads a token of the given kind, described in the error as `what`. -/
def expect (kind : TokenKind) (what : String) (c : Cursor) (h : kind ≠ .endOfInput := by decide) :
    Parse Token c :=
  if found : c.kind = kind then .ok ⟨c.current, c.next, follows_next (found ▸ h)⟩
  else .error (c.fail (.expected what c.current))

/-- Reads an identifier, described in the error as `what`. -/
def expectName (what : String) (c : Cursor) : Parse Token c := c.expect .identifier what

/-- Reads a mark, described in the error as `what`. -/
def expectMark (mark : Punct) (what : String) (c : Cursor) : Parse Token c :=
  c.expect (.punct mark) what (by simp)

/-- Reads a keyword, described in the error as `what`. -/
def expectWord (word : Keyword) (what : String) (c : Cursor) : Parse Token c :=
  c.expect (.keyword word) what (by simp)

end Cursor

end ScriptShell
