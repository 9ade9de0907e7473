/-!
Tokens of the script language: keywords, punctuation, and the spans that place a token in
its source. Newlines are tokens, because they separate statements outside parentheses.
-/
namespace ScriptShell

/-- A place in a source: the offset counts bytes from zero, line and column from one. -/
structure Position where
  offset : Nat
  line : Nat
  column : Nat
deriving Repr, DecidableEq, Inhabited

/-- The start of a source. -/
def Position.start : Position := ⟨0, 1, 1⟩

/-- The place `count` bytes further on the same line. -/
def Position.advance (place : Position) (count : Nat) : Position :=
  ⟨place.offset + count, place.line, place.column + count⟩

/-- The place after the newline at `place`. -/
def Position.nextLine (place : Position) : Position :=
  ⟨place.offset + 1, place.line + 1, 1⟩

/-- A piece of one line: columns and offsets of its first byte and of the byte after its last. -/
structure Span where
  line : Nat
  columnStart : Nat
  columnEnd : Nat
  start : Nat
  stop : Nat
deriving Repr, DecidableEq, Inhabited

/-- The span of the `length` bytes at a place. -/
def Position.span (place : Position) (length : Nat) : Span :=
  ⟨place.line, place.column, place.column + length, place.offset, place.offset + length⟩

/-- Words that are not identifiers. -/
inductive Keyword where
  | kwVal | kwLazy | kwInline | kwImplicit | kwDef | kwExtern | kwClass | kwModule | kwExport
  | kwImport | kwNew | kwThis | kwIf | kwElse
deriving Repr, DecidableEq, Inhabited

namespace Keyword

/-- The spelling of a keyword. -/
def text : Keyword → String
  | .kwVal => "val"
  | .kwLazy => "lazy"
  | .kwInline => "inline"
  | .kwImplicit => "implicit"
  | .kwDef => "def"
  | .kwExtern => "extern"
  | .kwClass => "class"
  | .kwModule => "module"
  | .kwExport => "export"
  | .kwImport => "import"
  | .kwNew => "new"
  | .kwThis => "this"
  | .kwIf => "if"
  | .kwElse => "else"

/-- Every keyword once. -/
def all : List Keyword :=
  [kwVal, kwLazy, kwInline, kwImplicit, kwDef, kwExtern, kwClass, kwModule, kwExport, kwImport,
    kwNew, kwThis, kwIf, kwElse]

/-- The keyword with a given spelling. -/
def ofText? (word : String) : Option Keyword :=
  all.find? (·.text = word)

theorem mem_all (keyword : Keyword) : keyword ∈ all := by
  cases keyword <;> decide

end Keyword

/-- Operators and separators. -/
inductive Punct where
  | plus | minus | star | slash | percent | concat | equal | different | less | greater
  | lessEqual | greaterEqual | and | or | not | assign | arrow | dot | comma | colon | semicolon
  | openParen | closeParen | openBrace | closeBrace
deriving Repr, DecidableEq, Inhabited

namespace Punct

/-- The spelling of an operator or separator. -/
def text : Punct → String
  | .plus => "+"
  | .minus => "-"
  | .star => "*"
  | .slash => "/"
  | .percent => "%"
  | .concat => "++"
  | .equal => "=="
  | .different => "!="
  | .less => "<"
  | .greater => ">"
  | .lessEqual => "<="
  | .greaterEqual => ">="
  | .and => "&&"
  | .or => "||"
  | .not => "!"
  | .assign => "="
  | .arrow => "=>"
  | .dot => "."
  | .comma => ","
  | .colon => ":"
  | .semicolon => ";"
  | .openParen => "("
  | .closeParen => ")"
  | .openBrace => "\x7b"
  | .closeBrace => "\x7d"

/-- The operator written with two given characters. -/
def ofTwo? : Char → Char → Option Punct
  | '+', '+' => some .concat
  | '=', '=' => some .equal
  | '!', '=' => some .different
  | '<', '=' => some .lessEqual
  | '>', '=' => some .greaterEqual
  | '&', '&' => some .and
  | '|', '|' => some .or
  | '=', '>' => some .arrow
  | _, _ => none

/-- The operator or separator written with one given character. -/
def ofOne? : Char → Option Punct
  | '+' => some .plus
  | '-' => some .minus
  | '*' => some .star
  | '/' => some .slash
  | '%' => some .percent
  | '<' => some .less
  | '>' => some .greater
  | '!' => some .not
  | '=' => some .assign
  | '.' => some .dot
  | ',' => some .comma
  | ':' => some .colon
  | ';' => some .semicolon
  | '(' => some .openParen
  | ')' => some .closeParen
  | '\x7b' => some .openBrace
  | '\x7d' => some .closeBrace
  | _ => none

/-- The bracket that a closing bracket closes. -/
def opener? : Punct → Option Punct
  | .closeParen => some .openParen
  | .closeBrace => some .openBrace
  | _ => none

def isOpener (punct : Punct) : Bool :=
  punct = .openParen || punct = .openBrace

/-- Separators and brackets, after which a statement may end. -/
def mayEnd : Punct → Bool
  | .semicolon | .openParen | .closeParen | .openBrace | .closeBrace => true
  | _ => false

end Punct

/-- What a token is. The end of the input is a token of its own. -/
inductive TokenKind where
  | identifier
  | number
  | string
  | keyword (word : Keyword)
  | punct (mark : Punct)
  | newline
  | endOfInput
deriving Repr, DecidableEq, Inhabited

namespace TokenKind

/-- The name of a kind in messages. -/
def name : TokenKind → String
  | .identifier => "identifier"
  | .number => "number"
  | .string => "string literal"
  | .keyword word => "'" ++ word.text ++ "'"
  | .punct mark => "'" ++ mark.text ++ "'"
  | .newline => "newline"
  | .endOfInput => "end of input"

/-- Kinds after which a statement cannot end. -/
def continues : TokenKind → Bool
  | .keyword word => word ≠ .kwThis
  | .punct mark => !mark.mayEnd
  | _ => false

def isOpener : TokenKind → Bool
  | .punct mark => mark.isOpener
  | _ => false

/-- The bracket that a closing bracket closes. -/
def opener? : TokenKind → Option TokenKind
  | .punct mark => mark.opener?.map .punct
  | _ => none

/-- Newlines and semicolons. -/
def isSeparator (kind : TokenKind) : Bool :=
  kind = .newline || kind = .punct .semicolon

end TokenKind

/-- A token with its spelling (for a string literal, its value) and its place. -/
structure Token where
  kind : TokenKind
  lexeme : String
  span : Span
deriving Repr, DecidableEq, Inhabited

/-- An end-of-input token without a place, for token lists that lack one. -/
def Token.noEnd : Token := ⟨.endOfInput, "", ⟨0, 0, 0, 0, 0⟩⟩

end ScriptShell
