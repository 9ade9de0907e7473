import ScriptShell.Token
import ScriptShell.Text.Ascii

/-!
Lexing of a source into tokens. Blanks and line comments separate tokens and leave no trace;
a newline is a token unless it follows another newline token or stands before all tokens. The
token list always ends in one end-of-input token.
-/
namespace ScriptShell

/-- Why a text has no tokens. -/
inductive LexCause where
  | malformedNumber (digits : String) (next : Char)
  | numberOutOfRange (digits : String)
  | invalidEscape (escaped : Char)
  | lineBreakInString
  | unclosedString
  | unexpectedCharacter (found : Char)
deriving Repr, DecidableEq

/-- The wording of a lexical error, with the character it is about. -/
def LexCause.wording : LexCause → String
  | .malformedNumber digits next => "malformed number literal '" ++ digits ++ next.toString ++ "'"
  | .numberOutOfRange digits => "integer literal out of range: " ++ digits
  | .invalidEscape escaped => "invalid escape '\\" ++ escaped.toString ++ "' in string literal"
  | .lineBreakInString => "line break not allowed inside string literal"
  | .unclosedString => "unclosed string literal"
  | .unexpectedCharacter found => "unexpected character '" ++ found.toString ++ "'"

/-- The message of a lexical error. Like every text of the program it ends at a zero byte. -/
def LexCause.message (cause : LexCause) : String := Ascii.untilNul cause.wording

/-- A lexical error with the place it points at. -/
structure LexError where
  cause : LexCause
  line : Nat
  column : Nat
deriving Repr, DecidableEq

namespace Lexer

/-- One token's worth of text: its kind, its spelling or value, and the number of bytes after
its first one. -/
structure Lexeme where
  kind : TokenKind
  text : String
  more : Nat
deriving Repr, DecidableEq

/-- A failed lexeme: the cause, and how many bytes after the lexeme's start it points at. -/
structure Flaw where
  cause : LexCause
  reach : Nat
deriving Repr, DecidableEq

/-- The value of a run of decimal digits. -/
def digitsValue (digits : List Char) : Nat :=
  digits.foldl (fun value digit => 10 * value + (digit.toNat - '0'.toNat)) 0

/-- The largest integer literal. -/
def maxLiteral : Nat := 9223372036854775807

/-- The digits of the largest integer literal. -/
def maxDigits : List Char := "9223372036854775807".toList

/-- A run of digits that is no integer literal: more than nineteen of them, or nineteen that come after
those of the largest literal in the order of texts. -/
def outOfRange (digits : List Char) : Bool :=
  digits.length > 19 || (digits.length = 19 && maxDigits < digits)

/-- The number that starts with the digit `first`: the longest run of digits, which has to be in range
and not followed directly by a letter or `_`. -/
def number (first : Char) (rest : List Char) : Except Flaw Lexeme :=
  let digits := first :: rest.takeWhile Char.isDigit
  let text := String.ofList digits
  let outcome : Except Flaw Lexeme :=
    if outOfRange digits then
      .error ⟨.numberOutOfRange text, 0⟩
    else .ok ⟨.number, text, digits.length - 1⟩
  match rest.dropWhile Char.isDigit with
  | [] => outcome
  | next :: _ =>
    if Ascii.sticksToNumber next then .error ⟨.malformedNumber text next, digits.length⟩
    else outcome

/-- The identifier or keyword that starts with `first`. -/
def word (first : Char) (rest : List Char) : Lexeme :=
  let letters := first :: rest.takeWhile Ascii.isWord
  let text := String.ofList letters
  ⟨(Keyword.ofText? text).elim .identifier .keyword, text, letters.length - 1⟩

/-- The character that an escape stands for. -/
def unescape : Char → Option Char
  | 'n' => some '\n'
  | 't' => some '\t'
  | 'r' => some '\r'
  | '\\' => some '\\'
  | '"' => some '"'
  | _ => none

/-- Reads a string literal after its opening quote. `reach` counts the bytes from the quote to
the text read next; the answer is the value and the bytes after the opening quote. -/
def stringBody (reach : Nat) : List Char → Except Flaw (List Char × Nat)
  | [] => .error ⟨.unclosedString, 0⟩
  | '"' :: _ => .ok ([], reach)
  | ['\\'] => .error ⟨.unclosedString, 0⟩
  | '\\' :: escaped :: rest =>
    match unescape escaped with
    | none => .error ⟨.invalidEscape escaped, reach + 1⟩
    | some c =>
      match stringBody (reach + 2) rest with
      | .error flaw => .error flaw
      | .ok (value, more) => .ok (c :: value, more)
  | c :: rest =>
    if c = '\n' then .error ⟨.lineBreakInString, reach⟩
    else
      match stringBody (reach + 1) rest with
      | .error flaw => .error flaw
      | .ok (value, more) => .ok (c :: value, more)

/-- The operator or separator that starts with `first`, two characters before one. -/
def operator (first : Char) (rest : List Char) : Except Flaw Lexeme :=
  let single : Except Flaw Lexeme :=
    match Punct.ofOne? first with
    | some mark => .ok ⟨.punct mark, mark.text, 0⟩
    | none => .error ⟨.unexpectedCharacter first, 0⟩
  match rest with
  | [] => single
  | second :: _ =>
    match Punct.ofTwo? first second with
    | some mark => .ok ⟨.punct mark, mark.text, 1⟩
    | none => single

/-- The lexeme at the front of a text that starts with a character other than white space. -/
def lexeme (first : Char) (rest : List Char) : Except Flaw Lexeme :=
  if first = '"' then
    match stringBody 1 rest with
    | .error flaw => .error flaw
    | .ok (value, more) => .ok ⟨.string, String.ofList value, more⟩
  else if Ascii.isWordStart first then .ok (word first rest)
  else if first.isDigit then number first rest
  else operator first rest

/-- The tokens of a text that starts at `place`. `breakable` tells that a token other than a
newline precedes, so that a newline counts. -/
def scan (place : Position) (breakable : Bool) : List Char → Except LexError (List Token)
  | [] => .ok [⟨.endOfInput, "", place.span 0⟩]
  | first :: rest =>
    if first = '\n' then
      match scan place.nextLine false rest with
      | .error error => .error error
      | .ok tokens =>
        .ok (if breakable then ⟨.newline, "\\n", place.span 1⟩ :: tokens else tokens)
    else if Ascii.isBlank first then scan (place.advance 1) breakable rest
    else if first = '/' && rest.head? = some '/' then
      let comment := rest.takeWhile (· ≠ '\n')
      scan (place.advance (comment.length + 1)) breakable (rest.drop comment.length)
    else
      match lexeme first rest with
      | .error flaw => .error ⟨flaw.cause, place.line, place.column + flaw.reach⟩
      | .ok found =>
        match scan (place.advance (found.more + 1)) true (rest.drop found.more) with
        | .error error => .error error
        | .ok tokens => .ok (⟨found.kind, found.text, place.span (found.more + 1)⟩ :: tokens)
termination_by text => text.length
decreasing_by all_goals simp only [List.length_cons, List.length_drop]; omega

end Lexer

/-- The tokens of a source. -/
def tokenize (source : String) : Except LexError (List Token) :=
  Lexer.scan .start false (Ascii.chars source)

theorem tokenize_eq (source : String) : tokenize source = Lexer.scan .start false source.toList := by
  rw [tokenize, Ascii.chars_eq]

end ScriptShell
