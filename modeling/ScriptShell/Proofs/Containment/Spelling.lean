import ScriptShell.Token.Lexer
import ScriptShell.Fragment
import Mathlib.Data.List.Basic
import Mathlib.Data.List.TakeWhile

/-!
Spellings. What a text spells is its tokens without their places. A piece of text spells its
tokens whatever follows it, if it ends where a token ends in any case; texts made of such pieces
spell the tokens of the pieces one after the other.
-/
namespace ScriptShell

/-- A token without its place. -/
abbrev Glyph := TokenKind × String

/-- A token without its place. -/
def Token.glyph (token : Token) : Glyph := (token.kind, token.lexeme)

namespace Lexer

/-- The tokens of a lexed text without their places. -/
def glyphs : Except LexError (List Token) → Option (List Glyph)
  | .ok tokens => some (tokens.map Token.glyph)
  | .error _ => none

/-- What a text spells; `breakable` tells that a newline in front counts. -/
def spell (breakable : Bool) (text : List Char) : Option (List Glyph) :=
  glyphs (scan .start breakable text)

theorem drop_takeWhile {α : Type} (p : α → Bool) (text : List α) :
    text.drop (text.takeWhile p).length = text.dropWhile p := by
  have front : (text.takeWhile p ++ text.dropWhile p).drop (text.takeWhile p).length =
      text.dropWhile p := List.drop_left
  rwa [List.takeWhile_append_dropWhile] at front

/-- A text that starts neither white space nor a comment. -/
def Opens (first : Char) (rest : List Char) : Prop :=
  first ≠ '\n' ∧ Ascii.isBlank first = false ∧ ¬ (first = '/' ∧ rest.head? = some '/')

section Steps

variable (place : Position) (breakable : Bool) {first : Char} {rest : List Char}

theorem scan_newline : scan place breakable ('\n' :: rest) = (scan place.nextLine false rest).map
    ((if breakable then [⟨.newline, "\\n", place.span 1⟩] else []) ++ ·) := by
  rw [scan, if_pos rfl]
  cases scan place.nextLine false rest with
  | error error => rfl
  | ok tokens => cases breakable <;> rfl

theorem scan_blank (h : Ascii.isBlank first = true) :
    scan place breakable (first :: rest) = scan (place.advance 1) breakable rest := by
  rw [scan, if_neg (by rintro rfl; cases h), if_pos h]

theorem scan_comment (h : rest.head? = some '/') : scan place breakable ('/' :: rest) =
    scan (place.advance ((rest.takeWhile (· ≠ '\n')).length + 1)) breakable
      (rest.dropWhile (· ≠ '\n')) := by
  rw [scan, if_neg (by decide), if_neg (by decide), if_pos (by simp [h])]
  simp only [drop_takeWhile]

theorem scan_lexeme {found : Lexeme} (h : Opens first rest) (reads : lexeme first rest = .ok found) :
    scan place breakable (first :: rest) =
      (scan (place.advance (found.more + 1)) true (rest.drop found.more)).map
        (⟨found.kind, found.text, place.span (found.more + 1)⟩ :: ·) := by
  obtain ⟨line, blank, comment⟩ := h
  rw [scan, if_neg line, if_neg (by simp [blank]), if_neg (by simpa using comment)]
  simp only [reads]
  cases scan (place.advance (found.more + 1)) true (rest.drop found.more) <;> rfl

theorem glyphs_newline : glyphs (scan place breakable ('\n' :: rest)) =
    (glyphs (scan place.nextLine false rest)).map
      ((if breakable then [(.newline, "\\n")] else []) ++ ·) := by
  rw [scan_newline]
  cases scan place.nextLine false rest with
  | error error => rfl
  | ok tokens => cases breakable <;> rfl

theorem glyphs_blank (h : Ascii.isBlank first = true) :
    glyphs (scan place breakable (first :: rest)) =
      glyphs (scan (place.advance 1) breakable rest) := by
  rw [scan_blank place breakable h]

theorem glyphs_comment (h : rest.head? = some '/') :
    glyphs (scan place breakable ('/' :: rest)) =
      glyphs (scan (place.advance ((rest.takeWhile (· ≠ '\n')).length + 1)) breakable
        (rest.dropWhile (· ≠ '\n'))) := by
  rw [scan_comment place breakable h]

theorem glyphs_lexeme {found : Lexeme} (h : Opens first rest)
    (reads : lexeme first rest = .ok found) :
    glyphs (scan place breakable (first :: rest)) =
      (glyphs (scan (place.advance (found.more + 1)) true (rest.drop found.more))).map
        ((found.kind, found.text) :: ·) := by
  rw [scan_lexeme place breakable h reads]
  cases scan (place.advance (found.more + 1)) true (rest.drop found.more) with
  | error error => rfl
  | ok tokens => rfl

theorem glyphs_flaw {flaw : Flaw} (h : Opens first rest)
    (reads : lexeme first rest = .error flaw) :
    glyphs (scan place breakable (first :: rest)) = none := by
  obtain ⟨line, blank, comment⟩ := h
  rw [scan, if_neg line, if_neg (by simp [blank]), if_neg (by simpa using comment)]
  simp only [reads]
  rfl

end Steps

theorem glyphs_scan (place other : Position) (breakable : Bool) (text : List Char) :
    glyphs (scan place breakable text) = glyphs (scan other breakable text) := by
  fun_induction scan place breakable text generalizing other with
  | case1 => rw [scan]; rfl
  | case2 place breakable rest error failed ih => rw [glyphs_newline, ← ih, failed]; rfl
  | case3 place breakable rest tokens read ih =>
    rw [glyphs_newline, ← ih, read]
    cases breakable <;> rfl
  | case4 place breakable first rest line blank ih => rw [glyphs_blank _ _ blank]; exact ih _
  | case5 place breakable first rest line blank comment found ih =>
    obtain ⟨rfl, second⟩ : first = '/' ∧ rest.head? = some '/' := by simpa using comment
    rw [glyphs_comment _ _ second, ← drop_takeWhile]
    exact ih _
  | case6 place breakable first rest line blank comment flaw failed =>
    rw [glyphs_flaw _ _ ⟨line, by simpa using blank, by simpa using comment⟩ failed]
    rfl
  | case7 place breakable first rest line blank comment found read error failed ih =>
    rw [glyphs_lexeme _ _ ⟨line, by simpa using blank, by simpa using comment⟩ read, ← ih, failed]
    rfl
  | case8 place breakable first rest line blank comment found read tokens others ih =>
    rw [glyphs_lexeme _ _ ⟨line, by simpa using blank, by simpa using comment⟩ read, ← ih, others]
    rfl

section Spell

variable (breakable : Bool) {first : Char} {rest : List Char}

theorem spell_nil : spell breakable [] = some [(.endOfInput, "")] := by
  rw [spell, scan]
  rfl

theorem spell_newline : spell breakable ('\n' :: rest) =
    (spell false rest).map ((if breakable then [(.newline, "\\n")] else []) ++ ·) := by
  rw [spell, glyphs_newline, glyphs_scan _ .start]
  rfl

theorem spell_blank (h : Ascii.isBlank first = true) :
    spell breakable (first :: rest) = spell breakable rest := by
  rw [spell, glyphs_blank _ _ h, glyphs_scan _ .start]
  rfl

theorem spell_comment (h : rest.head? = some '/') :
    spell breakable ('/' :: rest) = spell breakable (rest.dropWhile (· ≠ '\n')) := by
  rw [spell, glyphs_comment _ _ h, glyphs_scan _ .start]
  rfl

theorem spell_lexeme {found : Lexeme} (h : Opens first rest)
    (reads : lexeme first rest = .ok found) :
    spell breakable (first :: rest) =
      (spell true (rest.drop found.more)).map ((found.kind, found.text) :: ·) := by
  rw [spell, glyphs_lexeme _ _ h reads, glyphs_scan _ .start]
  rfl

theorem spell_flaw {flaw : Flaw} (h : Opens first rest)
    (reads : lexeme first rest = .error flaw) : spell breakable (first :: rest) = none :=
  glyphs_flaw _ _ h reads

end Spell

theorem stringBody_escape {reach : Nat} {escaped c : Char} {rest : List Char}
    (known : unescape escaped = some c) : stringBody reach ('\\' :: escaped :: rest) =
      (stringBody (reach + 2) rest).map fun (value, more) => (c :: value, more) := by
  rw [stringBody]
  simp only [known]
  cases stringBody (reach + 2) rest <;> rfl

theorem stringBody_plain {reach : Nat} {c : Char} {rest : List Char} (quote : c ≠ '"')
    (escape : c ≠ '\\') (line : c ≠ '\n') : stringBody reach (c :: rest) =
      (stringBody (reach + 1) rest).map fun (value, more) => (c :: value, more) := by
  rw [stringBody.eq_def]
  split
  · next empty => cases empty
  · next same => exact absurd (List.cons.inj same).1 quote
  · next same => exact absurd (List.cons.inj same).1 escape
  · next same => exact absurd (List.cons.inj same).1 escape
  · next same =>
    obtain ⟨rfl, rfl⟩ := List.cons.inj same
    rw [if_neg line]
    cases stringBody (reach + 1) rest <;> rfl

/-- A string literal ends at its closing quote, whatever follows. -/
theorem stringBody_local {reach more : Nat} {text value : List Char}
    (h : stringBody reach text = .ok (value, more)) :
    ∃ front tail, text = front ++ '"' :: tail ∧ reach + front.length = more ∧
      ∀ other, stringBody reach (front ++ '"' :: other) = .ok (value, more) := by
  fun_induction stringBody reach text generalizing value more with
  | case1 reach => cases h
  | case2 reach rest =>
    cases h
    exact ⟨[], rest, rfl, rfl, fun other => by simp [stringBody]⟩
  | case3 reach => cases h
  | case4 reach escaped rest unknown => cases h
  | case5 reach escaped rest c known flaw failed ih => cases h
  | case6 reach escaped rest c known value' more' read ih =>
    cases h
    obtain ⟨front, tail, rfl, length, others⟩ := ih read
    refine ⟨'\\' :: escaped :: front, tail, rfl, by simp only [List.length_cons]; omega, ?_⟩
    intro other
    rw [List.cons_append, List.cons_append, stringBody_escape known, others]
    rfl
  | case7 reach rest quote escape others => cases h
  | case8 reach c rest quote alone escape line flaw failed ih => cases h
  | case9 reach c rest quote alone escape line value' more' read ih =>
    cases h
    have plain : c ≠ '\\' := by
      rintro rfl
      cases rest with
      | nil => exact alone rfl rfl
      | cons first others => exact escape first others rfl rfl
    obtain ⟨front, tail, rfl, length, others⟩ := ih read
    refine ⟨c :: front, tail, rfl, by simp only [List.length_cons]; omega, ?_⟩
    intro other
    rw [List.cons_append, stringBody_plain quote plain line, others]
    rfl

/-- Kinds of tokens that are written: all but newlines and the end of the input. -/
def Written (kind : TokenKind) : Prop := kind ≠ .newline ∧ kind ≠ .endOfInput

/-- A text that can stand in the place of another one behind a token: it is empty, starts a new
line, or starts with the same character. -/
def Replaces (other tail : List Char) : Prop :=
  ∀ c ∈ other.head?, c = '\n' ∨ tail.head? = some c

/-- A run of characters ends where it did. -/
theorem takeWhile_replaces {p : Char → Bool} {rest other : List Char} (line : p '\n' = false)
    (h : Replaces other (rest.dropWhile p)) :
    (rest.takeWhile p ++ other).takeWhile p = rest.takeWhile p ∧
      (rest.takeWhile p ++ other).dropWhile p = other := by
  have run : ∀ c ∈ rest.takeWhile p, p c = true := fun c mem => List.mem_takeWhile_imp mem
  have stops : ∀ c ∈ other.head?, p c = false := by
    intro c mem
    rcases h c mem with rfl | same
    · exact line
    · have := List.head?_dropWhile_not p rest
      rw [same] at this
      simpa using this
  rw [List.takeWhile_append_of_pos run, List.dropWhile_append_of_pos run]
  cases other with
  | nil => simp
  | cons c other =>
    have := stops c rfl
    simp [this]

/-- The number with the given digits, if it is not too large. -/
def sized (digits : List Char) : Except Flaw Lexeme :=
  if outOfRange digits then
    .error ⟨.numberOutOfRange (String.ofList digits), 0⟩
  else .ok ⟨.number, String.ofList digits, digits.length - 1⟩

theorem number_free {first : Char} {rest : List Char}
    (h : ∀ c ∈ (rest.dropWhile Char.isDigit).head?, Ascii.sticksToNumber c = false) :
    number first rest = sized (first :: rest.takeWhile Char.isDigit) := by
  unfold number
  cases tail : rest.dropWhile Char.isDigit with
  | nil => rfl
  | cons c others =>
    have free := h c (by rw [tail]; rfl)
    simp only [free]
    rfl

theorem number_local {first : Char} {rest : List Char} {found : Lexeme}
    (h : number first rest = .ok found) : found.kind = .number ∧
      (rest.takeWhile Char.isDigit).length = found.more ∧
      ∀ other, Replaces other (rest.dropWhile Char.isDigit) →
        number first (rest.takeWhile Char.isDigit ++ other) = .ok found := by
  have free : ∀ c ∈ (rest.dropWhile Char.isDigit).head?, Ascii.sticksToNumber c = false := by
    intro c mem
    unfold number at h
    cases tail : rest.dropWhile Char.isDigit with
    | nil => rw [tail] at mem; cases mem
    | cons d others =>
      obtain rfl : d = c := by simpa [tail] using mem
      simp only [tail] at h
      split at h
      · cases h
      · next free => simpa using free
  have same := (number_free free).symm.trans h
  have own : found.kind = .number ∧ (rest.takeWhile Char.isDigit).length = found.more := by
    unfold sized at same
    split at same
    · cases same
    · cases same; simp
  refine ⟨own.1, own.2, ?_⟩
  · intro other replaces
    obtain ⟨run, left⟩ := takeWhile_replaces rfl replaces
    rw [number_free, run, same]
    intro c mem
    rw [left] at mem
    rcases replaces c mem with rfl | head
    · rfl
    · exact free c head

/-- The operator of one character. -/
def single (first : Char) : Except Flaw Lexeme :=
  match Punct.ofOne? first with
  | some mark => .ok ⟨.punct mark, mark.text, 0⟩
  | none => .error ⟨.unexpectedCharacter first, 0⟩

theorem operator_single {first : Char} {rest : List Char}
    (h : ∀ c ∈ rest.head?, Punct.ofTwo? first c = none) : operator first rest = single first := by
  cases rest with
  | nil => rfl
  | cons second rest =>
    rw [operator]
    simp only [h second rfl]
    rfl

theorem ofTwo?_newline (first : Char) : Punct.ofTwo? first '\n' = none := by
  unfold Punct.ofTwo?
  split <;> first | rfl | simp_all

theorem operator_local {first : Char} {rest : List Char} {found : Lexeme}
    (h : operator first rest = .ok found) : ∃ body tail, rest = body ++ tail ∧
      Written found.kind ∧ body.length = found.more ∧
      ∀ other, Replaces other tail → operator first (body ++ other) = .ok found := by
  by_cases alone : ∀ c ∈ rest.head?, Punct.ofTwo? first c = none
  · rw [operator_single alone] at h
    have own : Written found.kind ∧ 0 = found.more := by
      unfold single at h
      split at h
      · cases h; simp [Written]
      · cases h
    refine ⟨[], rest, rfl, own.1, own.2, ?_⟩
    · intro other replaces
      rw [List.nil_append, operator_single, h]
      intro c mem
      rcases replaces c mem with rfl | same
      · exact ofTwo?_newline first
      · exact alone c same
  · cases rest with
    | nil => simp at alone
    | cons second rest =>
      have pair : Punct.ofTwo? first second ≠ none := by simpa using alone
      obtain ⟨mark, known⟩ := Option.ne_none_iff_exists'.mp pair
      rw [operator] at h
      simp only [known] at h
      cases h
      refine ⟨[second], rest, rfl, by simp [Written], rfl, ?_⟩
      intro other _
      rw [List.singleton_append, operator]
      simp only [known]

theorem operator_kind {first : Char} {rest : List Char} {found : Lexeme}
    (h : operator first rest = .ok found) : ∃ mark, found.kind = .punct mark := by
  unfold operator at h
  repeat' split at h
  all_goals first | cases h; exact ⟨_, rfl⟩ | cases h

/-- A lexeme is the same before any text that replaces what follows it. -/
theorem lexeme_local {first : Char} {rest : List Char} {found : Lexeme}
    (h : lexeme first rest = .ok found) :
    ∃ body tail, rest = body ++ tail ∧ Written found.kind ∧ body.length = found.more ∧
      ∀ other, Replaces other tail → lexeme first (body ++ other) = .ok found := by
  unfold lexeme at h
  split at h
  · next quote =>
    split at h
    · cases h
    · next value more read =>
      cases h
      obtain ⟨front, tail, rfl, length, others⟩ := stringBody_local read
      refine ⟨front ++ ['"'], tail, by simp, by simp [Written], ?_, ?_⟩
      · simp only [List.length_append, List.length_singleton]
        omega
      intro other _
      rw [lexeme, if_pos quote, List.append_assoc, List.singleton_append, others]
  · next quote =>
    split at h
    · next letter =>
      cases h
      refine ⟨rest.takeWhile Ascii.isWord, rest.dropWhile Ascii.isWord,
        List.takeWhile_append_dropWhile.symm, ?_, by simp [word], ?_⟩
      · rw [word]
        cases Keyword.ofText? (String.ofList (first :: rest.takeWhile Ascii.isWord)) <;>
          simp [Written]
      intro other replaces
      rw [lexeme, if_neg quote, if_pos letter, word, word, (takeWhile_replaces rfl replaces).1]
    · next letter =>
      split at h
      · next digit =>
        obtain ⟨kind, length, others⟩ := number_local h
        refine ⟨_, _, List.takeWhile_append_dropWhile.symm, by simp [Written, kind], length, ?_⟩
        intro other replaces
        rw [lexeme, if_neg quote, if_neg letter, if_pos digit, others other replaces]
      · next digit =>
        obtain ⟨body, tail, split, kind, length, others⟩ := operator_local h
        refine ⟨body, tail, split, kind, length, ?_⟩
        intro other replaces
        rw [lexeme, if_neg quote, if_neg letter, if_neg digit, others other replaces]

theorem Opens.replace {first : Char} {body rest other : List Char} (h : Opens first (body ++ rest))
    (replaces : Replaces other rest) : Opens first (body ++ other) := by
  obtain ⟨line, blank, comment⟩ := h
  refine ⟨line, blank, fun ⟨slash, second⟩ => comment ⟨slash, ?_⟩⟩
  cases body with
  | nil =>
    rcases replaces '/' second with wrong | same
    · cases wrong
    · exact same
  | cons c body => exact second

/-- How a text is lexed, step by step. -/
inductive Lexed : Position → Bool → List Char → List Token → Prop where
  | nil {place : Position} {breakable : Bool} :
      Lexed place breakable [] [⟨.endOfInput, "", place.span 0⟩]
  | line {place : Position} {rest : List Char} {tokens : List Token}
      (others : Lexed place.nextLine false rest tokens) :
      Lexed place true ('\n' :: rest) (⟨.newline, "\\n", place.span 1⟩ :: tokens)
  | emptyLine {place : Position} {rest : List Char} {tokens : List Token}
      (others : Lexed place.nextLine false rest tokens) : Lexed place false ('\n' :: rest) tokens
  | blank {place : Position} {breakable : Bool} {c : Char} {rest : List Char} {tokens : List Token}
      (space : Ascii.isBlank c = true) (others : Lexed (place.advance 1) breakable rest tokens) :
      Lexed place breakable (c :: rest) tokens
  | comment {place : Position} {breakable : Bool} {body rest : List Char} {tokens : List Token}
      (slash : body.head? = some '/') (inside : ∀ c ∈ body, c ≠ '\n')
      (stops : ∀ c ∈ rest.head?, c = '\n')
      (others : Lexed (place.advance (body.length + 1)) breakable rest tokens) :
      Lexed place breakable ('/' :: (body ++ rest)) tokens
  | lexeme {place : Position} {breakable : Bool} {first : Char} {body rest : List Char}
      {found : Lexeme} {tokens : List Token} (opens : Opens first (body ++ rest))
      (kind : Written found.kind) (length : body.length = found.more)
      (same : ∀ other, Replaces other rest → lexeme first (body ++ other) = .ok found)
      (others : Lexed (place.advance (found.more + 1)) true rest tokens) :
      Lexed place breakable (first :: (body ++ rest))
        (⟨found.kind, found.text, place.span (found.more + 1)⟩ :: tokens)

theorem lexed_of_scan {place : Position} {breakable : Bool} {text : List Char}
    {tokens : List Token} (h : scan place breakable text = .ok tokens) :
    Lexed place breakable text tokens := by
  fun_induction scan place breakable text generalizing tokens with
  | case1 place breakable => cases h; exact .nil
  | case2 place breakable rest error failed ih => cases h
  | case3 place breakable rest tokens' read ih =>
    cases h
    cases breakable with
    | true => exact .line (ih read)
    | false => exact .emptyLine (ih read)
  | case4 place breakable first rest line blank ih => exact .blank blank (ih h)
  | case5 place breakable first rest line blank comment found =>
    rename_i ih
    obtain ⟨rfl, second⟩ : first = '/' ∧ rest.head? = some '/' := by simpa using comment
    have inner := ih h
    rw [drop_takeWhile] at inner
    have split : rest = rest.takeWhile (· ≠ '\n') ++ rest.dropWhile (· ≠ '\n') :=
      List.takeWhile_append_dropWhile.symm
    rw [split]
    refine .comment ?_ ?_ ?_ inner
    · rw [split] at second
      cases run : rest.takeWhile (· ≠ '\n') with
      | nil =>
        rw [run] at second
        have stops := List.head?_dropWhile_not (fun c => decide (c ≠ '\n')) rest
        rw [List.nil_append] at second
        rw [second] at stops
        simp at stops
      | cons c others => rw [run] at second; exact second
    · intro c mem
      simpa using List.mem_takeWhile_imp mem
    · intro c mem
      have stops := List.head?_dropWhile_not (fun c => decide (c ≠ '\n')) rest
      rw [Option.mem_def.mp mem] at stops
      simpa using stops
  | case6 place breakable first rest line blank comment flaw failed => cases h
  | case7 place breakable first rest line blank comment found read error failed ih => cases h
  | case8 place breakable first rest line blank comment found read tokens' others ih =>
    cases h
    obtain ⟨body, tail, rfl, kind, length, same⟩ := lexeme_local read
    have inner := ih others
    rw [← length, List.drop_left] at inner
    rw [length] at inner
    exact .lexeme ⟨line, by simpa using blank, by simpa using comment⟩ kind length same inner

/-- The last token is the end of the input, and no other one is. -/
theorem Lexed.ending {place : Position} {breakable : Bool} {text : List Char}
    {tokens : List Token} (h : Lexed place breakable text tokens) :
    ∃ front stop, tokens = front ++ [stop] ∧ stop.kind = .endOfInput ∧
      ∀ token ∈ front, token.kind ≠ .endOfInput := by
  induction h with
  | nil => exact ⟨[], _, rfl, rfl, by simp⟩
  | line inner ih =>
    obtain ⟨front, stop, rfl, ends, solid⟩ := ih
    exact ⟨_ :: front, stop, rfl, ends, by simpa using solid⟩
  | emptyLine inner ih => exact ih
  | blank space inner ih => exact ih
  | comment slash inside stops inner ih => exact ih
  | lexeme opens kind length same inner ih =>
    obtain ⟨front, stop, rfl, ends, solid⟩ := ih
    exact ⟨_ :: front, stop, rfl, ends, by simpa using ⟨kind.2, solid⟩⟩

/-- A newline behind the tokens counts. -/
def breaksAfter (tokens : List Token) : Bool := tokens.getLast?.any (·.kind ≠ .newline)

theorem Replaces.lines {more : List Char} (tail : List Char) (h : ∀ c ∈ more.head?, c = '\n') :
    Replaces more tail :=
  fun c mem => .inl (h c mem)

theorem Replaces.front {more : List Char} (piece tail : List Char)
    (h : ∀ c ∈ more.head?, c = '\n') : Replaces (piece ++ more) (piece ++ tail) := by
  cases piece with
  | nil => exact .lines tail h
  | cons c piece => exact fun d mem => .inr mem

theorem getLast?_token {token : Token} {others : List Token} (some : others ≠ []) :
    (token :: others).getLast? = others.getLast? :=
  List.getLast?_append_of_ne_nil [token] some

/-- The text of the first tokens, which ends with the last of them, spells them at the end of a
line. -/
theorem Lexed.front {place : Position} {breakable : Bool} {text : List Char}
    {tokens : List Token} (h : Lexed place breakable text tokens) {front back : List Token}
    (split : tokens = front ++ back) (some : front ≠ [])
    (solid : ∀ token ∈ front, token.kind ≠ .endOfInput) :
    ∃ piece rest, text = piece ++ rest ∧
      (∀ last ∈ front.getLast?, place.offset + piece.length = last.span.stop) ∧
      ∀ more, (∀ c ∈ more.head?, c = '\n') → spell breakable (piece ++ more) =
        (spell (breaksAfter front) more).map (front.map Token.glyph ++ ·) := by
  induction h generalizing front with
  | nil =>
    obtain ⟨first, others, rfl⟩ := List.exists_cons_of_ne_nil some
    obtain ⟨rfl, -⟩ := List.cons.inj split
    exact absurd rfl (solid _ List.mem_cons_self)
  | @line place rest tokens inner ih =>
    obtain ⟨first, others, rfl⟩ := List.exists_cons_of_ne_nil some
    obtain ⟨rfl, tail⟩ := List.cons.inj split
    by_cases alone : others = []
    · subst alone
      refine ⟨['\n'], rest, rfl, by simp [Position.span], ?_⟩
      intro more _
      rw [List.singleton_append, spell_newline]
      rfl
    · have others_solid := fun token mem => solid token (List.mem_cons_of_mem _ mem)
      obtain ⟨piece, left, rfl, length, spells⟩ := ih tail alone others_solid
      refine ⟨'\n' :: piece, left, rfl, ?_, ?_⟩
      · intro last mem
        rw [getLast?_token alone] at mem
        have := length last mem
        simp only [Position.nextLine, List.length_cons] at this ⊢
        omega
      · intro more starts
        rw [List.cons_append, spell_newline, spells more starts, breaksAfter, breaksAfter,
          getLast?_token alone, Option.map_map]
        rfl
  | @emptyLine place rest tokens inner ih =>
    obtain ⟨piece, left, rfl, length, spells⟩ := ih split some solid
    refine ⟨'\n' :: piece, left, rfl, ?_, ?_⟩
    · intro last mem
      have := length last mem
      simp only [Position.nextLine, List.length_cons] at this ⊢
      omega
    · intro more starts
      rw [List.cons_append, spell_newline, spells more starts, Option.map_map]
      rfl
  | @blank place breakable c rest tokens space inner ih =>
    obtain ⟨piece, left, rfl, length, spells⟩ := ih split some solid
    refine ⟨c :: piece, left, rfl, ?_, ?_⟩
    · intro last mem
      have := length last mem
      simp only [Position.advance, List.length_cons] at this ⊢
      omega
    · intro more starts
      rw [List.cons_append, spell_blank _ space, spells more starts]
  | @comment place breakable body rest tokens slash inside stops inner ih =>
    obtain ⟨piece, left, rfl, length, spells⟩ := ih split some solid
    refine ⟨'/' :: (body ++ piece), left, by simp, ?_, ?_⟩
    · intro last mem
      have := length last mem
      simp only [Position.advance, List.length_cons, List.length_append] at this ⊢
      omega
    · intro more starts
      have ends : ∀ c ∈ (piece ++ more).head?, c = '\n' := by
        cases piece with
        | nil => exact starts
        | cons c piece => exact stops
      have dropped : (body ++ (piece ++ more)).dropWhile (· ≠ '\n') = piece ++ more := by
        rw [List.dropWhile_append_of_pos (by simpa using inside)]
        cases text : piece ++ more with
        | nil => rfl
        | cons c others => simp [ends c (by rw [text]; rfl)]
      rw [List.cons_append, List.append_assoc, spell_comment, dropped, spells more starts]
      rw [List.head?_append, slash]
      rfl
  | @lexeme place breakable first body rest found tokens opens kind length same inner ih =>
    obtain ⟨token, others, rfl⟩ := List.exists_cons_of_ne_nil some
    obtain ⟨rfl, tail⟩ := List.cons.inj split
    -- the lexeme is read in front of any text that replaces the one behind it
    have read (other : List Char) (replaces : Replaces other rest) :
        spell breakable (first :: (body ++ other)) =
          (spell true other).map ((found.kind, found.text) :: ·) := by
      rw [spell_lexeme _ (opens.replace replaces) (same other replaces), ← length, List.drop_left]
    by_cases alone : others = []
    · subst alone
      refine ⟨first :: body, rest, rfl, ?_, ?_⟩
      · simp only [List.getLast?_singleton, Option.mem_def, Option.some.injEq, forall_eq',
          Position.span, List.length_cons]
        omega
      · intro more starts
        have counts : breaksAfter [⟨found.kind, found.text, place.span (found.more + 1)⟩] = true := by
          simpa [breaksAfter] using kind.1
        rw [List.cons_append, read more (.lines rest starts), counts]
        rfl
    · have others_solid := fun token mem => solid token (List.mem_cons_of_mem _ mem)
      obtain ⟨piece, left, rfl, last, spells⟩ := ih tail alone others_solid
      refine ⟨first :: (body ++ piece), left, by simp, ?_, ?_⟩
      · intro token mem
        rw [getLast?_token alone] at mem
        have := last token mem
        simp only [Position.advance, List.length_cons, List.length_append] at this ⊢
        omega
      · intro more starts
        rw [List.cons_append, List.append_assoc, read _ (.front piece left starts),
          spells more starts, breaksAfter, breaksAfter, getLast?_token alone, Option.map_map]
        rfl

/-- A token that is no newline starts somewhere in the text, and lexing can start there too. -/
theorem Lexed.seek {place : Position} {breakable : Bool} {text : List Char} {tokens : List Token}
    (h : Lexed place breakable text tokens) {front back : List Token} {token : Token}
    (split : tokens = front ++ token :: back) (line : token.kind ≠ .newline)
    (stop : token.kind ≠ .endOfInput) :
    ∃ skipped rest start, text = skipped ++ rest ∧
      Position.offset start = place.offset + skipped.length ∧ token.span.start = start.offset ∧
      ∀ breakable, Lexed start breakable rest (token :: back) := by
  induction h generalizing front with
  | nil =>
    cases front with
    | nil => obtain ⟨rfl, -⟩ := List.cons.inj split; exact absurd rfl stop
    | cons first front => simp at split
  | @line place rest tokens inner ih =>
    cases front with
    | nil => obtain ⟨rfl, -⟩ := List.cons.inj split; exact absurd rfl line
    | cons first front =>
      obtain ⟨skipped, left, start, rfl, offset, own, lexed⟩ := ih (List.cons.inj split).2
      refine ⟨'\n' :: skipped, left, start, rfl, ?_, own, lexed⟩
      simp only [Position.nextLine, List.length_cons] at offset ⊢
      omega
  | @emptyLine place rest tokens inner ih =>
    obtain ⟨skipped, left, start, rfl, offset, own, lexed⟩ := ih split
    refine ⟨'\n' :: skipped, left, start, rfl, ?_, own, lexed⟩
    simp only [Position.nextLine, List.length_cons] at offset ⊢
    omega
  | @blank place breakable c rest tokens space inner ih =>
    obtain ⟨skipped, left, start, rfl, offset, own, lexed⟩ := ih split
    refine ⟨c :: skipped, left, start, rfl, ?_, own, lexed⟩
    simp only [Position.advance, List.length_cons] at offset ⊢
    omega
  | @comment place breakable body rest tokens slash inside stops inner ih =>
    obtain ⟨skipped, left, start, rfl, offset, own, lexed⟩ := ih split
    refine ⟨'/' :: (body ++ skipped), left, start, by simp, ?_, own, lexed⟩
    simp only [Position.advance, List.length_cons, List.length_append] at offset ⊢
    omega
  | @lexeme place breakable first body rest found tokens opens kind length same inner ih =>
    cases front with
    | nil =>
      obtain ⟨rfl, rfl⟩ := List.cons.inj split
      exact ⟨[], _, place, rfl, rfl, rfl, fun breakable => .lexeme opens kind length same inner⟩
    | cons first' front =>
      obtain ⟨skipped, left, start, rfl, offset, own, lexed⟩ := ih (List.cons.inj split).2
      refine ⟨first :: (body ++ skipped), left, start, by simp, ?_, own, lexed⟩
      simp only [Position.advance, List.length_cons, List.length_append] at offset ⊢
      omega

theorem lexed_of_tokenize {source : String} {tokens : List Token} (h : tokenize source = .ok tokens) :
    Lexed .start false source.toList tokens :=
  lexed_of_scan (tokenize_eq source ▸ h)

/-- The text that tokens span spells them again at the end of a line. -/
theorem spell_span {source : String} {tokens before part after : List Token}
    (h : tokenize source = .ok tokens) (split : tokens = before ++ (part ++ after))
    {first last : Token} (head : first ∈ part.head?) (tail : last ∈ part.getLast?)
    (line : first.kind ≠ .newline) (solid : ∀ token ∈ part, token.kind ≠ .endOfInput)
    (breakable : Bool) (more : List Char) (starts : ∀ c ∈ more.head?, c = '\n') :
    spell breakable ((source.toList.drop first.span.start).take (last.span.stop - first.span.start) ++ more) =
      (spell (breaksAfter part) more).map (part.map Token.glyph ++ ·) := by
  obtain ⟨others, rfl⟩ := List.head?_eq_some_iff.mp head
  obtain ⟨skipped, rest, start, whole, offset, own, lexed⟩ :=
    (lexed_of_tokenize h).seek split line (solid first List.mem_cons_self)
  obtain ⟨piece, left, rfl, length, spells⟩ :=
    (lexed breakable).front (show _ = (first :: others) ++ after from rfl) (by simp) solid
  have size : first.span.start = skipped.length := by
    rw [own, offset]
    simp [Position.start]
  have reach := length last tail
  rw [whole, size, List.drop_left, List.take_left' (by omega)]
  exact spells more starts

end Lexer

end ScriptShell
