import ScriptShell.Proofs.Lexing.Placement
import ScriptShell.Proofs.Splitting.Continuation

/-!
Texts on separate lines. Two texts with a newline between them have the tokens of both: those of
the second one stand further down, in the same columns, and the newline counts if there is a
token in front of it that is no newline itself. What is wrong with the second text is wrong with
the two together, further down.
-/
namespace ScriptShell

/-- A place in a text that stands below another one. -/
def Position.lowered (lines bytes : Nat) (place : Position) : Position :=
  { place with offset := place.offset + bytes, line := place.line + lines }

namespace Position

variable (lines bytes : Nat) (place : Position)

theorem lowered_advance (count : Nat) :
    (place.lowered lines bytes).advance count = (place.advance count).lowered lines bytes := by
  simp [lowered, advance, Nat.add_right_comm]

theorem lowered_nextLine :
    (place.lowered lines bytes).nextLine = place.nextLine.lowered lines bytes := by
  simp [lowered, nextLine, Nat.add_right_comm]

end Position

/-- A token of a text that stands below another one. -/
def Token.lowered (lines bytes : Nat) (token : Token) : Token :=
  { token with
    span := { token.span with
      line := token.span.line + lines
      start := token.span.start + bytes
      stop := token.span.stop + bytes } }

theorem Token.lowered_span (lines bytes : Nat) (place : Position) (kind : TokenKind)
    (lexeme : String) (count : Nat) :
    (⟨kind, lexeme, (place.lowered lines bytes).span count⟩ : Token) =
      lowered lines bytes ⟨kind, lexeme, place.span count⟩ := by
  simp [Position.lowered, Position.span, lowered, Nat.add_right_comm]

/-- An error in a text that stands below another one. -/
def LexError.lowered (lines : Nat) (error : LexError) : LexError :=
  { error with line := error.line + lines }

namespace Lexer

/-- What lexing answers for a text that stands below another one. -/
def lowered (lines bytes : Nat) (answer : Except LexError (List Token)) :
    Except LexError (List Token) :=
  match answer with
  | .ok tokens => .ok (tokens.map (Token.lowered lines bytes))
  | .error error => .error (error.lowered lines)

/-- The tokens and the errors of a text depend on its place by their lines and offsets only. -/
theorem scan_lowered (lines bytes : Nat) (place : Position) (breakable : Bool) (text : List Char) :
    scan (place.lowered lines bytes) breakable text =
      lowered lines bytes (scan place breakable text) := by
  fun_induction scan place breakable text with
  | case1 place breakable => rw [scan, Token.lowered_span]; rfl
  | case2 place breakable rest error failed ih =>
    rw [scan_newline, Position.lowered_nextLine, ih, failed]
    rfl
  | case3 place breakable rest tokens read ih =>
    rw [scan_newline, Position.lowered_nextLine, ih, read, Token.lowered_span]
    cases breakable <;> rfl
  | case4 place breakable first rest line blank ih =>
    rw [scan_blank _ _ blank, Position.lowered_advance, ih]
  | case5 place breakable first rest line blank comment found ih =>
    obtain ⟨rfl, second⟩ : first = '/' ∧ rest.head? = some '/' := by simpa using comment
    rw [scan_comment _ _ second, Position.lowered_advance, ← drop_takeWhile]
    exact ih
  | case6 place breakable first rest line blank comment flaw failed =>
    rw [scan, if_neg line, if_neg blank, if_neg comment, failed]
    rfl
  | case7 place breakable first rest line blank comment found read error failed ih =>
    rw [scan_lexeme _ _ ⟨line, by simpa using blank, by simpa using comment⟩ read,
      Position.lowered_advance, ih, failed]
    rfl
  | case8 place breakable first rest line blank comment found read tokens others ih =>
    rw [scan_lexeme _ _ ⟨line, by simpa using blank, by simpa using comment⟩ read,
      Position.lowered_advance, ih, others, Token.lowered_span]
    rfl

/-- A newline behind the tokens counts; `breakable` tells so for a newline in their place. -/
def countsBehind (breakable : Bool) (tokens : List Token) : Bool :=
  tokens.foldl (fun _ token => decide (token.kind ≠ .newline)) breakable

theorem countsBehind_false (tokens : List Token) : countsBehind false tokens = breaksAfter tokens := by
  rcases List.eq_nil_or_concat tokens with rfl | ⟨front, last, rfl⟩
  · rfl
  · simp [countsBehind, breaksAfter]

/-- What lexing a text settles for the lines below it: the tokens in front of the end of the
input, and whether a newline counts there. -/
theorem Lexed.extended {place : Position} {breakable : Bool} {before text : List Char}
    {tokens : List Token} (h : Lexed place breakable text tokens) (start : place = .behind before) :
    ∃ front stop, tokens = front ++ [stop] ∧ stop.kind = .endOfInput ∧
      (∀ token ∈ front, token.kind ≠ .endOfInput) ∧
      ∀ rest, scan place breakable (text ++ '\n' :: rest) =
        (scan (Position.behind (before ++ text)).nextLine false rest).map
          (front ++ (if countsBehind breakable front then
            [⟨.newline, "\\n", (Position.behind (before ++ text)).span 1⟩] else []) ++ ·) := by
  induction h generalizing before with
  | nil =>
    subst start
    refine ⟨[], _, rfl, rfl, by simp, fun rest => ?_⟩
    rw [List.append_nil, List.nil_append, scan_newline]
    rfl
  | @line place rest tokens others ih =>
    subst start
    obtain ⟨front, stop, rfl, ends, solid, reads⟩ := ih (Position.behind_newline before).symm
    refine ⟨_ :: front, stop, rfl, ends, by simpa using solid, fun more => ?_⟩
    rw [List.cons_append, scan_newline, reads more, ← List.append_cons]
    cases scan (Position.behind (before ++ '\n' :: rest)).nextLine false more <;> rfl
  | @emptyLine place rest tokens others ih =>
    subst start
    obtain ⟨front, stop, rfl, ends, solid, reads⟩ := ih (Position.behind_newline before).symm
    refine ⟨front, stop, rfl, ends, solid, fun more => ?_⟩
    rw [List.cons_append, scan_newline, reads more, ← List.append_cons]
    cases scan (Position.behind (before ++ '\n' :: rest)).nextLine false more <;> rfl
  | @blank place breakable c rest tokens space others ih =>
    subst start
    have line : c ≠ '\n' := by
      rintro rfl
      cases space
    obtain ⟨front, stop, rfl, ends, solid, reads⟩ := ih (Position.behind_char before line).symm
    refine ⟨front, stop, rfl, ends, solid, fun more => ?_⟩
    rw [List.cons_append, scan_blank _ _ space, reads more, ← List.append_cons]
  | @comment place breakable body rest tokens slash inside stops others ih =>
    subst start
    have line : '\n' ∉ '/' :: body := by simpa using fun mem => inside _ mem rfl
    obtain ⟨front, stop, rfl, ends, solid, reads⟩ := ih (Position.behind_append before line).symm
    refine ⟨front, stop, rfl, ends, solid, fun more => ?_⟩
    have run : ∀ c ∈ body, decide (c ≠ '\n') = true := by simpa using inside
    have left : (rest ++ '\n' :: more).takeWhile (· ≠ '\n') = [] ∧
        (rest ++ '\n' :: more).dropWhile (· ≠ '\n') = rest ++ '\n' :: more := by
      cases rest with
      | nil => simp
      | cons c rest => simp [stops c rfl]
    rw [List.cons_append, List.append_assoc, scan_comment _ _ (by simp [slash]),
      List.takeWhile_append_of_pos run, List.dropWhile_append_of_pos run, left.1, left.2,
      List.append_nil, reads more, List.append_assoc, List.cons_append]
  | @lexeme place breakable first body rest found tokens opens kind length same others ih =>
    subst start
    have alone := same [] (by simp [Replaces])
    rw [List.append_nil] at alone
    have line : '\n' ∉ first :: body := by simpa using ⟨opens.1.symm, (lexeme_spelled alone length).2⟩
    have moved : (Position.behind before).advance (found.more + 1) =
        .behind (before ++ first :: body) := by
      rw [Position.behind_append before line, List.length_cons, length]
    obtain ⟨front, stop, rfl, ends, solid, reads⟩ := ih moved
    refine ⟨_ :: front, stop, rfl, ends, by simpa using ⟨kind.2, solid⟩, fun more => ?_⟩
    have replaces := Replaces.further rest (show ('\n' :: more).head? = some '\n' from rfl)
    have counts : countsBehind true front = countsBehind breakable
        (⟨found.kind, found.text, (Position.behind before).span (found.more + 1)⟩ :: front) := by
      simp [countsBehind, kind.1]
    rw [List.cons_append, List.append_assoc, scan_lexeme _ _ (opens.replace replaces)
      (same _ replaces), ← length, List.drop_left, length, reads more, ← counts, List.append_assoc,
      List.cons_append]
    cases scan (Position.behind (before ++ first :: (body ++ rest))).nextLine false more <;> rfl

end Lexer

open Lexer

/-- The tokens of two texts with a newline between them, from the tokens of each of them. -/
def joinLines (above : String) (upper lower : List Token) : List Token :=
  let front := upper.filter (·.kind ≠ .endOfInput)
  let seam : List Token :=
    if breaksAfter front then [⟨.newline, "\\n", (Position.behind above.toList).span 1⟩] else []
  front ++ seam ++ lower.map (Token.lowered (1 + above.toList.count '\n') (above.toList.length + 1))

section Lines

variable {above below : String} {upper : List Token} {error : LexError}

/-- A text is lexed below another one as it is lexed alone. -/
theorem tokenize_below (h : tokenize above = .ok upper) : tokenize (above ++ "\n" ++ below) =
    match tokenize below with
    | .ok lower => .ok (joinLines above upper lower)
    | .error error => .error (error.lowered (1 + above.toList.count '\n')) := by
  have start : Position.start = .behind [] := rfl
  obtain ⟨front, stop, rfl, ends, solid, reads⟩ := (lexed_of_tokenize h).extended start
  have own : (front ++ [stop]).filter (·.kind ≠ .endOfInput) = front :=
    Fragment.written_ending ends solid
  have place : (Position.behind ([] ++ above.toList)).nextLine =
      Position.start.lowered (1 + above.toList.count '\n') (above.toList.length + 1) := by
    simp [Position.behind, Position.nextLine, Position.lowered, Position.start, Nat.add_comm]
  have text : (above ++ "\n" ++ below).toList = above.toList ++ '\n' :: below.toList := by
    simp [String.toList_append]
  rw [tokenize_eq, text, reads, place, scan_lowered, countsBehind_false, tokenize_eq]
  cases scan .start false below.toList with
  | error error => rfl
  | ok lower => simp only [joinLines, own]; rfl

/-- A text without tokens has none with further lines below it. -/
theorem tokenize_stuck (h : tokenize above = .error error) (below : String) :
    ∃ other, tokenize (above ++ "\n" ++ below) = .error other := by
  have line : ('\n' :: below.toList).head? = some '\n' := rfl
  have none := scan_further (tokenize_eq above ▸ h) line
  cases together : tokenize (above ++ "\n" ++ below) with
  | error other => exact ⟨other, rfl⟩
  | ok tokens =>
    have some : spell false (above.toList ++ '\n' :: below.toList) = some (tokens.map Token.glyph) := by
      have text : (above ++ "\n" ++ below).toList = above.toList ++ '\n' :: below.toList := by
        simp [String.toList_append]
      rw [spell, ← text, ← tokenize_eq]
      exact congrArg glyphs together
    rw [none] at some
    cases some

end Lines

/-- Lexing goes line by line: two texts with a newline between them have tokens if both of them
have, and then the tokens of the first one, a newline where it counts, and those of the second
one further down. An error of the second one is found further down, too. -/
theorem tokenize_lines (above below : String) :
    (∀ tokens, tokenize (above ++ "\n" ++ below) = .ok tokens ↔ ∃ upper lower,
      tokenize above = .ok upper ∧ tokenize below = .ok lower ∧ tokens = joinLines above upper lower) ∧
    ∀ upper error, tokenize above = .ok upper → tokenize below = .error error →
      tokenize (above ++ "\n" ++ below) = .error (error.lowered (1 + above.toList.count '\n')) := by
  refine ⟨fun tokens => ⟨fun together => ?_, ?_⟩, fun upper error first second => ?_⟩
  · cases first : tokenize above with
    | error error =>
      obtain ⟨other, stuck⟩ := tokenize_stuck first below
      rw [together] at stuck
      cases stuck
    | ok upper =>
      rw [tokenize_below first] at together
      cases second : tokenize below with
      | error error => rw [second] at together; cases together
      | ok lower =>
        rw [second] at together
        exact ⟨upper, lower, rfl, rfl, (Except.ok.inj together).symm⟩
  · rintro ⟨upper, lower, first, second, rfl⟩
    rw [tokenize_below first, second]
  · rw [tokenize_below first, second]

/-- A line that ends in a comment and half an operator above a string that is not closed, and
above a number. -/
theorem tokenize_lines_of_half_operator : ∃ upper lower error,
    tokenize "a =// b" = .ok upper ∧ tokenize "= 2" = .ok lower ∧ tokenize " \"c" = .error error ∧
    tokenize ("a =// b" ++ "\n" ++ "= 2") = .ok (joinLines "a =// b" upper lower) ∧
    tokenize ("a =// b" ++ "\n" ++ " \"c") = .error (error.lowered 1) := by
  have upper : tokenize "a =// b" = .ok [⟨.identifier, "a", ⟨1, 1, 2, 0, 1⟩⟩,
      ⟨.punct .assign, "=", ⟨1, 3, 4, 2, 3⟩⟩, ⟨.endOfInput, "", ⟨1, 8, 8, 7, 7⟩⟩] := by
    decide +kernel
  have lower : tokenize "= 2" = .ok [⟨.punct .assign, "=", ⟨1, 1, 2, 0, 1⟩⟩,
      ⟨.number, "2", ⟨1, 3, 4, 2, 3⟩⟩, ⟨.endOfInput, "", ⟨1, 4, 4, 3, 3⟩⟩] := by
    decide +kernel
  have broken : tokenize " \"c" = .error ⟨.unclosedString, 1, 2⟩ := by decide +kernel
  exact ⟨_, _, _, upper, lower, broken, ((tokenize_lines _ _).1 _).mpr ⟨_, _, upper, lower, rfl⟩,
    (tokenize_lines _ _).2 _ _ upper broken⟩

end ScriptShell
