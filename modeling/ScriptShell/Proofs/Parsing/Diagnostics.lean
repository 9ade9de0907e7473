import ScriptShell.Compiler
import ScriptShell.Proofs.Lexing.Placement
import ScriptShell.Proofs.Parsing.Progress

/-!
Where syntax errors point. An error of the lexer stands behind some text that the source starts with, and one of
the parser at a token, which stands behind such a text too. So the line of an error is a line of the source, and
its column is that of a byte of the line or the one behind the last byte.
-/
namespace ScriptShell

section Lines

variable (front rest text : List Char)

theorem lineAt?_newline (number : Nat) : lineAt? (number + 1) ('\n' :: rest) = lineAt? number rest := rfl

theorem lineAt?_char (number : Nat) {c : Char} (line : c ≠ '\n') :
    lineAt? (number + 1) (c :: rest) = lineAt? (number + 1) rest := by
  rw [lineAt?, List.dropWhile_cons_of_pos (by simpa using line), lineAt?]

/-- The lines of a text are what its newlines separate. -/
theorem lineAt?_eq_splitOn (number : Nat) : lineAt? number text = (text.splitOn '\n')[number]? := by
  induction text generalizing number with
  | nil => cases number <;> simp [lineAt?, firstLine, List.splitOn_nil]
  | cons c rest ih =>
    rw [List.splitOn_cons_eq_if_modifyHead]
    by_cases line : c = '\n'
    · subst line
      cases number with
      | zero => simp [lineAt?, firstLine]
      | succ number => simpa [lineAt?_newline] using ih number
    · rw [if_neg (by simpa using line)]
      cases number with
      | zero =>
        have first := ih 0
        cases lines : rest.splitOn '\n' with
        | nil => exact absurd lines (List.splitOn_ne_nil _ _)
        | cons head others =>
          rw [lines] at first
          simpa [lineAt?, firstLine, line] using first
      | succ number =>
        rw [lineAt?_char _ _ line, ih]
        cases rest.splitOn '\n' <;> rfl

theorem lineAt?_append_newline :
    lineAt? (front.count '\n' + 1) (front ++ '\n' :: rest) = some (firstLine rest) := by
  induction front with
  | nil => rfl
  | cons c front ih =>
    by_cases line : c = '\n'
    · rw [line, List.count_cons_self, List.cons_append, lineAt?_newline, ih]
    · rw [List.count_cons_of_ne line, List.cons_append, lineAt?_char _ _ line, ih]

/-- A line goes on behind what a text has since its last newline. -/
theorem lineAt?_count : lineAt? (front.count '\n') (front ++ rest) =
    some (front.rtakeWhile (· ≠ '\n') ++ firstLine rest) := by
  induction front using List.reverseRecOn generalizing rest with
  | nil => rfl
  | append_singleton front c ih =>
    rw [List.append_assoc, List.singleton_append]
    by_cases line : c = '\n'
    · subst line
      rw [List.count_append, List.count_singleton_self, lineAt?_append_newline,
        List.rtakeWhile_concat_neg _ _ _ (by simp), List.nil_append]
    · have same : (front ++ [c]).count '\n' = front.count '\n' := by
        simp [line]
      rw [same, ih, List.rtakeWhile_concat_pos _ _ _ (by simpa using line), firstLine,
        List.takeWhile_cons_of_pos (by simpa using line), firstLine, ← List.append_cons]

end Lines

/-- A diagnostic at a line of a source: at a byte of it, or behind the last one. -/
structure Diagnostic.PointsInto (own : Diagnostic) (source : String) : Prop where
  line : 1 ≤ own.line ∧ own.line ≤ 1 + source.toList.count '\n'
  context : (source.toList.splitOn '\n')[own.line - 1]? = some own.context.toList
  column : 1 ≤ own.column ∧ own.column ≤ own.context.length + 1

/-- A line and a column stand in a text: there the text has a front that ends. -/
def InText (text : List Char) (line column : Nat) : Prop :=
  ∃ front rest, text = front ++ rest ∧
    line = (Position.behind front).line ∧ column = (Position.behind front).column

theorem Diagnostic.pointsInto_of_inText {source : String} {line column : Nat} (message : String)
    (h : InText source.toList line column) : (make source line column message).PointsInto source := by
  obtain ⟨front, rest, split, rfl, rfl⟩ := h
  have found := lineAt?_count front rest
  rw [← split] at found
  have context : contextOf source (Position.behind front).line =
      String.ofList (front.rtakeWhile (· ≠ '\n') ++ firstLine rest) := by
    rw [contextOf, if_neg (by simp [Position.behind]), Position.behind, Nat.add_sub_cancel_left, found]
    rfl
  constructor
  · simp [make, Position.behind, split]
  · rw [← lineAt?_eq_splitOn, make, context, String.toList_ofList, Position.behind]
    simpa using found
  · rw [make, context, String.length_ofList, List.length_append, Position.behind]
    dsimp only
    omega

namespace Lexer

variable {place : Position} {breakable : Bool} {text before : List Char} {flaw : Flaw} {error : LexError}

/-- A string literal fails at its quote, or on its line behind what was read of it. -/
theorem stringBody_fails {reach : Nat} (h : stringBody reach text = .error flaw) :
    flaw.reach = 0 ∨
      ∃ run tail, text = run ++ tail ∧ flaw.reach = reach + run.length ∧ '\n' ∉ run := by
  fun_induction stringBody reach text with
  | case1 reach | case3 reach =>
    cases h
    exact .inl rfl
  | case2 reach rest | case6 reach escaped rest c known value more read ih
  | case9 reach c rest quote alone escape line value more read ih => cases h
  | case4 reach escaped rest unknown =>
    cases h
    exact .inr ⟨['\\'], escaped :: rest, rfl, rfl, by decide⟩
  | case5 reach escaped rest c known flaw failed ih =>
    cases h
    rcases ih failed with start | ⟨run, tail, rfl, length, line⟩
    · exact .inl start
    · have other : escaped ≠ '\n' := by
        rintro rfl
        cases known
      refine .inr ⟨'\\' :: escaped :: run, tail, rfl, ?_, by simp [line, other.symm]⟩
      simp only [length, List.length_cons]
      omega
  | case7 reach rest quote escape others =>
    cases h
    exact .inr ⟨[], _, rfl, rfl, by simp⟩
  | case8 reach c rest quote alone escape line flaw failed ih =>
    cases h
    rcases ih failed with start | ⟨run, tail, rfl, length, free⟩
    · exact .inl start
    · refine .inr ⟨c :: run, tail, rfl, ?_, by simp [free, Ne.symm line]⟩
      simp only [length, List.length_cons]
      omega

theorem number_fails {first : Char} (digit : first.isDigit = true) (h : number first text = .error flaw) :
    flaw.reach = 0 ∨
      ∃ run tail, first :: text = run ++ tail ∧ flaw.reach = run.length ∧ '\n' ∉ run := by
  have outcome : ∀ {found : Except Flaw Lexeme}, found = .error flaw →
      found = sized (first :: text.takeWhile Char.isDigit) → flaw.reach = 0 := by
    rintro _ rfl same
    unfold sized at same
    split at same <;> cases same
    rfl
  unfold number at h
  dsimp only at h
  split at h
  · exact .inl (outcome h rfl)
  · next next others left =>
    split at h
    · cases h
      refine .inr ⟨first :: text.takeWhile Char.isDigit, next :: others, ?_, rfl, fun line => ?_⟩
      · rw [← left, List.cons_append, List.takeWhile_append_dropWhile]
      · rcases List.mem_cons.mp line with rfl | mem
        · cases digit
        · cases List.mem_takeWhile_imp mem
    · exact .inl (outcome h rfl)

theorem operator_fails {first : Char} (h : operator first text = .error flaw) : flaw.reach = 0 := by
  have lone : single first = .error flaw → flaw.reach = 0 := by
    intro failed
    unfold single at failed
    split at failed <;> cases failed
    rfl
  by_cases alone : ∀ c ∈ text.head?, Punct.ofTwo? first c = none
  · rw [operator_single alone] at h
    exact lone h
  · cases text with
    | nil => simp at alone
    | cons second rest =>
      have pair : Punct.ofTwo? first second ≠ none := by simpa using alone
      obtain ⟨mark, known⟩ := Option.ne_none_iff_exists'.mp pair
      rw [operator] at h
      simp only [known] at h
      cases h

/-- A lexeme fails on its line, in or behind what was read of it. -/
theorem lexeme_fails {first : Char} (h : lexeme first text = .error flaw) :
    ∃ run tail, first :: text = run ++ tail ∧ flaw.reach = run.length ∧ '\n' ∉ run := by
  have cases : flaw.reach = 0 ∨
      ∃ run tail, first :: text = run ++ tail ∧ flaw.reach = run.length ∧ '\n' ∉ run := by
    unfold lexeme at h
    split at h
    · next quote =>
      split at h
      · next failed =>
        cases h
        rcases stringBody_fails failed with start | ⟨run, tail, rfl, length, line⟩
        · exact .inl start
        · exact .inr ⟨first :: run, tail, rfl, by rw [length, List.length_cons, Nat.add_comm],
            by simp [line, quote]⟩
      · cases h
    · split at h
      · cases h
      · split at h
        · next digit => exact number_fails digit h
        · exact .inl (operator_fails h)
  rcases cases with start | inside
  · exact ⟨[], _, rfl, start, by simp⟩
  · exact inside

/-- An error of the lexer stands in the text. -/
theorem scan_fails (h : scan place breakable text = .error error) (start : place = .behind before) :
    InText (before ++ text) error.line error.column := by
  fun_induction scan place breakable text generalizing before with
  | case1 place breakable => cases h
  | case2 place breakable rest other failed ih =>
    cases h
    subst start
    rw [List.append_cons]
    exact ih failed (Position.behind_newline before).symm
  | case3 place breakable rest tokens read ih => cases h
  | case4 place breakable first rest line blank ih =>
    subst start
    rw [List.append_cons]
    exact ih h (Position.behind_char before line).symm
  | case5 place breakable first rest line blank slash comment =>
    rename_i ih
    subst start
    have split : before ++ first :: rest = (before ++ first :: comment) ++ rest.drop comment.length := by
      rw [drop_takeWhile, List.append_assoc, List.cons_append, List.takeWhile_append_dropWhile]
    have free : '\n' ∉ first :: comment := by
      simpa [Ne.symm line] using fun mem => by simpa using List.mem_takeWhile_imp mem
    rw [split]
    exact ih h (Position.behind_append before free).symm
  | case6 place breakable first rest line blank comment flaw failed =>
    cases h
    subst start
    obtain ⟨run, tail, split, length, free⟩ := lexeme_fails failed
    refine ⟨before ++ run, tail, by rw [split, List.append_assoc], ?_⟩
    rw [Position.behind_append before free, length]
    exact ⟨rfl, rfl⟩
  | case7 place breakable first rest line blank comment found read other failed ih =>
    cases h
    subst start
    obtain ⟨body, tail, rfl, kind, length, same⟩ := lexeme_local read
    have alone := same [] (by simp [Replaces])
    rw [List.append_nil] at alone
    have free : '\n' ∉ first :: body := by simpa [Ne.symm line] using (lexeme_spelled alone length).2
    rw [← length, List.drop_left] at ih failed
    rw [← List.cons_append, ← List.append_assoc]
    exact ih failed (Position.behind_append before free).symm
  | case8 => cases h

end Lexer

/-- An error of the parser stands in the source. -/
theorem parseProgram_fails {source : String} {tokens : List Token} {error : SyntaxError}
    (lexed : tokenize source = .ok tokens) (h : parseProgram tokens = .error error) :
    InText source.toList error.line error.column := by
  have lexed : Lexer.Lexed .start false source.toList tokens := Lexer.lexed_of_tokenize lexed
  obtain ⟨token, mem, own⟩ := (parseProgram_blames tokens).located error h
  have ended : Token.ended tokens = tokens := by
    obtain ⟨front, stop, rfl, ends, -⟩ := lexed.ending
    exact if_pos (by simp [ends])
  rw [Cursor.ofTokens_ahead, ended] at mem
  have stands : Lexer.Stands ([] ++ source.toList) token := lexed.stands rfl token mem
  refine ⟨source.toList.take token.span.start, _, (List.take_append_drop _ _).symm, ?_⟩
  rw [own]
  exact ⟨stands.line, stands.column⟩

/-- The source line of a rendered diagnostic, with tabs as blanks, stands above a line that is empty but for a
caret, which has `count` characters of the source line to its left. -/
def Diagnostic.CaretBehind (own : Diagnostic) (count : Nat) : Prop :=
  ∃ head gutter margin : String,
    own.render = head ++ "\n" ++ gutter ++
      String.ofList (own.context.toList.map fun c => if c = '\t' then ' ' else c) ++ "\n" ++ margin ++ "^" ∧
    '\n' ∉ gutter.toList ∧ '\n' ∉ margin.toList ∧ margin.length = gutter.length + count

theorem Diagnostic.render_caret (own : Diagnostic) (shown : own.context ≠ "") :
    own.CaretBehind (own.column - 1) := by
  have digits : '\n' ∉ (toString own.line).toList := by
    rw [Nat.toString_eq_ofList_toDigits, String.toList_ofList]
    intro mem
    cases Nat.isDigit_of_mem_toDigits (by decide) (by decide) mem
  have nonempty : own.context.isEmpty = false := by simpa using shown
  have lineStart : "\n " = "\n" ++ " " := by decide
  refine ⟨fileName ++ ":" ++ toString own.line ++ ":" ++ toString own.column ++ ": ERROR: " ++ own.message,
    " " ++ toString own.line ++ " |   ",
    " " ++ blanks (toString own.line).length ++ " |   " ++ blanks (own.column - 1), ?_, ?_, ?_, ?_⟩
  · rw [render]
    simp only [nonempty, Bool.false_eq_true, if_false, lineStart, String.append_assoc]
  · simpa using digits
  · simp [blanks]
  · simp [blanks]

/-- The compiler reports one diagnostic for a source with a lexical or syntax error, whatever the backend is like.
It points into the source, and its caret stands below the byte it points at, or behind the line. -/
theorem syntax_diagnostic_points_into_source (compiler : Compiler) (source : String)
    (stops : (∃ error, tokenize source = .error error) ∨
      ∃ tokens error, tokenize source = .ok tokens ∧ parseProgram tokens = .error error) :
    ∃ diagnostic, compiler.compile source = (.error diagnostic, compiler) ∧
      (∀ emission, compiler.compileWith source emission = (.error (.diagnosed diagnostic), compiler)) ∧
      diagnostic.PointsInto source ∧
      (diagnostic.context ≠ "" → diagnostic.CaretBehind (diagnostic.column - 1)) := by
  have reported : ∃ line column message,
      Compiler.readSource source = .error (.make source line column message) ∧
      InText source.toList line column := by
    rcases stops with ⟨error, failed⟩ | ⟨tokens, error, lexed, failed⟩
    · have place : InText ([] ++ source.toList) error.line error.column :=
        Lexer.scan_fails (tokenize_eq source ▸ failed) rfl
      exact ⟨_, _, error.cause.message, by rw [Compiler.readSource, failed], place⟩
    · refine ⟨_, _, error.cause.message, ?_, parseProgram_fails lexed failed⟩
      rw [Compiler.readSource, lexed]
      simp only [failed]
  obtain ⟨line, column, message, failed, place⟩ := reported
  have refused (emission : Emission) :
      compiler.compileWith source emission = (.error (.diagnosed (.make source line column message)), compiler) := by
    rw [Compiler.compileWith, failed]
  exact ⟨_, by rw [Compiler.compile, refused]; rfl, refused, Diagnostic.pointsInto_of_inText message place,
    Diagnostic.render_caret _⟩

/-- A text that is not closed on its line, behind a tab. -/
theorem syntax_diagnostic_points_into_source_of_line_break :
    tokenize "val a = 1\n\t\"b\n" = .error ⟨.lineBreakInString, 2, 4⟩ ∧
    ∃ diagnostic, Compiler.compile {} "val a = 1\n\t\"b\n" = (.error diagnostic, {}) ∧
      (∀ emission, Compiler.compileWith {} "val a = 1\n\t\"b\n" emission = (.error (.diagnosed diagnostic), {})) ∧
      diagnostic.PointsInto "val a = 1\n\t\"b\n" ∧
      (diagnostic.context ≠ "" → diagnostic.CaretBehind (diagnostic.column - 1)) := by
  refine ⟨?lexed, syntax_diagnostic_points_into_source {} _ (.inl ⟨⟨.lineBreakInString, 2, 4⟩, ?lexed⟩)⟩
  case lexed => decide +kernel

end ScriptShell
