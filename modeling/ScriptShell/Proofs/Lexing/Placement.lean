import ScriptShell.Proofs.Containment.Spelling
import Mathlib.Data.List.DropRight
import Mathlib.Data.List.Pairwise
import Mathlib.Data.List.Chain

/-!
Tokens in their places. The spans of the tokens of a text cover it in order, and what they leave
out is blanks, comments, and newlines behind other newlines. The line and the column of a token
are those of the text in front of it, and its lexeme is the text it covers; that of a string
literal is the text between its quotes with the escapes decoded.
-/
namespace ScriptShell

/-- The place behind the text that a source starts with. -/
def Position.behind (text : List Char) : Position :=
  ⟨text.length, 1 + text.count '\n', 1 + (text.rtakeWhile (· ≠ '\n')).length⟩

namespace Position

theorem behind_newline (text : List Char) : behind (text ++ ['\n']) = (behind text).nextLine := by
  simp [behind, nextLine, Nat.add_assoc]

theorem behind_char (text : List Char) {c : Char} (line : c ≠ '\n') :
    behind (text ++ [c]) = (behind text).advance 1 := by
  simp [behind, advance, line, Nat.add_assoc]

/-- Text without newlines moves on along its line. -/
theorem behind_append (text : List Char) {run : List Char} (line : '\n' ∉ run) :
    behind (text ++ run) = (behind text).advance run.length := by
  induction run generalizing text with
  | nil => simp [advance]
  | cons c run ih =>
    rw [List.mem_cons, not_or] at line
    rw [List.append_cons, ih _ line.2, behind_char text (Ne.symm line.1)]
    simp [advance, Nat.add_assoc, Nat.add_comm 1]

end Position

/-- A byte is among those of a span. -/
def Span.Covers (span : Span) (i : Nat) : Prop := span.start ≤ i ∧ i < span.stop

/-- The text that a span covers. -/
def Span.covered (span : Span) (text : List Char) : List Char :=
  (text.drop span.start).take (span.stop - span.start)

namespace Lexer

/-- The value of the text between the quotes of a string literal. -/
def decode : List Char → Option (List Char)
  | [] => some []
  | '\\' :: escaped :: rest =>
    (unescape escaped).bind fun c => (decode rest).map (c :: ·)
  | c :: rest =>
    if c = '\\' ∨ c = '"' ∨ c = '\n' then none else (decode rest).map (c :: ·)

/-- How the lexeme of a token relates to the text under it. -/
def Spelled (kind : TokenKind) (lexeme : String) (covered : List Char) : Prop :=
  match kind with
  | .identifier | .number | .keyword _ | .punct _ => lexeme.toList = covered
  | .string => ∃ body, covered = '"' :: (body ++ ['"']) ∧ decode body = some lexeme.toList
  | .newline => lexeme = "\\n" ∧ covered = ['\n']
  | .endOfInput => lexeme = "" ∧ covered = []

/-- A token that stands in a text where its span says. -/
structure Stands (text : List Char) (token : Token) : Prop where
  forward : token.span.start ≤ token.span.stop
  inside : token.span.stop ≤ text.length
  line : token.span.line = 1 + (text.take token.span.start).count '\n'
  column : token.span.columnStart =
    1 + ((text.take token.span.start).rtakeWhile (· ≠ '\n')).length
  width : token.span.columnEnd = token.span.columnStart + (token.span.stop - token.span.start)
  spelled : Spelled token.kind token.lexeme (token.span.covered text)

/-- A byte of a comment: two slashes in front of it on its line open the comment, and no token
covers anything from there on. -/
def InComment (text : List Char) (tokens : List Token) (i : Nat) : Prop :=
  ∃ opening ≤ i, text[opening]? = some '/' ∧ text[opening + 1]? = some '/' ∧
    ∀ k, opening ≤ k → k ≤ i →
      text[k]? ≠ some '\n' ∧ ∀ token ∈ tokens, ¬ token.span.Covers k

/-- What stands between the tokens of a text. -/
inductive Between (text : List Char) (tokens : List Token) (i : Nat) : Prop where
  | blank {c : Char} (here : text[i]? = some c) (space : Ascii.isBlank c = true)
  | comment (inside : InComment text tokens i)
  /-- A newline in front of all tokens or behind a newline token. -/
  | newline (here : text[i]? = some '\n')
      (follows : ∀ last ∈ (tokens.filter (·.span.stop ≤ i)).getLast?, last.kind = .newline)

/-- A text with its tokens in their places. -/
structure Placed (text : List Char) (tokens : List Token) : Prop where
  ordered : tokens.Pairwise fun token next =>
    token.span.start < next.span.start ∧ token.span.stop ≤ next.span.start
  between : ∀ i < text.length, (∀ token ∈ tokens, ¬ token.span.Covers i) → Between text tokens i
  ending : ∃ front stop, tokens = front ++ [stop] ∧ stop.kind = .endOfInput ∧
    stop.span.start = text.length ∧ ∀ token ∈ front, token.kind ≠ .endOfInput
  breaks : tokens.IsChain fun token next => ¬ (token.kind = .newline ∧ next.kind = .newline)
  first : ∀ token ∈ tokens.head?, token.kind ≠ .newline
  stands : ∀ token ∈ tokens, Stands text token

section Spelling

theorem decode_escape {escaped c : Char} {rest : List Char} (known : unescape escaped = some c) :
    decode ('\\' :: escaped :: rest) = (decode rest).map (c :: ·) := by
  rw [decode, known]
  rfl

theorem decode_plain {c : Char} {rest : List Char} (escape : c ≠ '\\') (quote : c ≠ '"')
    (line : c ≠ '\n') : decode (c :: rest) = (decode rest).map (c :: ·) := by
  rw [decode, if_neg (by simp [escape, quote, line])]
  rintro escaped rest ⟨⟩
  exact absurd rfl escape

/-- The value that is read from a string literal is that of the text in front of its closing
quote. -/
theorem stringBody_decode {reach more : Nat} {text value : List Char}
    (h : stringBody reach text = .ok (value, more)) :
    ∃ body tail, text = body ++ '"' :: tail ∧ reach + body.length = more ∧
      decode body = some value ∧ '\n' ∉ body := by
  fun_induction stringBody reach text generalizing value more with
  | case1 reach => cases h
  | case2 reach rest =>
    cases h
    exact ⟨[], rest, rfl, rfl, rfl, by simp⟩
  | case3 reach => cases h
  | case4 reach escaped rest unknown => cases h
  | case5 reach escaped rest c known flaw failed ih => cases h
  | case6 reach escaped rest c known value' more' read ih =>
    cases h
    obtain ⟨body, tail, rfl, length, decoded, line⟩ := ih read
    refine ⟨'\\' :: escaped :: body, tail, rfl, by simp only [List.length_cons]; omega, ?_, ?_⟩
    · rw [decode_escape known, decoded]
      rfl
    · have other : escaped ≠ '\n' := by
        rintro rfl
        cases known
      simp [line, Ne.symm other]
  | case7 reach rest quote escape others => cases h
  | case8 reach c rest quote alone escape line flaw failed ih => cases h
  | case9 reach c rest quote alone escape line value' more' read ih =>
    cases h
    have plain : c ≠ '\\' := by
      rintro rfl
      cases rest with
      | nil => exact alone rfl rfl
      | cons first others => exact escape first others rfl rfl
    obtain ⟨body, tail, rfl, length, decoded, free⟩ := ih read
    refine ⟨c :: body, tail, rfl, by simp only [List.length_cons]; omega, ?_, ?_⟩
    · rw [decode_plain plain quote line, decoded]
      rfl
    · simp [free, Ne.symm line]

theorem takeWhile_self {p : Char → Bool} {body : List Char}
    (length : body.length = (body.takeWhile p).length) : body.takeWhile p = body :=
  (List.takeWhile_prefix p).eq_of_length length.symm

/-- A run of characters that are no newlines holds none. -/
theorem line_of_takeWhile {p : Char → Bool} {body : List Char} (own : body.takeWhile p = body)
    (line : p '\n' = false) : '\n' ∉ body := by
  intro mem
  have holds := List.mem_takeWhile_imp (own ▸ mem)
  rw [line] at holds
  cases holds

theorem ofOne?_text {c : Char} {mark : Punct} (h : Punct.ofOne? c = some mark) :
    mark.text.toList = [c] := by
  unfold Punct.ofOne? at h
  split at h <;> first | (cases h; decide) | cases h

theorem ofTwo?_text {first second : Char} {mark : Punct} (h : Punct.ofTwo? first second = some mark) :
    mark.text.toList = [first, second] := by
  unfold Punct.ofTwo? at h
  split at h <;> first | (cases h; decide) | cases h

theorem number_spelled {first : Char} {body : List Char} {found : Lexeme}
    (h : number first body = .ok found) (length : body.length = found.more) :
    Spelled found.kind found.text (first :: body) ∧ '\n' ∉ body := by
  have own : body.takeWhile Char.isDigit = body :=
    takeWhile_self (length.trans (number_local h).2.1.symm)
  have left : body.dropWhile Char.isDigit = [] := by
    have whole := List.takeWhile_append_dropWhile (p := Char.isDigit) (l := body)
    rwa [own, List.append_right_eq_self] at whole
  refine ⟨?_, line_of_takeWhile own rfl⟩
  rw [number_free (by simp [left]), own, sized] at h
  split at h
  · cases h
  · cases h
    simp [Spelled]

theorem operator_spelled {first : Char} {body : List Char} {found : Lexeme}
    (h : operator first body = .ok found) (length : body.length = found.more) :
    Spelled found.kind found.text (first :: body) ∧ '\n' ∉ body := by
  by_cases alone : ∀ c ∈ body.head?, Punct.ofTwo? first c = none
  · rw [operator_single alone, single] at h
    split at h
    · next mark known =>
      cases h
      obtain rfl : body = [] := List.eq_nil_of_length_eq_zero length
      exact ⟨ofOne?_text known, by simp⟩
    · cases h
  · cases body with
    | nil => simp at alone
    | cons second rest =>
      have pair : Punct.ofTwo? first second ≠ none := by simpa using alone
      obtain ⟨mark, known⟩ := Option.ne_none_iff_exists'.mp pair
      rw [operator] at h
      simp only [known] at h
      cases h
      obtain rfl : rest = [] := by simpa using length
      have other : second ≠ '\n' := by
        rintro rfl
        exact pair (ofTwo?_newline first)
      exact ⟨ofTwo?_text known, by simpa using other.symm⟩

/-- A text that is one lexeme is spelled as the lexeme says, on one line. -/
theorem lexeme_spelled {first : Char} {body : List Char} {found : Lexeme}
    (h : lexeme first body = .ok found) (length : body.length = found.more) :
    Spelled found.kind found.text (first :: body) ∧ '\n' ∉ body := by
  unfold lexeme at h
  split at h
  · next quote =>
    split at h
    · cases h
    · next value more read =>
      cases h
      obtain ⟨inner, tail, rfl, reach, decoded, line⟩ := stringBody_decode read
      obtain rfl : tail = [] := by
        rw [List.length_append, List.length_cons] at length
        exact List.eq_nil_of_length_eq_zero (by dsimp only at length; omega)
      refine ⟨⟨inner, by rw [quote], ?_⟩, by simpa using line⟩
      rw [decoded, String.toList_ofList]
  · split at h
    · cases h
      have own : body.takeWhile Ascii.isWord = body := takeWhile_self (by simpa [word] using length)
      refine ⟨?_, line_of_takeWhile own rfl⟩
      rw [word, own]
      cases Keyword.ofText? (String.ofList (first :: body)) <;> simp [Spelled]
    · split at h
      · exact number_spelled h length
      · exact operator_spelled h length

end Spelling

section Places

variable {place : Position} {breakable : Bool} {before text : List Char} {tokens : List Token}

/-- Tokens stand behind the place at which lexing starts, in their order. -/
theorem Lexed.ordered (h : Lexed place breakable text tokens) :
    (∀ token ∈ tokens, place.offset ≤ token.span.start ∧ token.span.start ≤ token.span.stop) ∧
      tokens.Pairwise fun token next =>
        token.span.start < next.span.start ∧ token.span.stop ≤ next.span.start := by
  induction h with
  | nil => simp [Position.span]
  | @line place rest tokens others ih =>
    obtain ⟨behind, order⟩ := ih
    simp only [Position.nextLine] at behind
    refine ⟨List.forall_mem_cons.mpr ⟨by simp [Position.span], fun token listed => ?_⟩,
      List.pairwise_cons.mpr ⟨fun token listed => ?_, order⟩⟩
    · have := behind token listed
      omega
    · have := behind token listed
      simp only [Position.span]
      omega
  | @emptyLine place rest tokens others ih =>
    obtain ⟨behind, order⟩ := ih
    simp only [Position.nextLine] at behind
    refine ⟨fun token listed => ?_, order⟩
    have := behind token listed
    omega
  | @blank place breakable c rest tokens space others ih =>
    obtain ⟨behind, order⟩ := ih
    simp only [Position.advance] at behind
    refine ⟨fun token listed => ?_, order⟩
    have := behind token listed
    omega
  | @comment place breakable body rest tokens slash inside stops others ih =>
    obtain ⟨behind, order⟩ := ih
    simp only [Position.advance] at behind
    refine ⟨fun token listed => ?_, order⟩
    have := behind token listed
    omega
  | @lexeme place breakable first body rest found tokens opens kind length same others ih =>
    obtain ⟨behind, order⟩ := ih
    simp only [Position.advance] at behind
    refine ⟨List.forall_mem_cons.mpr ⟨by simp [Position.span], fun token listed => ?_⟩,
      List.pairwise_cons.mpr ⟨fun token listed => ?_, order⟩⟩
    · have := behind token listed
      omega
    · have := behind token listed
      simp only [Position.span]
      omega

/-- A token over a piece of text that it is spelled as. -/
theorem stands_span {kind : TokenKind} {lexeme : String} {covered : List Char}
    (spelled : Spelled kind lexeme covered) (before after : List Char) :
    Stands (before ++ (covered ++ after)) ⟨kind, lexeme, (Position.behind before).span covered.length⟩ where
  forward := by simp [Position.span]
  inside := by simp [Position.span, Position.behind]
  line := by simp [Position.span, Position.behind]
  column := by simp [Position.span, Position.behind]
  width := by simp [Position.span]
  spelled := by
    have own : ((Position.behind before).span covered.length).covered (before ++ (covered ++ after)) =
        covered := by
      simp [Span.covered, Position.span, Position.behind]
    rw [own]
    exact spelled

/-- The tokens of a text stand where their spans say. -/
theorem Lexed.stands (h : Lexed place breakable text tokens) (start : place = .behind before) :
    ∀ token ∈ tokens, Stands (before ++ text) token := by
  induction h generalizing before with
  | nil =>
    subst start
    have own : Spelled .endOfInput "" [] := ⟨rfl, rfl⟩
    simpa using stands_span own before []
  | @line place rest tokens others ih =>
    subst start
    rw [List.append_cons]
    refine List.forall_mem_cons.mpr ⟨?_, ih (Position.behind_newline before).symm⟩
    have own : Spelled .newline "\\n" ['\n'] := ⟨rfl, rfl⟩
    simpa using stands_span own before rest
  | emptyLine others ih =>
    subst start
    rw [List.append_cons]
    exact ih (Position.behind_newline before).symm
  | @blank place breakable c rest tokens space others ih =>
    subst start
    have line : c ≠ '\n' := by
      rintro rfl
      cases space
    rw [List.append_cons]
    exact ih (Position.behind_char before line).symm
  | @comment place breakable body rest tokens slash inside stops others ih =>
    subst start
    have line : '\n' ∉ '/' :: body := by simpa using fun mem => inside _ mem rfl
    rw [← List.cons_append, ← List.append_assoc]
    exact ih (Position.behind_append before line).symm
  | @lexeme place breakable first body rest found tokens opens kind length same others ih =>
    subst start
    have alone := same [] (by simp [Replaces])
    rw [List.append_nil] at alone
    obtain ⟨spelled, free⟩ := lexeme_spelled alone length
    have line : '\n' ∉ first :: body := by simpa using ⟨opens.1.symm, free⟩
    have size : found.more + 1 = (first :: body).length := by simp [length]
    rw [size] at ih ⊢
    rw [← List.cons_append]
    refine List.forall_mem_cons.mpr ⟨stands_span spelled before rest, ?_⟩
    rw [← List.append_assoc]
    exact ih (Position.behind_append before line).symm

/-- A newline that is no token stands behind the tokens that end with a newline token, if any. -/
theorem Lexed.follows (h : Lexed place.nextLine false text tokens) {earlier : List Token}
    (ends : ∀ token ∈ earlier, token.span.stop ≤ place.offset) (counts : breaksAfter earlier = false) :
    ∀ last ∈ ((earlier ++ tokens).filter (·.span.stop ≤ place.offset)).getLast?,
      last.kind = .newline := by
  have own : earlier.filter (·.span.stop ≤ place.offset) = earlier :=
    List.filter_eq_self.mpr (by simpa using ends)
  have none : tokens.filter (·.span.stop ≤ place.offset) = [] := by
    refine List.filter_eq_nil_iff.mpr fun token listed => ?_
    have := h.ordered.1 token listed
    simp only [Position.nextLine] at this
    simp only [decide_eq_true_eq]
    omega
  intro last final
  rw [List.filter_append, own, none, List.append_nil] at final
  simpa [breaksAfter, Option.mem_def.mp final] using counts

/-- The bytes that no token covers: behind the tokens `earlier`, of which the last one decides
whether a newline counts. -/
theorem Lexed.between (h : Lexed place breakable text tokens) {earlier : List Token}
    (start : place.offset = before.length)
    (ends : ∀ token ∈ earlier, token.span.stop ≤ place.offset)
    (counts : breaksAfter earlier = breakable) {i : Nat} (reached : before.length ≤ i)
    (inside : i < (before ++ text).length)
    (free : ∀ token ∈ earlier ++ tokens, ¬ token.span.Covers i) :
    Between (before ++ text) (earlier ++ tokens) i := by
  induction h generalizing before earlier with
  | nil =>
    rw [List.append_nil] at inside
    omega
  | @line place rest tokens others ih =>
    have away : i ≠ before.length := by
      rintro rfl
      refine free _ (List.mem_append_right _ List.mem_cons_self) ?_
      simp only [Span.Covers, Position.span]
      omega
    rw [List.append_cons before] at inside ⊢
    rw [List.append_cons earlier] at free ⊢
    refine ih (by simp [Position.nextLine, start]) ?_ (by simp [breaksAfter]) (by simp; omega) inside free
    rw [List.forall_mem_append, List.forall_mem_singleton]
    refine ⟨fun token listed => (ends token listed).trans (by simp [Position.nextLine]), ?_⟩
    simp [Position.nextLine, Position.span]
  | @emptyLine place rest tokens others ih =>
    by_cases here : i = before.length
    · subst here
      refine .newline (by simp) ?_
      rw [← start]
      exact others.follows ends counts
    · rw [List.append_cons] at inside ⊢
      exact ih (by simp [Position.nextLine, start])
        (fun token listed => (ends token listed).trans (by simp [Position.nextLine])) counts
        (by simp; omega) inside free
  | @blank place breakable c rest tokens space others ih =>
    by_cases here : i = before.length
    · subst here
      exact .blank (by simp) space
    · rw [List.append_cons] at inside ⊢
      exact ih (by simp [Position.advance, start])
        (fun token listed => (ends token listed).trans (by simp [Position.advance])) counts
        (by simp; omega) inside free
  | @comment place breakable body rest tokens slash inLine stops others ih =>
    by_cases here : i < before.length + (body.length + 1)
    · obtain ⟨body, rfl⟩ := List.head?_eq_some_iff.mp slash
      refine .comment ⟨before.length, reached, by simp, by simp, ?_⟩
      intro k low high
      refine ⟨fun line => ?_, fun token listed covers => ?_⟩
      · have short : k - before.length < ('/' :: '/' :: body).length := by
          simp only [List.length_cons] at here ⊢
          omega
        rw [List.getElem?_append_right low, ← List.cons_append, List.getElem?_append_left short] at line
        have among : '\n' ∈ '/' :: '/' :: body := List.mem_of_getElem? line
        have plain : ∀ c ∈ '/' :: '/' :: body, c ≠ '\n' :=
          List.forall_mem_cons.mpr ⟨by decide, inLine⟩
        exact plain _ among rfl
      · rcases List.mem_append.mp listed with old | new
        · have := ends token old
          have := covers.2
          omega
        · have := (others.ordered.1 token new).1
          have := covers.1
          simp only [Position.advance] at *
          omega
    · rw [← List.cons_append, ← List.append_assoc] at inside ⊢
      exact ih (by simp [Position.advance, start])
        (fun token listed => (ends token listed).trans (by simp [Position.advance])) counts
        (by simp; omega) inside free
  | @lexeme place breakable first body rest found tokens opens kind length same others ih =>
    have away : ¬ i < before.length + (body.length + 1) := by
      intro here
      refine free _ (List.mem_append_right _ List.mem_cons_self) ?_
      simp only [Span.Covers, Position.span]
      omega
    rw [List.append_cons earlier] at free ⊢
    rw [← List.cons_append, ← List.append_assoc before] at inside ⊢
    refine ih (by simp [Position.advance, start, length]) ?_ (by simpa [breaksAfter] using kind.1)
      (by simp; omega) inside free
    rw [List.forall_mem_append, List.forall_mem_singleton]
    refine ⟨fun token listed => (ends token listed).trans (by simp [Position.advance]), ?_⟩
    simp [Position.advance, Position.span]

/-- No newline token follows another one, nor comes first where newlines do not count. -/
theorem Lexed.breaks (h : Lexed place breakable text tokens) :
    (tokens.IsChain fun token next => ¬ (token.kind = .newline ∧ next.kind = .newline)) ∧
      (breakable = false → ∀ token ∈ tokens.head?, token.kind ≠ .newline) := by
  induction h with
  | nil => simp
  | line others ih =>
    refine ⟨List.isChain_cons.mpr ⟨fun next first both => ?_, ih.1⟩, by simp⟩
    exact ih.2 rfl next first both.2
  | emptyLine others ih => exact ⟨ih.1, fun _ => ih.2 rfl⟩
  | blank space others ih => exact ih
  | comment slash inside stops others ih => exact ih
  | lexeme opens kind length same others ih =>
    refine ⟨List.isChain_cons.mpr ⟨fun next first both => kind.1 both.1, ih.1⟩, fun _ => ?_⟩
    simpa using kind.1

/-- The end of the input is where the text ends. -/
theorem Lexed.stops (h : Lexed place breakable text tokens) :
    ∀ token ∈ tokens, token.kind = .endOfInput → token.span.start = place.offset + text.length := by
  induction h with
  | nil => simp [Position.span]
  | @line place rest tokens others ih =>
    refine List.forall_mem_cons.mpr ⟨fun ends => (by cases ends), fun token listed ends => ?_⟩
    have := ih token listed ends
    simp only [Position.nextLine, List.length_cons] at this ⊢
    omega
  | @emptyLine place rest tokens others ih =>
    intro token listed ends
    have := ih token listed ends
    simp only [Position.nextLine, List.length_cons] at this ⊢
    omega
  | @blank place breakable c rest tokens space others ih =>
    intro token listed ends
    have := ih token listed ends
    simp only [Position.advance, List.length_cons] at this ⊢
    omega
  | @comment place breakable body rest tokens slash inside stops others ih =>
    intro token listed ends
    have := ih token listed ends
    simp only [Position.advance, List.length_cons, List.length_append] at this ⊢
    omega
  | @lexeme place breakable first body rest found tokens opens kind length same others ih =>
    refine List.forall_mem_cons.mpr ⟨fun ends => absurd ends kind.2, fun token listed ends => ?_⟩
    have := ih token listed ends
    simp only [Position.advance, List.length_cons, List.length_append] at this ⊢
    omega

end Places

end Lexer

open Lexer

/-- Lexing loses nothing and puts every token in its place. -/
theorem tokenize_placed {source : String} {tokens : List Token} (h : tokenize source = .ok tokens) :
    Placed source.toList tokens := by
  have lexed : Lexed .start false source.toList tokens := lexed_of_tokenize h
  obtain ⟨front, stop, rfl, ends, solid⟩ := lexed.ending
  have last := lexed.stops stop (by simp) ends
  have stands : ∀ token ∈ front ++ [stop], Stands ([] ++ source.toList) token := lexed.stands rfl
  have between : ∀ i, [].length ≤ i → i < ([] ++ source.toList).length →
      (∀ token ∈ [] ++ (front ++ [stop]), ¬ token.span.Covers i) →
        Between ([] ++ source.toList) ([] ++ (front ++ [stop])) i :=
    fun i reached inside free => lexed.between rfl (by simp) rfl reached inside free
  exact {
    ordered := lexed.ordered.2
    between := fun i inside free => between i (Nat.zero_le i) inside free
    ending := ⟨front, stop, rfl, ends, by simpa [Position.start] using last, solid⟩
    breaks := lexed.breaks.1
    first := lexed.breaks.2 rfl
    stands := stands }

/-- Two lines with an empty one between them; the second one holds an escape and ends in a
comment. -/
theorem tokenize_placed_of_lines :
    tokenize "a\n\n\"b\\t\" // c" = .ok [⟨.identifier, "a", ⟨1, 1, 2, 0, 1⟩⟩,
      ⟨.newline, "\\n", ⟨1, 2, 3, 1, 2⟩⟩, ⟨.string, "b\t", ⟨3, 1, 6, 3, 8⟩⟩,
      ⟨.endOfInput, "", ⟨3, 11, 11, 13, 13⟩⟩] ∧
    Placed "a\n\n\"b\\t\" // c".toList [⟨.identifier, "a", ⟨1, 1, 2, 0, 1⟩⟩,
      ⟨.newline, "\\n", ⟨1, 2, 3, 1, 2⟩⟩, ⟨.string, "b\t", ⟨3, 1, 6, 3, 8⟩⟩,
      ⟨.endOfInput, "", ⟨3, 11, 11, 13, 13⟩⟩] := by
  refine ⟨?lexed, tokenize_placed ?lexed⟩
  case lexed => decide +kernel

end ScriptShell
