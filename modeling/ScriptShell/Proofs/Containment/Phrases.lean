import ScriptShell.Syntax.Parser.Unit
import ScriptShell.Proofs.Lowering.Success
import ScriptShell.Proofs.Containment.Statements
import Mathlib.Data.List.DropRight
import Mathlib.Data.List.TakeWhile

/-!
What the parser reads. Whatever a reading takes in is balanced, and outside all parentheses and
braces it passes no semicolon, and a newline only where the token behind it opens no statement and
the tokens in front of it ask for more, or `else` or `.` comes next. Expressions, types and members
moreover end in a token that asks for nothing more.

The functions for expressions call one another. Their facts are proved together, by induction on
the measure that the functions themselves decrease.
-/
namespace ScriptShell

open Fragment (resumes resumes_append)

/-- A condition ends the tokens: the word `if` stands in front of the parenthesis that the last one
closes. -/
def ClosesTest (tokens : List Token) : Prop :=
  ∃ front word opening test closing, tokens = front ++ word :: opening :: (test ++ [closing]) ∧
    word.kind = .keyword .kwIf ∧ opening.kind = .punct .openParen ∧
    closing.kind = .punct .closeParen ∧ Balanced test

/-- Behind the tokens a statement goes on, over newlines if need be: in front of the newlines at
their end stands a token that asks for more, or a condition. -/
def Asks (tokens : List Token) : Prop :=
  ∃ own lines, tokens = own ++ lines ∧ (∀ line ∈ lines, line.kind = .newline) ∧
    ((∃ last ∈ own.getLast?, last.kind.continues = true) ∨ ClosesTest own)

namespace Asks

theorem of_last {tokens : List Token} {last : Token} (mem : last ∈ tokens.getLast?)
    (asks : last.kind.continues = true) : Asks tokens :=
  ⟨tokens, [], by simp, by simp, .inl ⟨last, mem, asks⟩⟩

theorem of_test {tokens : List Token} (h : ClosesTest tokens) : Asks tokens :=
  ⟨tokens, [], by simp, by simp, .inr h⟩

theorem lines {tokens more : List Token} (h : Asks tokens)
    (newlines : ∀ line ∈ more, line.kind = .newline) : Asks (tokens ++ more) := by
  obtain ⟨own, lines, rfl, others, asks⟩ := h
  refine ⟨own, lines ++ more, by simp, ?_, asks⟩
  intro line mem
  exact (List.mem_append.mp mem).elim (others line) (newlines line)

theorem behind {tokens : List Token} (front : List Token) (h : Asks tokens) :
    Asks (front ++ tokens) := by
  obtain ⟨own, lines, rfl, newlines, asks⟩ := h
  refine ⟨front ++ own, lines, by simp, newlines, ?_⟩
  rcases asks with ⟨last, mem, asks⟩ | ⟨others, word, opening, test, closing, rfl, test'⟩
  · have some : own ≠ [] := by rintro rfl; cases mem
    exact .inl ⟨last, by rwa [List.getLast?_append_of_ne_nil _ some], asks⟩
  · exact .inr ⟨front ++ others, word, opening, test, closing, by simp, test'⟩

end Asks

/-- Every separator outside the brackets of a token list is a newline that a statement goes on
over: the token behind it opens no statement, and the tokens in front of it ask for more, or `else`
or `.` comes next. -/
def Unbroken (tokens : List Token) : Prop :=
  ∀ front line back, tokens = front ++ line :: back → line.kind.isSeparator = true →
    Balanced front → line.kind = .newline ∧
      (∃ next ∈ back.head?, next.kind.opensStatement = false) ∧ (Asks front ∨ resumes back = true)

namespace Unbroken

theorem nil : Unbroken [] := by
  intro front line back split
  simp at split

theorem plain {token : Token} (h : token.kind.isSeparator = false) : Unbroken [token] := by
  intro front line back split separates
  cases front with
  | nil =>
    obtain ⟨rfl, -⟩ : token = line ∧ [] = back := by simpa using split
    rw [h] at separates
    cases separates
  | cons first rest => simp at split

/-- What resumes a statement does so whatever follows. -/
theorem resumes_front {front : List Token} (back : List Token) (h : resumes front = true) :
    resumes (front ++ back) = true := by
  rw [resumes_append, if_neg, h]
  intro newlines
  have none : front.dropWhile (·.kind = .newline) = [] := by
    simpa [List.dropWhile_eq_nil_iff] using newlines
  rw [resumes, none] at h
  cases h

/-- Tokens behind unbroken ones; what stands behind them is known in their context. -/
theorem append_of {first second : List Token} (h : Unbroken first)
    (k : ∀ more line back, second = more ++ line :: back → line.kind.isSeparator = true →
      Balanced (first ++ more) → line.kind = .newline ∧
        (∃ next ∈ back.head?, next.kind.opensStatement = false) ∧
        (Asks (first ++ more) ∨ resumes back = true)) : Unbroken (first ++ second) := by
  intro front line back split separates before
  rcases List.append_eq_append_iff.mp split with ⟨more, rfl, tail⟩ | ⟨more, rfl, tail⟩
  · exact k more line back tail separates before
  · cases more with
    | nil => simpa using k [] line back (by simpa using tail.symm) separates (by simpa using before)
    | cons other others =>
      obtain ⟨rfl, rfl⟩ : line = other ∧ back = others ++ second := by simpa using tail
      obtain ⟨newline, ⟨next, mem, opens⟩, goes⟩ := h front line others rfl separates before
      refine ⟨newline, ⟨next, ?_, opens⟩, goes.imp_right (resumes_front second)⟩
      rw [List.head?_append, mem]
      rfl

theorem append {first second : List Token} (h : Unbroken first) (k : Unbroken second)
    (balanced : Balanced first) : Unbroken (first ++ second) := by
  refine h.append_of fun more line back split separates before => ?_
  obtain ⟨newline, next, goes⟩ := k more line back split separates (balanced.back before)
  exact ⟨newline, next, goes.imp_left (Asks.behind first)⟩

/-- A statement goes on over newlines. -/
theorem across {first lines second : List Token} (h : Unbroken first) (k : Unbroken second)
    (balanced : Balanced first) (newlines : ∀ line ∈ lines, line.kind = .newline)
    (head : ∃ next ∈ second.head?, next.kind.opensStatement = false)
    (goes : Asks first ∨ resumes second = true) : Unbroken (first ++ (lines ++ second)) := by
  refine h.append_of fun more line back split separates before => ?_
  rcases List.append_eq_append_iff.mp split with ⟨rest, rfl, tail⟩ | ⟨rest, rfl, tail⟩
  · have own : Balanced rest := by
      have after := balanced.back before
      exact (Balanced.newlines newlines).back after
    obtain ⟨newline, next, asks⟩ := k rest line back tail separates own
    exact ⟨newline, next, asks.imp_left fun asks => by simpa using asks.behind (first ++ lines)⟩
  · cases rest with
    | nil =>
      obtain ⟨newline, next, asks⟩ := k [] line back (by simpa using tail.symm) separates .nil
      exact ⟨newline, next, asks.imp_left fun asks => by simpa using asks.behind (first ++ more)⟩
    | cons other rest =>
      obtain ⟨rfl, rfl⟩ : line = other ∧ back = rest ++ second := by simpa using tail
      have others : ∀ line ∈ rest, line.kind = .newline := fun line mem => newlines line (by simp [mem])
      refine ⟨newlines line (by simp), ?_, goes.imp (·.lines fun line mem => newlines line (by simp [mem])) ?_⟩
      · cases rest with
        | nil => exact head
        | cons next rest => exact ⟨next, rfl, by rw [others next (by simp)]; rfl⟩
      · intro resumes
        rwa [resumes_append, if_pos (by simpa using others)]

/-- Inside brackets separators do not count. -/
theorem group {opening closing : Token} {inner : List Token} (h : Balanced inner)
    (opens : opening.kind.isOpener = true) (closes : closing.kind.isSeparator = false) :
    Unbroken (opening :: (inner ++ [closing])) := by
  intro front line back split separates before
  cases front with
  | nil =>
    obtain ⟨rfl, -⟩ : opening = line ∧ inner ++ [closing] = back := by simpa using split
    cases kind : opening.kind with
    | punct mark => cases mark <;> simp_all [TokenKind.isOpener, Punct.isOpener, TokenKind.isSeparator]
    | _ => simp_all [TokenKind.isOpener]
  | cons token front =>
    obtain ⟨rfl, tail⟩ : opening = token ∧ inner ++ [closing] = front ++ line :: back := by
      simpa using split
    rcases List.append_eq_append_iff.mp tail with ⟨more, rfl, last⟩ | ⟨more, rfl, -⟩
    · cases more with
      | nil =>
        obtain ⟨rfl, -⟩ : closing = line ∧ [] = back := by simpa using last
        rw [closes] at separates
        cases separates
      | cons other others => simp at last
    · exact absurd before (h.group_front opens rfl)

end Unbroken

/-- Kinds with which a statement may end. -/
def TokenKind.closesStatement (kind : TokenKind) : Bool := !kind.continues && !kind.isSeparator

/-- Kinds with which an expression starts. -/
def TokenKind.opensExpression (kind : TokenKind) : Bool :=
  match kind with
  | .identifier | .number | .string => true
  | .keyword word => word = .kwIf || word = .kwNew || word = .kwThis
  | .punct mark =>
    mark = .openParen || mark = .openBrace || (UnaryOp.ofToken? (.punct mark)).isSome
  | _ => false

theorem TokenKind.opensExpression_not_statement {kind : TokenKind}
    (h : kind.opensExpression = true) : kind.opensStatement = false := by
  cases kind with
  | keyword word => cases word <;> first | rfl | cases h
  | _ => rfl

namespace Cursor

variable {c d e : Cursor} {P Q : TokenKind → Prop}

/-- Balanced tokens lie between two cursors. -/
def Skims (c d : Cursor) : Prop := ∃ read, c.rest = read ++ d.rest ∧ Balanced read

/-- What lies between two cursors: balanced tokens, which outside parentheses go on over newlines
only where a statement does. The last of them, if there is one, has a kind in `P`. -/
structure Took (P : TokenKind → Prop) (c d : Cursor) (read : List Token) : Prop where
  rest : c.rest = read ++ d.rest
  depth : d.depth = c.depth
  balanced : Balanced read
  unbroken : c.depth = 0 → Unbroken read
  last : ∀ last ∈ read.getLast?, P last.kind

/-- Reading leads from one cursor to another. -/
def Reads (P : TokenKind → Prop) (c d : Cursor) : Prop := ∃ read, Took P c d read

/-- Reading that may stop anywhere. -/
abbrev Passes : Cursor → Cursor → Prop := Reads fun _ => True

/-- Reading that stops where a statement may end. -/
abbrev Completes : Cursor → Cursor → Prop := Reads (·.closesStatement = true)

/-- Reading that stops, outside parentheses, where a statement goes on over newlines. -/
def Demands (c d : Cursor) : Prop :=
  ∃ read, Took (fun _ => True) c d read ∧ (c.depth = 0 → Asks read)

theorem Skims.le (h : c.Skims d) : d.left ≤ c.left := by
  obtain ⟨read, split, -⟩ := h
  rw [left, left, split]
  simp

theorem Reads.skims (h : Reads P c d) : c.Skims d := by
  obtain ⟨read, took⟩ := h
  exact ⟨read, took.rest, took.balanced⟩

theorem Skims.refl (c : Cursor) : c.Skims c := ⟨[], rfl, .nil⟩

theorem Skims.trans (h : c.Skims d) (k : d.Skims e) : c.Skims e := by
  obtain ⟨first, split, balanced⟩ := h
  obtain ⟨second, more, other⟩ := k
  exact ⟨first ++ second, by rw [split, more, List.append_assoc], balanced.append other⟩

theorem Reads.refl (c : Cursor) : Reads P c c :=
  ⟨[], rfl, rfl, .nil, fun _ => .nil, by simp⟩

theorem Took.append {first second : List Token} (h : Took P c d first) (k : Took Q d e second)
    (some : second ≠ []) : Took Q c e (first ++ second) where
  rest := by rw [h.rest, k.rest, List.append_assoc]
  depth := k.depth.trans h.depth
  balanced := h.balanced.append k.balanced
  unbroken outside := (h.unbroken outside).append (k.unbroken (h.depth.trans outside)) h.balanced
  last last mem := by
    rw [List.getLast?_append_of_ne_nil _ some] at mem
    exact k.last last mem

/-- Where reading moves on, something was read. -/
theorem Took.ne_nil {read : List Token} (h : Took P c d read) (lt : d.left < c.left) :
    read ≠ [] := by
  rintro rfl
  rw [left, left, h.rest] at lt
  simp at lt

theorem Reads.then (h : Reads P c d) (k : Reads Q d e) (lt : e.left < d.left) :
    Reads Q c e := by
  obtain ⟨first, took⟩ := h
  obtain ⟨second, more⟩ := k
  exact ⟨first ++ second, took.append more (more.ne_nil lt)⟩

theorem Reads.trans (h : Reads P c d) (k : Reads P d e) : Reads P c e := by
  by_cases lt : e.left < d.left
  · exact h.then k lt
  · obtain ⟨first, took⟩ := h
    obtain ⟨second, more⟩ := k
    have nothing : second = [] := by
      rw [left, left, more.rest, List.length_append] at lt
      exact List.eq_nil_of_length_eq_zero (by omega)
    rw [nothing] at more
    exact ⟨first, by rw [took.rest, more.rest]; rfl, more.depth.trans took.depth, took.balanced,
      took.unbroken, took.last⟩

/-- The tokens that a step passes: newlines inside parentheses, and the token read. -/
theorem rest_next (some : c.kind ≠ .endOfInput) :
    ∃ lines, (∀ line ∈ lines, line.kind = .newline) ∧ (c.depth = 0 → lines = []) ∧
      c.rest = lines ++ c.current :: c.next.rest := by
  have seen : c.visible = c.current :: c.next.rest := by
    unfold kind at some
    unfold next current at *
    cases shown : c.visible with
    | nil => rw [shown] at some; exact absurd c.ends some
    | cons token rest => simp
  unfold visible at seen
  split at seen
  · next outside => exact ⟨[], by simp, fun _ => rfl, seen⟩
  · next inside =>
    refine ⟨c.rest.takeWhile (·.kind = .newline), ?_, fun outside => absurd outside inside, ?_⟩
    · intro line mem
      simpa using List.mem_takeWhile_imp mem
    · rw [← seen, List.takeWhile_append_dropWhile]

/-- A token that is no bracket is read. -/
theorem reads_next (some : c.kind ≠ .endOfInput) (solid : c.kind.isSeparator = false)
    (opens : c.kind.isOpener = false) (closes : c.kind.opener? = none) (own : P c.kind) :
    Reads P c c.next := by
  obtain ⟨lines, newlines, outside, split⟩ := rest_next some
  have plain : Balanced [c.current] := .plain opens closes
  refine ⟨lines ++ [c.current], by simpa using split, rfl,
    (Balanced.newlines newlines).append plain, ?_, ?_⟩
  · intro depth
    rw [outside depth]
    exact .plain solid
  · intro last mem
    obtain rfl : c.current = last := by simpa using mem
    exact own

/-- Outside parentheses the first token read is the one that the cursor sees. -/
theorem Took.head {read : List Token} (h : Took P c d read) (lt : d.left < c.left)
    (outside : c.depth = 0) : ∃ others, read = c.current :: others := by
  obtain ⟨first, others, rfl⟩ := List.exists_cons_of_ne_nil (h.ne_nil lt)
  refine ⟨others, ?_⟩
  rw [current, visible, if_pos outside, h.rest]
  rfl

/-- Something was read that asks for more. -/
theorem Reads.demands (h : Reads (·.continues = true) c d) (lt : d.left < c.left) :
    Demands c d := by
  obtain ⟨read, took⟩ := h
  have mem := List.getLast?_eq_some_getLast (took.ne_nil lt)
  exact ⟨read, { took with last := fun _ _ => trivial }, fun _ => .of_last mem (took.last _ mem)⟩

/-- Reading goes on over newlines. -/
theorem Took.across {first second : List Token} (h : Took P c d first)
    (k : Took Q d.skipNewlines e second) (lt : e.left < d.skipNewlines.left)
    (goes : c.depth = 0 → d.skipNewlines.kind.opensStatement = false ∧
      (Asks first ∨ d.skipNewlines.kind = .keyword .kwElse ∨ d.skipNewlines.kind = .punct .dot)) :
    Reads Q c e := by
  let lines := d.rest.takeWhile (·.kind = .newline)
  have newlines : ∀ line ∈ lines, line.kind = .newline := by
    intro line mem
    simpa using List.mem_takeWhile_imp mem
  have split : d.rest = lines ++ d.skipNewlines.rest := List.takeWhile_append_dropWhile.symm
  have some : second ≠ [] := k.ne_nil lt
  refine ⟨first ++ (lines ++ second), ?_, k.depth.trans h.depth,
    h.balanced.append ((Balanced.newlines newlines).append k.balanced), ?_, ?_⟩
  · rw [h.rest, split, k.rest]
    simp
  · intro outside
    obtain ⟨opens, goes⟩ := goes outside
    have inside : d.skipNewlines.depth = 0 := h.depth.trans outside
    obtain ⟨others, rfl⟩ := k.head lt inside
    refine (h.unbroken outside).across (k.unbroken inside) h.balanced newlines ⟨_, rfl, opens⟩
      (goes.imp_right fun word => ?_)
    have kinds : d.skipNewlines.current.kind = .keyword .kwElse ∨
        d.skipNewlines.current.kind = .punct .dot := word
    rcases kinds with kind | kind <;> simp [resumes, kind]
  · intro last mem
    rw [List.getLast?_append_of_ne_nil _ (by simp [some]), List.getLast?_append_of_ne_nil _ some]
      at mem
    exact k.last last mem

/-- The newlines in front of `else` and `.` are passed. -/
theorem Reads.resumed (h : Reads P c d) (k : Reads Q d.skipNewlines e)
    (lt : e.left < d.skipNewlines.left) (word : d.skipNewlines.kind = .keyword .kwElse ∨
      d.skipNewlines.kind = .punct .dot) : Reads Q c e := by
  obtain ⟨first, took⟩ := h
  obtain ⟨second, more⟩ := k
  refine took.across more lt fun _ => ⟨?_, .inr word⟩
  rcases word with kind | kind <;> rw [kind] <;> rfl

/-- A bracket, balanced tokens, and its counterpart. `i` is the place behind the bracket and `f`
the one in front of its counterpart, whatever their depths. -/
theorem took_group {i f : Cursor} {opening closing : Punct} (first : c.kind = .punct opening)
    (opens : opening.isOpener = true) (inside : i.rest = c.next.rest) (inner : i.Skims d)
    (outside : f.rest = d.rest) (last : f.kind = .punct closing)
    (plain : closing.isOpener = false) (closes : closing.opener? = some opening)
    (behind : e.rest = f.next.rest) (depth : e.depth = c.depth) :
    ∃ read, Took (·.closesStatement = true) c e read ∧ (c.depth = 0 →
      ∃ body, read = c.current :: (body ++ [f.current]) ∧ Balanced body) := by
  obtain ⟨lines, newlines, none, split⟩ := rest_next (c := c) (by simp [first])
  obtain ⟨more, others, -, tail⟩ := rest_next (c := f) (by simp [last])
  obtain ⟨read, body, balanced⟩ := inner
  have firstKind : c.current.kind = .punct opening := first
  have lastKind : f.current.kind = .punct closing := last
  have full : Balanced (read ++ more) := balanced.append (.newlines others)
  have group : Balanced (c.current :: ((read ++ more) ++ [f.current])) := by
    refine full.group ?_ ?_ ?_
    · rw [firstKind]; exact opens
    · rw [lastKind]; exact plain
    · rw [lastKind, firstKind, TokenKind.opener?, closes]; rfl
  refine ⟨lines ++ (c.current :: ((read ++ more) ++ [f.current])),
    ⟨?_, depth, (Balanced.newlines newlines).append group, ?_, ?_⟩, ?_⟩
  · rw [split, ← inside, body, ← outside, tail, behind]
    simp
  · intro depth
    rw [none depth]
    refine .group full (by rw [firstKind]; exact opens) ?_
    rw [lastKind]
    cases closing <;> first | rfl | cases closes
  · intro token mem
    obtain rfl : f.current = token := by
      simpa [List.getLast?_append, List.getLast?_cons] using mem
    rw [lastKind]
    cases closing <;> simp_all [Punct.opener?, TokenKind.closesStatement, TokenKind.continues,
      Punct.mayEnd, TokenKind.isSeparator]
  · intro depth
    rw [none depth]
    exact ⟨_, rfl, full⟩

theorem reads_group {i f : Cursor} {opening closing : Punct} (first : c.kind = .punct opening)
    (opens : opening.isOpener = true) (inside : i.rest = c.next.rest) (inner : i.Skims d)
    (outside : f.rest = d.rest) (last : f.kind = .punct closing)
    (plain : closing.isOpener = false) (closes : closing.opener? = some opening)
    (behind : e.rest = f.next.rest) (depth : e.depth = c.depth) : Completes c e := by
  obtain ⟨read, took, -⟩ :=
    took_group first opens inside inner outside last plain closes behind depth
  exact ⟨read, took⟩

theorem expect_ok {kind : TokenKind} {what : String} {known : kind ≠ .endOfInput}
    {p : Parsed Token c} (h : c.expect kind what known = .ok p) :
    c.kind = kind ∧ p.value = c.current ∧ p.cursor = c.next := by
  unfold expect at h
  split at h
  · next found => cases h; exact ⟨found, rfl, rfl⟩
  · cases h

theorem expectName_ok {what : String} {p : Parsed Token c} (h : c.expectName what = .ok p) :
    c.kind = .identifier ∧ p.value = c.current ∧ p.cursor = c.next :=
  expect_ok h

theorem expectMark_ok {mark : Punct} {what : String} {p : Parsed Token c}
    (h : c.expectMark mark what = .ok p) :
    c.kind = .punct mark ∧ p.value = c.current ∧ p.cursor = c.next :=
  expect_ok h

theorem expectWord_ok {word : Keyword} {what : String} {p : Parsed Token c}
    (h : c.expectWord word what = .ok p) :
    c.kind = .keyword word ∧ p.value = c.current ∧ p.cursor = c.next :=
  expect_ok h

theorem expectName_completes {what : String} {p : Parsed Token c}
    (h : c.expectName what = .ok p) : Completes c p.cursor := by
  obtain ⟨kind, -, cursor⟩ := expectName_ok h
  rw [cursor]
  apply reads_next <;> simp [kind] <;> rfl

theorem expectWord_passes {word : Keyword} {what : String} {p : Parsed Token c}
    (h : c.expectWord word what = .ok p) : Passes c p.cursor := by
  obtain ⟨kind, -, cursor⟩ := expectWord_ok h
  rw [cursor]
  apply reads_next <;> simp [kind] <;> rfl

/-- A mark that is no bracket and no separator is read. -/
theorem reads_mark {mark : Punct} (kind : c.kind = .punct mark) (plain : mark.isOpener = false)
    (closes : mark.opener? = none) (own : P (.punct mark))
    (solid : mark ≠ .semicolon := by decide) : Reads P c c.next := by
  apply reads_next
  · simp [kind]
  · simpa [kind, TokenKind.isSeparator] using solid
  · rw [kind]; exact plain
  · simp [kind, TokenKind.opener?, closes]
  · rw [kind]; exact own

theorem passes_mark {mark : Punct} (kind : c.kind = .punct mark) (plain : mark.isOpener = false)
    (closes : mark.opener? = none) (solid : mark ≠ .semicolon := by decide) : Passes c c.next :=
  reads_mark kind plain closes trivial solid

theorem expectMark_passes {mark : Punct} {what : String} {p : Parsed Token c}
    (h : c.expectMark mark what = .ok p) (plain : mark.isOpener = false)
    (closes : mark.opener? = none) (solid : mark ≠ .semicolon := by decide) :
    Passes c p.cursor := by
  obtain ⟨kind, -, cursor⟩ := expectMark_ok h
  rw [cursor]
  exact passes_mark kind plain closes solid

/-- Behind `=` a statement goes on. -/
theorem expectAssign_demands {what : String} {p : Parsed Token d}
    (h : Reads P c d) (k : d.expectMark .assign what = .ok p) : Demands c p.cursor := by
  obtain ⟨kind, -, cursor⟩ := expectMark_ok k
  have lt := p.follows.lt
  rw [cursor] at lt ⊢
  have own : Reads (·.continues = true) d d.next := reads_mark kind rfl rfl rfl
  obtain ⟨read, took⟩ := h
  have reach : d.left ≤ c.left := by
    rw [left, left, took.rest]
    simp
  exact (Reads.then ⟨read, took⟩ own lt).demands (Nat.lt_of_lt_of_le lt reach)

theorem skims_skipNewlines (c : Cursor) : c.Skims c.skipNewlines := by
  refine ⟨c.rest.takeWhile (·.kind = .newline), List.takeWhile_append_dropWhile.symm, ?_⟩
  apply Balanced.newlines
  intro line mem
  simpa using List.mem_takeWhile_imp mem

theorem skims_skipSeparators (c : Cursor) : c.Skims c.skipSeparators := by
  refine ⟨c.rest.takeWhile (·.kind.isSeparator), List.takeWhile_append_dropWhile.symm, ?_⟩
  apply Balanced.separators
  intro mark mem
  simpa using List.mem_takeWhile_imp mem

/-- An expression lies between two cursors. -/
structure Phrase (c d : Cursor) : Prop where
  opens : c.kind.opensExpression = true
  completes : Completes c d

/-- A literal, a name or `this` is one token. -/
theorem phrase_atom (h : c.kind = .number ∨ c.kind = .string ∨ c.kind = .identifier ∨
    c.kind = .keyword .kwThis) : c.Phrase c.next := by
  rcases h with kind | kind | kind | kind
  all_goals
    refine ⟨by rw [kind]; rfl, ?_⟩
    apply reads_next <;> simp [kind] <;> rfl

/-- What was read goes on with an expression behind newlines. -/
theorem Demands.line (h : Demands c d) (k : d.skipNewlines.Phrase e)
    (lt : e.left < d.skipNewlines.left) : Completes c e := by
  obtain ⟨first, took, asks⟩ := h
  obtain ⟨second, more⟩ := k.completes
  exact took.across more lt fun outside =>
    ⟨TokenKind.opensExpression_not_statement k.opens, .inl (asks outside)⟩

theorem kind_skipNewlines (c : Cursor) : c.skipNewlines.kind = c.kindPastNewlines := by
  unfold kind current visible kindPastNewlines skipNewlines
  split
  · rfl
  · rw [List.dropWhile_idempotent]

/-- Balanced tokens between parentheses; `i` is the place behind the first one. -/
theorem completes_parens {i : Cursor} {closes : String} {closing : Parsed Token d}
    (first : c.kind = .punct .openParen) (behind : i.rest = c.next.rest) (inner : i.Skims d)
    (last : d.expectMark .closeParen closes = .ok closing)
    (depth : closing.cursor.shallower.depth = c.depth) :
    Completes c closing.cursor.shallower := by
  obtain ⟨stop, -, after⟩ := expectMark_ok last
  refine reads_group first rfl behind inner rfl stop rfl rfl ?_ depth
  rw [after]
  rfl

theorem expectMark_deeper {mark : Punct} {what : String} {p : Parsed Token c}
    (h : c.expectMark mark what = .ok p) :
    c.kind = .punct mark ∧ p.cursor.deeper.rest = c.next.rest := by
  obtain ⟨kind, -, cursor⟩ := expectMark_ok h
  exact ⟨kind, by rw [cursor]; rfl⟩

/-- Behind a condition a statement goes on. -/
theorem demands_test {what opens closes : String} {keyword : Parsed Token c}
    {opening : Parsed Token keyword.cursor} {closing : Parsed Token d}
    (word : c.expectWord .kwIf what = .ok keyword)
    (first : keyword.cursor.expectMark .openParen opens = .ok opening)
    (inner : opening.cursor.deeper.Skims d) (last : d.expectMark .closeParen closes = .ok closing)
    (depth : closing.cursor.shallower.depth = c.depth) : Demands c closing.cursor.shallower := by
  obtain ⟨kind, -, behind⟩ := expectWord_ok word
  obtain ⟨start, after⟩ := expectMark_deeper first
  obtain ⟨stop, -, final⟩ := expectMark_ok last
  obtain ⟨front, took⟩ := expectWord_passes word
  have same : closing.cursor.shallower.depth = keyword.cursor.depth :=
    depth.trans took.depth.symm
  obtain ⟨read, more, group⟩ := took_group (f := d) (e := closing.cursor.shallower) start rfl after
    inner rfl stop rfl rfl (by rw [final]; rfl) same
  have some : read ≠ [] := more.ne_nil
    (Nat.lt_of_lt_of_le closing.follows.lt (inner.le.trans opening.follows.reaches.le))
  refine ⟨front ++ read, { took.append more some with last := fun _ _ => trivial }, fun outside => ?_⟩
  obtain ⟨lines, -, none, split⟩ := rest_next (c := c) (by simp [kind])
  have alone : front = [c.current] := by
    have whole := took.rest
    rw [split, none outside, behind] at whole
    exact List.append_cancel_right whole.symm
  obtain ⟨body, rfl, balanced⟩ := group (took.depth.trans outside)
  refine .of_test ⟨[], c.current, keyword.cursor.current, body, d.current, ?_, kind, start, stop,
    balanced⟩
  rw [alone]
  rfl

/-- Balanced tokens between braces, whose inside is read outside all parentheses. -/
theorem completes_braces {opens closes : String} {opening : Parsed Token c} {depth : Nat}
    {closing : Parsed Token (d.atDepth depth)}
    (first : c.expectMark .openBrace opens = .ok opening)
    (inner : (opening.cursor.atDepth 0).skipSeparators.Skims d)
    (last : (d.atDepth depth).expectMark .closeBrace closes = .ok closing)
    (same : closing.cursor.depth = c.depth) : Completes c closing.cursor := by
  obtain ⟨start, -, behind⟩ := expectMark_ok first
  obtain ⟨stop, -, after⟩ := expectMark_ok last
  refine reads_group start rfl ?_ ((skims_skipSeparators _).trans inner) (f := d.atDepth depth) rfl
    stop rfl rfl ?_ same
  · rw [behind]; rfl
  · rw [after]

end Cursor

namespace Parser

open Cursor

theorem pathRest_completes {what : String} {c : Cursor} {r : Extended (List String) c}
    (h : pathRest what c = .ok r) : Completes c r.cursor := by
  unfold pathRest at h
  split at h
  · next dot =>
    obtain ⟨segment, name, h⟩ := Except.bind_ok.mp h
    have := segment.follows.lt
    have := left_next_le c
    obtain ⟨rest, more, h⟩ := Except.bind_ok.mp h
    cases h
    have first : Completes c segment.cursor :=
      (passes_mark dot rfl rfl).then (expectName_completes name) segment.follows.lt
    exact first.trans (pathRest_completes more)
  · cases h
    exact .refl c
termination_by c.left
decreasing_by all_goals omega

theorem typeRef_completes {c : Cursor} {p : Parsed TypeRef c} (h : typeRef c = .ok p) :
    Completes c p.cursor := by
  unfold typeRef at h
  obtain ⟨first, name, h⟩ := Except.bind_ok.mp h
  obtain ⟨rest, more, h⟩ := Except.bind_ok.mp h
  cases h
  exact (expectName_completes name).trans (pathRest_completes more)

theorem paramList_completes {c : Cursor} {p : Parsed (List ParamDecl) c}
    (h : paramList c = .ok p) : Completes c p.cursor := by
  unfold paramList at h
  obtain ⟨name, first, h⟩ := Except.bind_ok.mp h
  obtain ⟨colon, mark, h⟩ := Except.bind_ok.mp h
  obtain ⟨type, written, h⟩ := Except.bind_ok.mp h
  have own : Completes c type.cursor :=
    ((expectName_completes first).then (expectMark_passes mark rfl rfl) colon.follows.lt).then
      (typeRef_completes written) type.follows.lt
  simp only at h
  split at h
  · next comma =>
    have := name.follows.lt
    have := colon.follows.lt
    have := type.follows.lt
    have := left_next_le type.cursor
    obtain ⟨rest, more, h⟩ := Except.bind_ok.mp h
    cases h
    exact own.trans ((passes_mark comma rfl rfl).then (paramList_completes more) rest.follows.lt)
  · cases h
    exact own
termination_by c.left
decreasing_by all_goals omega

theorem params_completes {c : Cursor} {p : Parsed (List ParamDecl) c} (h : params c = .ok p) :
    Completes c p.cursor := by
  have depth := p.follows.reaches.depth
  unfold params at h
  obtain ⟨opening, first, h⟩ := Except.bind_ok.mp h
  obtain ⟨start, behind⟩ := expectMark_deeper first
  split at h
  · obtain ⟨closing, last, h⟩ := Except.bind_ok.mp h
    cases h
    exact completes_parens start behind (.refl _) last depth
  · obtain ⟨list, inner, h⟩ := Except.bind_ok.mp h
    obtain ⟨closing, last, h⟩ := Except.bind_ok.mp h
    cases h
    exact completes_parens start behind (paramList_completes inner).skims last depth

theorem ascription_completes {c : Cursor} {r : Extended (Option TypeRef) c}
    (h : ascription c = .ok r) : Completes c r.cursor := by
  unfold ascription at h
  split at h
  · next colon =>
    obtain ⟨type, written, h⟩ := Except.bind_ok.mp h
    cases h
    exact (passes_mark colon rfl rfl).then (typeRef_completes written) type.follows.lt
  · cases h
    exact .refl c

theorem targetRest_completes {target : Expr} {c : Cursor} {r : Extended Expr c}
    (h : targetRest target c = .ok r) : Completes c r.cursor := by
  unfold targetRest at h
  split at h
  · next dot =>
    obtain ⟨segment, name, h⟩ := Except.bind_ok.mp h
    have := segment.follows.lt
    have := left_next_le c
    obtain ⟨rest, more, h⟩ := Except.bind_ok.mp h
    cases h
    have first : Completes c segment.cursor :=
      (passes_mark dot rfl rfl).then (expectName_completes name) segment.follows.lt
    exact first.trans (targetRest_completes more)
  · cases h
    exact .refl c
termination_by c.left
decreasing_by all_goals omega

/-- Behind an operator a statement goes on. -/
theorem binaryOp_demands {c : Cursor} {op : BinaryOp} (h : BinaryOp.ofToken? c.kind = some op) :
    Demands c c.next := by
  have plain : ∃ mark, c.kind = .punct mark ∧ mark.isOpener = false ∧ mark.opener? = none ∧
      mark.mayEnd = false ∧ mark ≠ .semicolon := by
    unfold BinaryOp.ofToken? at h
    split at h
    all_goals first | exact ⟨_, ‹_›, rfl, rfl, rfl, by decide⟩ | cases h
  obtain ⟨mark, kind, opens, closes, asks, solid⟩ := plain
  have read : Reads (·.continues = true) c c.next :=
    reads_mark kind opens closes (by simpa [TokenKind.continues] using asks) solid
  exact read.demands (follows_next (by simp [kind])).lt

theorem unaryOp_passes {c : Cursor} {op : UnaryOp} (h : UnaryOp.ofToken? c.kind = some op) :
    Passes c c.next ∧ c.kind.opensExpression = true := by
  unfold UnaryOp.ofToken? at h
  split at h
  · next minus => exact ⟨passes_mark minus rfl rfl, by rw [minus]; rfl⟩
  · next not => exact ⟨passes_mark not rfl rfl, by rw [not]; rfl⟩
  · cases h

mutual

theorem expr_phrase {c : Cursor} {p : Parsed Expr c} (h : expr c = .ok p) :
    c.Phrase p.cursor := by
  rw [expr_eq] at h
  split at h
  · exact condition_phrase h
  · exact binary_phrase h
termination_by 32 * c.left + 20
decreasing_by all_goals omega

theorem condition_phrase {c : Cursor} {p : Parsed Expr c} (h : condition c = .ok p) :
    c.Phrase p.cursor := by
  unfold condition at h
  obtain ⟨keyword, word, h⟩ := Except.bind_ok.mp h
  obtain ⟨opening, first, h⟩ := Except.bind_ok.mp h
  have : opening.cursor.deeper.left < c.left := (keyword.follows.then opening.follows).lt
  obtain ⟨start, behind⟩ := expectMark_deeper first
  obtain ⟨test, tested, h⟩ := Except.bind_ok.mp h
  obtain ⟨closing, last, h⟩ := Except.bind_ok.mp h
  have parens := opening.follows.closed (test.follows.then closing.follows)
  have inner :=
    (keyword.follows.then parens).trans closing.cursor.shallower.reaches_skipNewlines
  have := inner.lt
  obtain ⟨yes, answered, h⟩ := Except.bind_ok.mp h
  have head : Demands c closing.cursor.shallower :=
    demands_test word first (expr_phrase tested).completes.skims last
      (keyword.follows.then parens).reaches.depth
  have body : Completes c yes.cursor := head.line (expr_phrase answered) yes.follows.lt
  refine ⟨by rw [(expectWord_ok word).1]; rfl, ?_⟩
  simp only at h
  split at h
  · next marker =>
    have kind : yes.cursor.skipNewlines.kind = .keyword .kwElse :=
      (kind_skipNewlines yes.cursor).trans marker
    have read : Reads (·.continues = true) yes.cursor.skipNewlines yes.cursor.skipNewlines.next := by
      apply reads_next <;> simp [kind] <;> rfl
    have behind := follows_next (c := yes.cursor.skipNewlines) (by simp [kind])
    have before : Reads (·.continues = true) c yes.cursor.skipNewlines.next :=
      body.resumed read behind.lt (.inl kind)
    have := yes.follows.lt
    have := left_skipNewlines_le yes.cursor
    have := behind.lt
    have := left_skipNewlines_le yes.cursor.skipNewlines.next
    obtain ⟨no, other, h⟩ := Except.bind_ok.mp h
    cases h
    exact (before.demands (by omega)).line (expr_phrase other) no.follows.lt
  · cases h
    exact body
termination_by 32 * c.left
decreasing_by all_goals omega

theorem binary_phrase {loose : Fin 7} {c : Cursor} {p : Parsed Expr c}
    (h : binary loose c = .ok p) : c.Phrase p.cursor := by
  unfold binary at h
  split at h
  · exact unary_phrase h
  · obtain ⟨left, first, h⟩ := Except.bind_ok.mp h
    have := left.follows.lt
    obtain ⟨whole, more, h⟩ := Except.bind_ok.mp h
    cases h
    have operand := binary_phrase first
    exact ⟨operand.opens, operand.completes.trans (binaryRest_completes more)⟩
termination_by 32 * c.left + 4 + loose.val
decreasing_by all_goals subst_vars; dsimp only; omega

theorem binaryRest_completes {tighter : Fin 6} {left : Expr} {c : Cursor} {r : Extended Expr c}
    (h : binaryRest tighter left c = .ok r) : Completes c r.cursor := by
  unfold binaryRest at h
  split at h
  · cases h
    exact .refl c
  · next op found =>
    split at h
    · have mark := binaryOp_demands found
      have behind := follows_next (c := c) (by intro stop; simp [stop, BinaryOp.ofToken?] at found)
      have := behind.lt
      have := left_skipNewlines_le c.next
      obtain ⟨right, operand, h⟩ := Except.bind_ok.mp h
      have := right.follows.lt
      obtain ⟨whole, more, h⟩ := Except.bind_ok.mp h
      cases h
      have phrase : c.next.skipNewlines.Phrase right.cursor := by
        split at operand
        · exact condition_phrase operand
        · exact binary_phrase operand
      exact (mark.line phrase right.follows.lt).trans (binaryRest_completes more)
    · cases h
      exact .refl c
termination_by 32 * c.left
decreasing_by all_goals omega

theorem unary_phrase {c : Cursor} {p : Parsed Expr c} (h : unary c = .ok p) :
    c.Phrase p.cursor := by
  unfold unary at h
  split at h
  · next op found =>
    obtain ⟨mark, opens⟩ := unaryOp_passes found
    have behind := follows_next (c := c) (by intro stop; simp [stop, UnaryOp.ofToken?] at found)
    have := behind.lt
    obtain ⟨operand, rest, h⟩ := Except.bind_ok.mp h
    cases h
    exact ⟨opens, mark.then (unary_phrase rest).completes operand.follows.lt⟩
  · exact postfixed_phrase h
termination_by 32 * c.left + 3
decreasing_by all_goals omega

theorem postfixed_phrase {c : Cursor} {p : Parsed Expr c} (h : postfixed c = .ok p) :
    c.Phrase p.cursor := by
  unfold postfixed at h
  obtain ⟨operand, first, h⟩ := Except.bind_ok.mp h
  have := operand.follows.lt
  obtain ⟨whole, more, h⟩ := Except.bind_ok.mp h
  cases h
  have phrase := primary_phrase first
  exact ⟨phrase.opens, phrase.completes.trans (postfixRest_completes more)⟩
termination_by 32 * c.left + 2
decreasing_by all_goals omega

theorem postfixRest_completes {operand : Expr} {c : Cursor} {r : Extended Expr c}
    (h : postfixRest operand c = .ok r) : Completes c r.cursor := by
  unfold postfixRest at h
  split at h
  · next dot =>
    have kind : c.skipNewlines.kind = .punct .dot := (kind_skipNewlines c).trans dot
    have behind := follows_next (c := c.skipNewlines) (by simp [kind])
    have stays : Passes c c := .refl c
    have before : Passes c c.skipNewlines.next :=
      stays.resumed (passes_mark kind rfl rfl) behind.lt (.inr kind)
    obtain ⟨name, named, h⟩ := Except.bind_ok.mp h
    have := behind.lt
    have := left_skipNewlines_le c
    have := name.follows.lt
    obtain ⟨whole, more, h⟩ := Except.bind_ok.mp h
    cases h
    exact (before.then (expectName_completes named) name.follows.lt).trans
      (postfixRest_completes more)
  · split at h
    · obtain ⟨args, list, h⟩ := Except.bind_ok.mp h
      have := args.follows.lt
      obtain ⟨whole, more, h⟩ := Except.bind_ok.mp h
      cases h
      exact (arguments_completes list).trans (postfixRest_completes more)
    · cases h
      exact .refl c
termination_by 32 * c.left + 1
decreasing_by all_goals omega

theorem primary_phrase {c : Cursor} {p : Parsed Expr c} (h : primary c = .ok p) :
    c.Phrase p.cursor := by
  have depth := p.follows.reaches.depth
  unfold primary at h
  split at h
  · next kind => cases h; exact phrase_atom (.inl kind)
  · next kind => cases h; exact phrase_atom (.inr (.inl kind))
  · next kind => cases h; exact phrase_atom (.inr (.inr (.inl kind)))
  · next kind => cases h; exact phrase_atom (.inr (.inr (.inr kind)))
  · next kind =>
    refine ⟨by rw [kind]; rfl, ?_⟩
    have : c.next.deeper.left < c.left := (follows_next (c := c) (by simp [kind])).lt
    simp only at h
    split at h
    · obtain ⟨closing, last, h⟩ := Except.bind_ok.mp h
      cases h
      exact completes_parens (i := c.next.deeper) kind rfl (.refl _) last depth
    · obtain ⟨inner, own, h⟩ := Except.bind_ok.mp h
      obtain ⟨closing, last, h⟩ := Except.bind_ok.mp h
      cases h
      exact completes_parens kind rfl (expr_phrase own).completes.skims last depth
  · exact block_phrase h
  · exact construction_phrase h
  · exact condition_phrase h
  · cases h
  · cases h
termination_by 32 * c.left + 1
decreasing_by all_goals omega

theorem block_phrase {c : Cursor} {p : Parsed Expr c} (h : block c = .ok p) :
    c.Phrase p.cursor := by
  have depth := p.follows.reaches.depth
  unfold block at h
  obtain ⟨opening, first, h⟩ := Except.bind_ok.mp h
  have := opening.follows.lt
  have : (opening.cursor.atDepth 0).skipSeparators.left ≤ opening.cursor.left :=
    left_skipSeparators_le _
  obtain ⟨body, inner, h⟩ := Except.bind_ok.mp h
  obtain ⟨closing, last, h⟩ := Except.bind_ok.mp h
  cases h
  exact ⟨by rw [(expectMark_ok first).1]; rfl,
    completes_braces first (statements_skims inner) last depth⟩
termination_by 32 * c.left
decreasing_by all_goals omega

theorem statements_skims {c : Cursor} {r : Extended (List Stmt) c}
    (h : statements c = .ok r) : c.Skims r.cursor := by
  unfold statements at h
  split at h
  · cases h
    exact .refl c
  · split at h
    · cases h
    · obtain ⟨first, own, h⟩ := Except.bind_ok.mp h
      have skims := statement_skims own
      split at h
      · cases h
        exact skims
      · split at h
        · have := first.follows.lt
          have := left_skipSeparators_le first.cursor
          obtain ⟨rest, more, h⟩ := Except.bind_ok.mp h
          cases h
          exact (skims.trans (skims_skipSeparators _)).trans (statements_skims more)
        · cases h
termination_by 32 * c.left + 22
decreasing_by all_goals omega

theorem statement_skims {c : Cursor} {p : Parsed Stmt c} (h : statement c = .ok p) :
    c.Skims p.cursor := by
  unfold statement at h
  split at h
  · obtain ⟨val, own, h⟩ := Except.bind_ok.mp h
    cases h
    exact (valBinding_completes own).skims
  all_goals first | cases h | skip
  obtain ⟨value, own, h⟩ := Except.bind_ok.mp h
  cases h
  exact (expr_phrase own).completes.skims
termination_by 32 * c.left + 21
decreasing_by all_goals omega

theorem valBinding_completes {c : Cursor} {p : Parsed ValBinding c} (h : valBinding c = .ok p) :
    Completes c p.cursor := by
  unfold valBinding at h
  obtain ⟨keyword, word, h⟩ := Except.bind_ok.mp h
  obtain ⟨name, named, h⟩ := Except.bind_ok.mp h
  obtain ⟨type, ascribed, h⟩ := Except.bind_ok.mp h
  obtain ⟨assign, mark, h⟩ := Except.bind_ok.mp h
  have head := ((keyword.follows.then name.follows).trans type.reaches).then assign.follows
  have := (head.trans assign.cursor.reaches_skipNewlines).lt
  obtain ⟨init, value, h⟩ := Except.bind_ok.mp h
  cases h
  have front : Completes c type.cursor :=
    ((expectWord_passes word).then (expectName_completes named) name.follows.lt).trans
      (ascription_completes ascribed)
  exact (expectAssign_demands front mark).line (expr_phrase value) init.follows.lt
termination_by 32 * c.left
decreasing_by all_goals omega

theorem construction_phrase {c : Cursor} {p : Parsed Expr c} (h : construction c = .ok p) :
    c.Phrase p.cursor := by
  unfold construction at h
  obtain ⟨keyword, word, h⟩ := Except.bind_ok.mp h
  obtain ⟨first, named, h⟩ := Except.bind_ok.mp h
  obtain ⟨target, path, h⟩ := Except.bind_ok.mp h
  have head : Completes c target.cursor :=
    ((expectWord_passes word).then (expectName_completes named) first.follows.lt).trans
      (targetRest_completes path)
  refine ⟨by rw [(expectWord_ok word).1]; rfl, ?_⟩
  simp only at h
  split at h
  · have := ((keyword.follows.then first.follows).trans target.reaches).lt
    obtain ⟨args, list, h⟩ := Except.bind_ok.mp h
    cases h
    exact head.trans (arguments_completes list)
  · cases h
    exact head
termination_by 32 * c.left
decreasing_by all_goals omega

theorem arguments_completes {c : Cursor} {p : Parsed (List Expr) c} (h : arguments c = .ok p) :
    Completes c p.cursor := by
  have depth := p.follows.reaches.depth
  unfold arguments at h
  obtain ⟨opening, first, h⟩ := Except.bind_ok.mp h
  obtain ⟨start, behind⟩ := expectMark_deeper first
  have : opening.cursor.deeper.left < c.left := opening.follows.lt
  split at h
  · obtain ⟨closing, last, h⟩ := Except.bind_ok.mp h
    cases h
    exact completes_parens start behind (.refl _) last depth
  · obtain ⟨list, inner, h⟩ := Except.bind_ok.mp h
    obtain ⟨closing, last, h⟩ := Except.bind_ok.mp h
    cases h
    exact completes_parens start behind (argumentList_skims inner) last depth
termination_by 32 * c.left
decreasing_by all_goals omega

theorem argumentList_skims {c : Cursor} {p : Parsed (List Expr) c}
    (h : argumentList c = .ok p) : c.Skims p.cursor := by
  unfold argumentList at h
  obtain ⟨first, own, h⟩ := Except.bind_ok.mp h
  have skims := (expr_phrase own).completes.skims
  split at h
  · next comma =>
    have := first.follows.lt
    have := left_next_le first.cursor
    obtain ⟨rest, more, h⟩ := Except.bind_ok.mp h
    cases h
    exact (skims.trans (passes_mark comma rfl rfl).skims).trans (argumentList_skims more)
  · cases h
    exact skims
termination_by 32 * c.left + 21
decreasing_by all_goals omega

end

end Parser

end ScriptShell
