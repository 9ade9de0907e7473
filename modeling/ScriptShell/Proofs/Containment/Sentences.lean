import ScriptShell.Proofs.Containment.Bodies
import ScriptShell.Proofs.Containment.Pieces

/-!
Sentences. A text is a sentence when, with a line end behind it, it spells the tokens of one
statement and newlines behind them. The statements that a fragment splits into are sentences
again, the expressions among them as definitions of their result, and so are the imports of a
ledger. A container whose body is made of sentences is one itself.
-/
namespace ScriptShell

namespace Fragment

/-- Brackets are seen by the kinds of the tokens alone. -/
theorem brackets_kinds {tokens others : List Token} {opened left : List TokenKind}
    (same : tokens.map (·.kind) = others.map (·.kind)) (h : brackets opened tokens = .ok left) :
    brackets opened others = .ok left := by
  induction tokens generalizing others opened with
  | nil =>
    obtain rfl : others = [] := by simpa using same.symm
    exact h
  | cons token rest ih =>
    obtain ⟨other, more, rfl, kind, tail⟩ := List.map_eq_cons_iff.mp same.symm
    simp only at kind
    simp only [brackets, kind] at h ⊢
    split at h
    · next opens => rw [if_pos opens]; exact ih tail.symm h
    · next opens =>
      rw [if_neg opens]
      split at h
      · exact ih tail.symm h
      · split at h
        · next inner => simp only [inner, if_true]; exact ih tail.symm h
        · cases h
      · cases h

theorem resumes_kinds {tokens others : List Token}
    (same : tokens.map (·.kind) = others.map (·.kind)) : resumes tokens = resumes others := by
  induction tokens generalizing others with
  | nil =>
    obtain rfl : others = [] := by simpa using same.symm
    rfl
  | cons token rest ih =>
    obtain ⟨other, more, rfl, kind, tail⟩ := List.map_eq_cons_iff.mp same.symm
    simp only at kind
    by_cases newline : token.kind = .newline
    · simpa [resumes, kind, newline] using ih tail.symm
    · simp [resumes, kind, newline]

end Fragment

open Fragment

theorem kinds_of_glyphs {tokens others : List Token}
    (same : tokens.map Token.glyph = others.map Token.glyph) :
    tokens.map (·.kind) = others.map (·.kind) := by
  have kinds := congrArg (List.map Prod.fst) same
  simpa [Function.comp_def, Token.glyph] using kinds

theorem Balanced.glyphs {tokens others : List Token} (h : Balanced tokens)
    (same : tokens.map Token.glyph = others.map Token.glyph) : Balanced others :=
  brackets_kinds (kinds_of_glyphs same) h

/-- The places of its tokens do not matter for a statement. -/
theorem Statement.glyphs {tokens others : List Token} (h : Statement tokens)
    (same : tokens.map Token.glyph = others.map Token.glyph) : Statement others where
  solid := by
    intro token mem
    have among : token.glyph ∈ tokens.map Token.glyph := same ▸ List.mem_map_of_mem mem
    obtain ⟨other, found, alike⟩ := List.mem_map.mp among
    have kind : other.kind = token.kind := congrArg Prod.fst alike
    exact kind ▸ h.solid other found
  balanced := h.balanced.glyphs same
  opens := by
    obtain ⟨first, head, opens⟩ := h.opens
    obtain ⟨rest, rfl⟩ := List.head?_eq_some_iff.mp head
    obtain ⟨other, more, rfl, alike, -⟩ := List.map_eq_cons_iff.mp same.symm
    have kind : other.kind = first.kind := congrArg Prod.fst alike
    exact ⟨other, rfl, kind ▸ opens⟩
  bridged := by
    rintro front mark back rfl separates balanced
    rw [List.map_append, List.map_cons] at same
    obtain ⟨before, tail, rfl, fronts, tails⟩ := List.map_eq_append_iff.mp same
    obtain ⟨own, after, rfl, marks, backs⟩ := List.map_eq_cons_iff.mp tails
    have kind : own.kind = mark.kind := congrArg Prod.fst marks
    rcases h.bridged before own after rfl (kind ▸ separates) (balanced.glyphs fronts.symm) with
      ⟨last, mem, continues⟩ | more
    · left
      have ends : last.glyph ∈ (front.map Token.glyph).getLast? := by
        rw [← fronts, List.getLast?_map, Option.mem_def.mp mem]
        rfl
      rw [List.getLast?_map] at ends
      obtain ⟨other, found, alike⟩ := Option.map_eq_some_iff.mp ends
      have kind : other.kind = last.kind := congrArg Prod.fst alike
      exact ⟨other, found, kind ▸ continues⟩
    · exact .inr (resumes_kinds (kinds_of_glyphs backs) ▸ more)

theorem Lines.balanced {parts : List (List Token)} {body : List Token} (h : Lines parts body) :
    Balanced body := by
  induction h with
  | nil => exact .nil
  | cons statement some newlines others ih =>
    exact statement.balanced.append ((Balanced.newlines newlines).append ih)

theorem Lines.solid {parts : List (List Token)} {body : List Token} (h : Lines parts body) :
    ∀ token ∈ body, token.kind ≠ .endOfInput := by
  induction h with
  | nil => simp
  | cons statement some newlines others ih =>
    intro token mem
    rcases List.mem_append.mp mem with own | mem
    · exact statement.solid token own
    · rcases List.mem_append.mp mem with line | rest
      · simp [newlines token line]
      · exact ih token rest

open Lexer

/-- A text that, with a line end behind it, spells a statement and newlines behind it. -/
structure Sentence (text : List Char) (part : List Glyph) : Prop where
  statement : Statement (part.map Token.bare)
  spells : ∃ lines : List Glyph, lines ≠ [] ∧ (∀ line ∈ lines, line.1 = .newline) ∧
    Spells false (text ++ ['\n']) (part ++ lines) false

/-- Tokens without separators, on a line. -/
theorem Sentence.of_calm {text : List Char} {first : Glyph} {rest : List Glyph}
    (calm : Calm (first :: rest)) (opens : first.1.opensStatement = true)
    (ends : Ends false text (first :: rest)) : Sentence text (first :: rest) where
  statement := calm.statement opens
  spells := ⟨[(.newline, "\\n")], by simp, by simp, ends.line⟩

/-- Texts, each with a line end behind it. -/
def paragraph (texts : List (List Char)) : List Char := texts.flatMap (· ++ ['\n'])

theorem paragraph_cons (text : List Char) (texts : List (List Char)) :
    paragraph (text :: texts) = (text ++ ['\n']) ++ paragraph texts := rfl

theorem paragraph_append (texts others : List (List Char)) :
    paragraph (texts ++ others) = paragraph texts ++ paragraph others := List.flatMap_append

/-- The tokens are those of statements that are spelled in the given way. -/
def Prints (parts : List (List Glyph)) (body : List Glyph) : Prop :=
  ∀ tokens : List Token, tokens.map Token.glyph = body →
    ∃ own, Lines own tokens ∧ own.map (·.map Token.glyph) = parts

theorem paragraph_spells {texts : List (List Char)} {parts : List (List Glyph)}
    (h : List.Forall₂ Sentence texts parts) :
    ∃ body, Spells false (paragraph texts) body false ∧ Prints parts body := by
  induction h with
  | nil =>
    refine ⟨[], .nil false, fun tokens none => ⟨[], ?_, rfl⟩⟩
    obtain rfl : tokens = [] := by simpa using none
    exact .nil
  | @cons text part texts parts sentence others ih =>
    obtain ⟨body, spells, prints⟩ := ih
    obtain ⟨lines, some, newlines, own⟩ := sentence.spells
    refine ⟨(part ++ lines) ++ body, own.append spells, ?_⟩
    intro tokens same
    obtain ⟨head, tail, rfl, heads, tails⟩ := List.map_eq_append_iff.mp same
    obtain ⟨front, behind, rfl, fronts, backs⟩ := List.map_eq_append_iff.mp heads
    obtain ⟨more, read, printed⟩ := prints tail tails
    refine ⟨front :: more, ?_, by rw [List.map_cons, fronts, printed]⟩
    rw [List.append_assoc]
    refine .cons (sentence.statement.glyphs ?_) ?_ ?_ read
    · rw [Token.map_glyph_bare, fronts]
    · rintro rfl
      exact some backs.symm
    · intro line mem
      exact newlines line.glyph (backs ▸ List.mem_map_of_mem mem)

section Blocks

theorem wordGlyph_keyword (word : Keyword) :
    wordGlyph word.text.toList = (.keyword word, word.text) := by
  cases word <;> rfl

theorem isWord_keyword (word : Keyword) : IsWord word.text.toList := by
  cases word <;> decide

theorem spells_space {word : List Char} (h : IsWord word) {breakable : Bool} :
    Spells breakable (word ++ [' ']) [wordGlyph word] true :=
  .word h rfl (spells_blank rfl)

theorem spells_keyword (word : Keyword) {breakable : Bool} :
    Spells breakable (word.text.toList ++ [' ']) [(.keyword word, word.text)] true := by
  rw [← wordGlyph_keyword]
  exact spells_space (isWord_keyword word)

theorem spells_openBrace {breakable : Bool} :
    Spells breakable ['\x7b'] [(.punct .openBrace, "\x7b")] true :=
  spells_mark (by decide) rfl (by simp [Punct.ofTwo?])

theorem spells_closeBrace {breakable : Bool} :
    Spells breakable ['\x7d'] [(.punct .closeBrace, "\x7d")] true :=
  spells_mark (by decide) rfl (by simp [Punct.ofTwo?])

/-- A body between braces, behind tokens without separators. -/
theorem Statement.block {front inner : List Token} {brace closing : Token}
    (solid : ∀ token ∈ front ++ inner, token.kind ≠ .endOfInput) (before : Balanced front)
    (joined : ∀ token ∈ front, token.kind.isSeparator = false)
    (opens : ∃ first ∈ front.head?, first.kind.opensStatement = true) (inside : Balanced inner)
    (left : brace.kind = .punct .openBrace) (right : closing.kind = .punct .closeBrace) :
    Statement (front ++ brace :: (inner ++ [closing])) where
  solid := by
    intro token mem
    simp only [List.mem_append, List.mem_cons, List.not_mem_nil, or_false] at mem
    rcases mem with mem | rfl | mem | rfl
    · exact solid token (List.mem_append_left _ mem)
    · simp [left]
    · exact solid token (List.mem_append_right _ mem)
    · simp [right]
  balanced := before.append
    (inside.group (by rw [left]; rfl) (by rw [right]; rfl) (by rw [left, right]; rfl))
  opens := by
    obtain ⟨first, head, opens⟩ := opens
    obtain ⟨rest, rfl⟩ := List.head?_eq_some_iff.mp head
    exact ⟨first, rfl, opens⟩
  bridged := by
    -- a separator stands between the braces, where what precedes it is not balanced
    intro ahead mark after split separates outside
    exfalso
    have brace_solid : mark ≠ brace := by rintro rfl; rw [left] at separates; cases separates
    have closing_solid : mark ≠ closing := by rintro rfl; rw [right] at separates; cases separates
    rcases List.append_eq_append_iff.mp split with ⟨more, rfl, tail⟩ | ⟨more, rfl, tail⟩
    · cases more with
      | nil => exact brace_solid (List.cons.inj tail).1.symm
      | cons next more =>
        obtain ⟨rfl, body⟩ := List.cons.inj tail
        rcases List.append_eq_append_iff.mp body with ⟨rest, rfl, last⟩ | ⟨rest, whole, -⟩
        · cases rest with
          | nil => exact closing_solid (List.cons.inj last).1.symm
          | cons other rest => simp at last
        · exact inside.group_front (by rw [left]; rfl) whole (before.back outside)
    · cases more with
      | nil => exact brace_solid (List.cons.inj tail).1
      | cons next more =>
        obtain ⟨rfl, -⟩ := List.cons.inj tail
        rw [joined mark (by simp)] at separates
        cases separates

/-- The tokens in front of the body of a container. -/
def heading (exported : Bool) (kind : ContainerKind) (name : List Char) : List Glyph :=
  (if exported then [(.keyword .kwExport, Keyword.kwExport.text)] else []) ++
    [(.keyword kind.word, kind.word.text), wordGlyph name]

/-- The text in front of the body of a container. -/
def headingText (exported : Bool) (kind : ContainerKind) (name : List Char) : List Char :=
  (if exported then Keyword.kwExport.text.toList ++ [' '] else []) ++
    (kind.word.text.toList ++ (' ' :: name))

/-- The text of a container with the given lines in its body. -/
def blockText (exported : Bool) (kind : ContainerKind) (name : List Char)
    (texts : List (List Char)) : List Char :=
  headingText exported kind name ++ ([' ', '\x7b', '\n'] ++ (paragraph texts ++ ['\x7d']))

/-- The tokens of a container with the given tokens in its body. -/
def blockGlyphs (exported : Bool) (kind : ContainerKind) (name : List Char)
    (body : List Glyph) : List Glyph :=
  heading exported kind name ++
    (.punct .openBrace, "\x7b") :: (((.newline, "\\n") :: body) ++ [(.punct .closeBrace, "\x7d")])

variable {exported : Bool} {kind : ContainerKind} {name : List Char}

theorem heading_calm : Calm (heading exported kind name) := by
  have word (word : Keyword) : Calm [(.keyword word, word.text)] := .plain (by simp; rfl)
  have front : Calm (if exported then [(.keyword .kwExport, Keyword.kwExport.text)] else []) := by
    cases exported with
    | true => exact word .kwExport
    | false => exact .plain (by simp)
  exact front.append ((word kind.word).append (.plain (by simpa using isPlain_wordGlyph name)))

theorem heading_opens (exported : Bool) (kind : ContainerKind) (name : List Char) :
    ∃ first ∈ (heading exported kind name).head?, first.1.opensStatement = true := by
  cases exported with
  | true => exact ⟨_, rfl, rfl⟩
  | false => exact ⟨_, rfl, by cases kind <;> rfl⟩

theorem heading_spells (exported : Bool) (kind : ContainerKind) (named : IsWord name) :
    Spells false (headingText exported kind name ++ [' ', '\x7b', '\n'])
      (heading exported kind name ++ [(.punct .openBrace, "\x7b"), (.newline, "\\n")]) false := by
  have first : Spells false (if exported then Keyword.kwExport.text.toList ++ [' '] else [])
      (if exported then [(.keyword .kwExport, Keyword.kwExport.text)] else []) exported := by
    cases exported with
    | true => exact spells_keyword .kwExport
    | false => exact .nil false
  have brace : Spells true ['\x7b', '\n'] [(.punct .openBrace, "\x7b"), (.newline, "\\n")] false :=
    spells_openBrace.append spells_newline
  have whole := first.append
    ((spells_keyword kind.word).append ((spells_space named).append brace))
  simpa only [headingText, heading, List.append_assoc, List.cons_append, List.nil_append]
    using whole

/-- A container spells the tokens of its body between those of its own. -/
theorem spells_block (exported : Bool) (kind : ContainerKind) {texts : List (List Char)}
    {body : List Glyph} (named : IsWord name)
    (inner : Spells false (paragraph texts) body false) :
    Spells false (blockText exported kind name texts ++ ['\n'])
      (blockGlyphs exported kind name body ++ [(.newline, "\\n")]) false := by
  have closing : Spells false ['\x7d', '\n'] [(.punct .closeBrace, "\x7d"), (.newline, "\\n")] false :=
    spells_closeBrace.append spells_newline
  have whole := (heading_spells exported kind named).append (inner.append closing)
  simpa only [blockText, blockGlyphs, List.append_assoc, List.cons_append, List.nil_append]
    using whole

/-- A container with sentences in its body. -/
theorem Sentence.block {texts : List (List Char)} {parts : List (List Glyph)}
    (named : IsWord name) (h : List.Forall₂ Sentence texts parts) :
    ∃ body, Sentence (blockText exported kind name texts) (blockGlyphs exported kind name body) ∧
      Prints parts body := by
  obtain ⟨body, spells, prints⟩ := paragraph_spells h
  obtain ⟨own, lines, -⟩ := prints (body.map Token.bare) (Token.map_glyph_bare body)
  have calm : Calm (heading exported kind name) := heading_calm
  have newline : ∀ token ∈ [Token.bare (.newline, "\\n")], token.kind = .newline := by
    simp [Token.bare]
  refine ⟨body, ⟨?_, ?_⟩, prints⟩
  · have statement : Statement ((heading exported kind name).map Token.bare ++
        Token.bare (.punct .openBrace, "\x7b") ::
          (([Token.bare (.newline, "\\n")] ++ body.map Token.bare) ++
            [Token.bare (.punct .closeBrace, "\x7d")])) := by
      refine .block ?_ calm.balanced ?_ ?_ ((Balanced.newlines newline).append lines.balanced) rfl
        rfl
      · intro token mem
        simp only [List.mem_append, List.mem_singleton, List.mem_map] at mem
        rcases mem with ⟨glyph, among, rfl⟩ | rfl | ⟨glyph, among, rfl⟩
        · exact calm.solid glyph among
        · simp [Token.bare]
        · exact lines.solid _ (List.mem_map_of_mem among)
      · intro token mem
        obtain ⟨glyph, among, rfl⟩ := List.mem_map.mp mem
        exact calm.joined glyph among
      · obtain ⟨first, head, opens⟩ := heading_opens exported kind name
        refine ⟨Token.bare first, ?_, opens⟩
        rw [List.head?_map, Option.mem_def.mp head]
        rfl
    simpa [blockGlyphs] using statement
  · exact ⟨[(.newline, "\\n")], by simp, by simp, spells_block _ _ named spells⟩

end Blocks

end ScriptShell
