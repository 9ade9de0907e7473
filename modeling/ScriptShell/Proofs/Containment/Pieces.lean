import ScriptShell.Wrapper
import ScriptShell.Ledger
import ScriptShell.Proofs.Containment.Spelling
import ScriptShell.Proofs.Containment.Statements
import ScriptShell.Proofs.Text.Sorted

/-!
Pieces of generated text: words, marks and string literals, and what is built from them, spell
their tokens in any surroundings.
-/
namespace ScriptShell.Lexer

/-- A piece of text spells its tokens whatever follows it. Afterwards a newline counts, or does
not. -/
def Spells (breakable : Bool) (piece : List Char) (tokens : List Glyph) (after : Bool) : Prop :=
  ∀ more, spell breakable (piece ++ more) = (spell after more).map (tokens ++ ·)

/-- A text spells its tokens at the end of a line. -/
def Ends (breakable : Bool) (text : List Char) (tokens : List Glyph) : Prop :=
  ∀ more, (∀ c ∈ more.head?, c = '\n') →
    spell breakable (text ++ more) = (spell true more).map (tokens ++ ·)

/-- A piece of text is not lexed, whatever follows it. -/
def Fails (breakable : Bool) (piece : List Char) : Prop :=
  ∀ more, spell breakable (piece ++ more) = none

variable {breakable middle after : Bool} {piece text : List Char} {tokens others : List Glyph}

theorem Spells.nil (breakable : Bool) : Spells breakable [] [] breakable := by
  intro more
  simp

theorem Spells.append (h : Spells breakable piece tokens middle)
    (k : Spells middle text others after) :
    Spells breakable (piece ++ text) (tokens ++ others) after := by
  intro more
  rw [List.append_assoc, h, k, Option.map_map]
  simp [Function.comp_def]

theorem Spells.ends (h : Spells breakable piece tokens middle) (k : Ends middle text others) :
    Ends breakable (piece ++ text) (tokens ++ others) := by
  intro more starts
  rw [List.append_assoc, h, k more starts, Option.map_map]
  simp [Function.comp_def]

theorem Spells.atEnd (h : Spells breakable piece tokens true) : Ends breakable piece tokens :=
  fun more _ => h more

theorem Spells.fails (h : Spells breakable piece tokens middle) (k : Fails middle text) :
    Fails breakable (piece ++ text) := by
  intro more
  rw [List.append_assoc, h, k]
  rfl

theorem Fails.append (h : Fails breakable piece) (text : List Char) :
    Fails breakable (piece ++ text) := by
  intro more
  rw [List.append_assoc, h]

theorem spells_blank {c : Char} (h : Ascii.isBlank c = true) :
    Spells breakable [c] [] breakable := by
  intro more
  rw [List.singleton_append, spell_blank _ h]
  simp

/-- The end of a line is a token, if another one precedes it. -/
theorem spells_newline : Spells breakable ['\n']
    (if breakable then [(.newline, "\\n")] else []) false := by
  intro more
  rw [List.singleton_append, spell_newline]

/-- A line with at least one token ends with a newline token. -/
theorem Ends.line (h : Ends breakable text tokens) :
    Spells breakable (text ++ ['\n']) (tokens ++ [(.newline, "\\n")]) false := by
  intro more
  rw [List.append_assoc, List.singleton_append, h _ (by simp), spell_newline, Option.map_map]
  simp [Function.comp_def]

/-- A letter or `_` or `$`, and further ones or digits: an identifier or a keyword. -/
def IsWord : List Char → Prop
  | [] => False
  | first :: rest => Ascii.isWordStart first = true ∧ ∀ c ∈ rest, Ascii.isWord c = true

instance : DecidablePred IsWord
  | [] => .isFalse id
  | first :: rest =>
    decidable_of_iff ((Ascii.isWordStart first && rest.all Ascii.isWord) = true) (by simp [IsWord])

theorem IsWord.append {word more : List Char} (h : IsWord word)
    (letters : ∀ c ∈ more, Ascii.isWord c = true) : IsWord (word ++ more) := by
  cases word with
  | nil => cases h
  | cons first rest =>
    refine ⟨h.1, fun c mem => ?_⟩
    exact (List.mem_append.mp mem).elim (h.2 c) (letters c)

theorem isWord_of_start {c : Char} (h : Ascii.isWordStart c = true) : Ascii.isWord c = true := by
  simp only [Ascii.isWordStart, Ascii.isWord, Char.isAlphanum, Bool.or_eq_true] at h ⊢
  tauto

theorem IsWord.letters {word : List Char} (h : IsWord word) :
    ∀ c ∈ word, Ascii.isWord c = true := by
  cases word with
  | nil => cases h
  | cons first rest =>
    intro c mem
    rcases List.mem_cons.mp mem with rfl | mem
    · exact isWord_of_start h.1
    · exact h.2 c mem

theorem isWord_toUpper {c : Char} (h : Ascii.isWord c = true) :
    Ascii.isWord c.toUpper = true := by
  by_cases lower : 97 ≤ c.toNat ∧ c.toNat ≤ 122
  · obtain ⟨low, high⟩ := lower
    rw [← Char.ofNat_toNat c]
    generalize c.toNat = code at low high
    have small : ∀ k < 26, Ascii.isWord (Char.ofNat (97 + k)).toUpper = true := by decide
    obtain ⟨k, rfl⟩ := Nat.exists_eq_add_of_le low
    exact small k (by omega)
  · have same : c.toUpper = c := dif_neg lower
    rwa [same]

/-- The token of a word. -/
def wordGlyph (text : List Char) : Glyph :=
  ((Keyword.ofText? (String.ofList text)).elim .identifier .keyword, String.ofList text)

theorem opens_of_wordStart {first : Char} (h : Ascii.isWordStart first = true)
    (rest : List Char) : Opens first rest := by
  refine ⟨?_, ?_, ?_⟩
  · rintro rfl
    cases h
  · cases blank : Ascii.isBlank first with
    | false => rfl
    | true =>
      simp only [Ascii.isBlank, Bool.or_eq_true, decide_eq_true_eq] at blank
      rcases blank with (((rfl | rfl) | rfl) | rfl) | rfl <;> cases h
  · rintro ⟨rfl, -⟩
    cases h

theorem spell_word {word more : List Char} (h : IsWord word)
    (edge : ∀ c ∈ more.head?, Ascii.isWord c = false) :
    spell breakable (word ++ more) = (spell true more).map (wordGlyph word :: ·) := by
  cases word with
  | nil => cases h
  | cons first rest =>
    obtain ⟨start, letters⟩ := h
    have quote : first ≠ '"' := by
      rintro rfl
      cases start
    have run : (rest ++ more).takeWhile Ascii.isWord = rest := by
      rw [List.takeWhile_append_of_pos letters]
      cases more with
      | nil => simp
      | cons c more => simp [edge c rfl]
    have read : lexeme first (rest ++ more) =
        .ok ⟨(wordGlyph (first :: rest)).1, String.ofList (first :: rest), rest.length⟩ := by
      rw [lexeme, if_neg quote, if_pos start, Lexer.word, run]
      rfl
    rw [List.cons_append, spell_lexeme _ (opens_of_wordStart start _) read, List.drop_left]
    rfl

theorem Spells.word {word : List Char} {c : Char} (h : IsWord word)
    (edge : Ascii.isWord c = false) (k : Spells true (c :: text) tokens after) :
    Spells breakable (word ++ c :: text) (wordGlyph word :: tokens) after := by
  intro more
  rw [List.append_assoc, spell_word h (by simpa using edge), k, Option.map_map]
  rfl

theorem Ends.word {word : List Char} {c : Char} (h : IsWord word)
    (edge : Ascii.isWord c = false) (k : Ends true (c :: text) tokens) :
    Ends breakable (word ++ c :: text) (wordGlyph word :: tokens) := by
  intro more starts
  rw [List.append_assoc, spell_word h (by simpa using edge), k more starts, Option.map_map]
  rfl

theorem ends_word {word : List Char} (h : IsWord word) :
    Ends breakable word [wordGlyph word] := by
  intro more starts
  rw [spell_word h]
  · rfl
  · intro c mem
    rw [starts c mem]
    rfl

/-- The characters of operators and separators other than the slash. -/
def IsMark (c : Char) : Prop :=
  c ≠ '"' ∧ Ascii.isWordStart c = false ∧ c.isDigit = false ∧ c ≠ '\n' ∧
    Ascii.isBlank c = false ∧ c ≠ '/'

instance (c : Char) : Decidable (IsMark c) :=
  inferInstanceAs (Decidable (c ≠ '"' ∧ Ascii.isWordStart c = false ∧ c.isDigit = false ∧
    c ≠ '\n' ∧ Ascii.isBlank c = false ∧ c ≠ '/'))

theorem spell_mark {c : Char} {rest : List Char} {found : Lexeme} (h : IsMark c)
    (read : operator c rest = .ok found) : spell breakable (c :: rest) =
      (spell true (rest.drop found.more)).map ((found.kind, found.text) :: ·) := by
  obtain ⟨quote, letter, digit, line, blank, slash⟩ := h
  apply spell_lexeme
  · exact ⟨line, blank, fun both => slash both.1⟩
  · rw [lexeme, if_neg quote, if_neg (by simp [letter]), if_neg (by simp [digit]), read]

/-- A mark that is part of no longer one. -/
theorem spells_mark {c : Char} {mark : Punct} (h : IsMark c)
    (one : Punct.ofOne? c = some mark) (two : ∀ d, Punct.ofTwo? c d = none) :
    Spells breakable [c] [(.punct mark, mark.text)] true := by
  intro more
  have read : operator c more = .ok ⟨.punct mark, mark.text, 0⟩ := by
    rw [operator_single fun d _ => two d, single, one]
  rw [List.singleton_append, spell_mark h read]
  rfl

/-- A mark in front of a blank. -/
theorem spells_spaced {c : Char} {mark : Punct} (h : IsMark c)
    (one : Punct.ofOne? c = some mark) (two : Punct.ofTwo? c ' ' = none) :
    Spells breakable [c, ' '] [(.punct mark, mark.text)] true := by
  intro more
  have read : operator c (' ' :: more) = .ok ⟨.punct mark, mark.text, 0⟩ := by
    rw [operator_single (by simpa using two), single, one]
  show spell breakable (c :: ' ' :: more) = _
  rw [spell_mark h read, List.drop_zero, spell_blank _ rfl]
  rfl

/-- A mark of two characters. -/
theorem spells_double {c d : Char} {mark : Punct} (h : IsMark c)
    (two : Punct.ofTwo? c d = some mark) :
    Spells breakable [c, d] [(.punct mark, mark.text)] true := by
  intro more
  have read : operator c (d :: more) = .ok ⟨.punct mark, mark.text, 1⟩ := by
    rw [operator]
    simp only [two]
  show spell breakable (c :: d :: more) = _
  rw [spell_mark h read]
  rfl

/-- The characters of a text as they are written in a string literal. -/
def escaped (text : List Char) : List Char :=
  text.flatMap fun c => if c = '"' || c = '\\' then ['\\', c] else [c]

theorem stringLiteral_toList (text : String) :
    (stringLiteral text).toList = '"' :: (escaped text.toList ++ ['"']) := by
  simp [stringLiteral, escaped]

theorem stringBody_escaped {text : List Char} (line : '\n' ∉ text) (reach : Nat)
    (more : List Char) : stringBody reach (escaped text ++ '"' :: more) =
      .ok (text, reach + (escaped text).length) := by
  induction text generalizing reach with
  | nil => simp [escaped, stringBody]
  | cons c rest ih =>
    have others := ih (fun mem => line (List.mem_cons_of_mem _ mem))
    have first : c ≠ '\n' := fun same => line (same ▸ List.mem_cons_self)
    by_cases special : c = '"' ∨ c = '\\'
    · have known : unescape c = some c := by rcases special with rfl | rfl <;> rfl
      have split : escaped (c :: rest) = '\\' :: c :: escaped rest := by
        simp [escaped, special]
      rw [split, List.cons_append, List.cons_append, stringBody_escape known, others]
      simp only [Except.map, List.length_cons]
      congr 2
      omega
    · obtain ⟨quote, escape⟩ := not_or.mp special
      have split : escaped (c :: rest) = c :: escaped rest := by
        simp [escaped, quote, escape]
      rw [split, List.cons_append, stringBody_plain quote escape first, others]
      simp only [Except.map, List.length_cons]
      congr 2
      omega

theorem stringBody_broken {text : List Char} (line : '\n' ∈ text) (reach : Nat)
    (more : List Char) : ∃ flaw, stringBody reach (escaped text ++ more) = .error flaw := by
  induction text generalizing reach with
  | nil => cases line
  | cons c rest ih =>
    by_cases first : c = '\n'
    · subst first
      exact ⟨⟨.lineBreakInString, reach⟩, by simp [escaped, stringBody]⟩
    · have rest_line : '\n' ∈ rest := by simpa [Ne.symm first] using line
      by_cases special : c = '"' ∨ c = '\\'
      · have known : unescape c = some c := by rcases special with rfl | rfl <;> rfl
        have split : escaped (c :: rest) = '\\' :: c :: escaped rest := by
          simp [escaped, special]
        obtain ⟨flaw, failed⟩ := ih rest_line (reach + 2)
        refine ⟨flaw, ?_⟩
        rw [split, List.cons_append, List.cons_append, stringBody_escape known, failed]
        rfl
      · obtain ⟨quote, escape⟩ := not_or.mp special
        have split : escaped (c :: rest) = c :: escaped rest := by
          simp [escaped, quote, escape]
        obtain ⟨flaw, failed⟩ := ih rest_line (reach + 1)
        refine ⟨flaw, ?_⟩
        rw [split, List.cons_append, stringBody_plain quote escape first, failed]
        rfl

theorem opens_quote (rest : List Char) : Opens '"' rest :=
  ⟨by decide, by decide, by simp⟩

/-- A string literal is one token with its text as value, if the text has no line end. -/
theorem spells_literal {text : String} (line : '\n' ∉ text.toList) :
    Spells breakable (stringLiteral text).toList [(.string, text)] true := by
  intro more
  have body := stringBody_escaped line 1 more
  have read : lexeme '"' (escaped text.toList ++ '"' :: more) =
      .ok ⟨.string, text, 1 + (escaped text.toList).length⟩ := by
    rw [lexeme, if_pos rfl, body]
    simp only [String.ofList_toList]
  rw [stringLiteral_toList, List.cons_append, List.append_assoc, List.singleton_append,
    spell_lexeme _ (opens_quote _) read, Nat.add_comm]
  simp [← List.drop_drop]

theorem fails_literal {text : String} (line : '\n' ∈ text.toList) :
    Fails breakable (stringLiteral text).toList := by
  intro more
  obtain ⟨flaw, failed⟩ := stringBody_broken line 1 (['"'] ++ more)
  have read : lexeme '"' (escaped text.toList ++ (['"'] ++ more)) = .error flaw := by
    rw [lexeme, if_pos rfl, failed]
  rw [stringLiteral_toList, List.cons_append, List.append_assoc]
  exact spell_flaw _ (opens_quote _) read

/-- The text of a line end as it is written in the code that shows several items. -/
theorem spells_lineLiteral :
    Spells breakable ['"', '\\', 'n', '"'] [(.string, "\n")] true := by
  intro more
  have read : lexeme '"' ('\\' :: 'n' :: '"' :: more) = .ok ⟨.string, "\n", 3⟩ := by
    rw [lexeme, if_pos rfl, stringBody_escape (c := '\n') rfl, stringBody]
    rfl
  show spell breakable ('"' :: '\\' :: 'n' :: '"' :: more) = _
  rw [spell_lexeme _ (opens_quote _) read]
  rfl

theorem spells_dot : Spells breakable ['.'] [(.punct .dot, ".")] true :=
  spells_mark (by decide) rfl (by simp [Punct.ofTwo?])

/-- Segments with a dot behind each of them. -/
def dotted (segments : List String) : List Glyph :=
  segments.flatMap fun segment => [wordGlyph segment.toList, (.punct .dot, ".")]

theorem spells_path {segments : List String} (some : segments ≠ [])
    (words : ∀ segment ∈ segments, IsWord segment.toList) :
    Spells breakable ((joinPath segments).toList ++ ['.']) (dotted segments) true := by
  induction segments generalizing breakable with
  | nil => exact absurd rfl some
  | cons first rest ih =>
    have own : IsWord first.toList := words first List.mem_cons_self
    have one : Spells breakable (first.toList ++ ['.']) [wordGlyph first.toList, (.punct .dot, ".")]
        true := .word own rfl spells_dot
    cases rest with
    | nil => exact one
    | cons second rest =>
      have others : Spells true ((joinPath (second :: rest)).toList ++ ['.'])
          (dotted (second :: rest)) true :=
        ih (by simp) fun segment mem => words segment (List.mem_cons_of_mem _ mem)
      have text : (joinPath (first :: second :: rest)).toList ++ ['.'] =
          (first.toList ++ ['.']) ++ ((joinPath (second :: rest)).toList ++ ['.']) := by
        simp [joinPath, joinWith]
      rw [text]
      exact one.append others

end ScriptShell.Lexer

namespace ScriptShell

/-- A token without a place in any text. -/
def Token.bare (glyph : Glyph) : Token := ⟨glyph.1, glyph.2, ⟨0, 0, 0, 0, 0⟩⟩

@[simp] theorem Token.glyph_bare (glyph : Glyph) : (Token.bare glyph).glyph = glyph := rfl

theorem Token.map_glyph_bare (glyphs : List Glyph) :
    (glyphs.map Token.bare).map Token.glyph = glyphs := by
  simp [Function.comp_def]

/-- Balanced tokens without separators. -/
structure Calm (glyphs : List Glyph) : Prop where
  solid : ∀ glyph ∈ glyphs, glyph.1 ≠ .endOfInput
  balanced : Balanced (glyphs.map Token.bare)
  joined : ∀ glyph ∈ glyphs, glyph.1.isSeparator = false

/-- Neither a bracket nor a separator. -/
def TokenKind.isPlain (kind : TokenKind) : Bool :=
  !kind.isOpener && kind.opener?.isNone && !kind.isSeparator && kind != .endOfInput

namespace Calm

theorem append {first second : List Glyph} (h : Calm first) (k : Calm second) :
    Calm (first ++ second) where
  solid glyph mem := (List.mem_append.mp mem).elim (h.solid glyph) (k.solid glyph)
  balanced := by
    rw [List.map_append]
    exact h.balanced.append k.balanced
  joined glyph mem := (List.mem_append.mp mem).elim (h.joined glyph) (k.joined glyph)

theorem plain {glyphs : List Glyph} (h : ∀ glyph ∈ glyphs, glyph.1.isPlain = true) :
    Calm glyphs := by
  induction glyphs with
  | nil => exact ⟨by simp, .nil, by simp⟩
  | cons first rest ih =>
    have own := h first List.mem_cons_self
    simp only [TokenKind.isPlain, Bool.and_eq_true, Bool.not_eq_true', bne_iff_ne,
      Option.isNone_iff_eq_none] at own
    obtain ⟨⟨⟨opens, closes⟩, joined⟩, solid⟩ := own
    have single : Calm [first] :=
      ⟨by simpa using solid, .plain opens closes, by simpa using joined⟩
    exact single.append (ih fun glyph mem => h glyph (List.mem_cons_of_mem _ mem))

/-- Calm tokens between parentheses or braces. -/
theorem group {inner : List Glyph} (h : Calm inner) (opening closing : Punct)
    (left right : String) (opens : opening.isOpener = true) (plain : closing.isOpener = false)
    (closes : closing.opener? = some opening) :
    Calm ((.punct opening, left) :: (inner ++ [(.punct closing, right)])) where
  solid := by
    intro glyph mem
    simp only [List.mem_cons, List.mem_append, List.not_mem_nil, or_false] at mem
    rcases mem with rfl | mem | rfl
    · simp
    · exact h.solid glyph mem
    · simp
  balanced := by
    rw [List.map_cons, List.map_append]
    refine h.balanced.group opens plain ?_
    rw [Token.bare, Token.bare, TokenKind.opener?, closes]
    rfl
  joined := by
    intro glyph mem
    simp only [List.mem_cons, List.mem_append, List.not_mem_nil, or_false] at mem
    rcases mem with rfl | mem | rfl
    · cases opening <;> first | rfl | cases opens
    · exact h.joined glyph mem
    · cases closing <;> first | rfl | cases closes

/-- Calm tokens are a statement, if the first of them opens one. -/
theorem statement {first : Glyph} {rest : List Glyph} (h : Calm (first :: rest))
    (opens : first.1.opensStatement = true) : Statement ((first :: rest).map Token.bare) where
  solid := by
    intro token mem
    obtain ⟨glyph, among, rfl⟩ := List.mem_map.mp mem
    exact h.solid glyph among
  balanced := h.balanced
  opens := ⟨Token.bare first, rfl, opens⟩
  bridged := by
    intro front mark back split separates
    have among : mark ∈ (first :: rest).map Token.bare := by rw [split]; simp
    obtain ⟨glyph, found, rfl⟩ := List.mem_map.mp among
    have joined : (Token.bare glyph).kind.isSeparator = false := h.joined glyph found
    rw [joined] at separates
    cases separates

end Calm

theorem isPlain_wordGlyph (word : List Char) : (Lexer.wordGlyph word).1.isPlain = true := by
  rw [Lexer.wordGlyph]
  cases Keyword.ofText? (String.ofList word) <;> rfl

theorem calm_dotted (segments : List String) : Calm (Lexer.dotted segments) := by
  apply Calm.plain
  intro glyph mem
  simp only [Lexer.dotted, List.mem_flatMap, List.mem_cons, List.not_mem_nil, or_false] at mem
  obtain ⟨segment, -, rfl | rfl⟩ := mem
  · exact isPlain_wordGlyph _
  · rfl

open Lexer

section Display

/-- What the code that shows items joins: literals, and calls that show a member. -/
inductive DisplayPart where
  | literal (text : String)
  /-- The literal of a line end. -/
  | line
  | call (name : String)
deriving Repr, DecidableEq

/-- The texts of an item have no line end. -/
def DisplayItem.OneLine : DisplayItem → Prop
  | .definition label name => '\n' ∉ label.toList ∧ '\n' ∉ name.toList
  | .imported name | .identity name | .lazyIdentity name => '\n' ∉ name.toList

instance : DecidablePred DisplayItem.OneLine
  | .definition _ _ => inferInstanceAs (Decidable (_ ∧ _))
  | .imported _ | .identity _ | .lazyIdentity _ => inferInstanceAs (Decidable (_ ∉ _))

/-- The parts of the code that shows an item. -/
def DisplayItem.parts : DisplayItem → List DisplayPart
  | .definition label name => [.literal ("defined " ++ label ++ " " ++ name)]
  | .imported name => [.literal ("import " ++ name)]
  | .identity name => [.literal (name ++ " = "), .call name]
  | .lazyIdentity name => [.literal (name ++ " = <lazy>")]

/-- The parts of the code that shows all items, one on each line. -/
def displayParts (items : List DisplayItem) : List DisplayPart :=
  if items.isEmpty then [.literal ""]
  else [.line].intercalate (items.map DisplayItem.parts)

namespace DisplayPart

/-- A part as it is written. -/
def code (path : String) : DisplayPart → String
  | .literal text => stringLiteral text
  | .line => "\"\\n\""
  | .call name => "show(" ++ path ++ "." ++ name ++ ")"

/-- The tokens of a part. -/
def glyphs (segments : List String) : DisplayPart → List Glyph
  | .literal text => [(.string, text)]
  | .line => [(.string, "\n")]
  | .call name => wordGlyph "show".toList :: (.punct .openParen, "(") ::
      (dotted segments ++ [wordGlyph name.toList] ++ [(.punct .closeParen, ")")])

/-- A literal has no line end. -/
def OneLine : DisplayPart → Prop
  | .literal text => '\n' ∉ text.toList
  | _ => True

/-- The member that a call shows has a name. -/
def Named : DisplayPart → Prop
  | .call name => IsWord name.toList
  | _ => True

variable {segments : List String} {breakable : Bool} {part : DisplayPart} {parts : List DisplayPart}

theorem calm (segments : List String) (part : DisplayPart) : Calm (part.glyphs segments) := by
  cases part with
  | literal text | line => exact .plain (by simp [glyphs]; rfl)
  | call name =>
    have inner : Calm (dotted segments ++ [wordGlyph name.toList]) :=
      (calm_dotted segments).append (.plain (by simpa using isPlain_wordGlyph name.toList))
    have front : Calm [wordGlyph "show".toList] := .plain (by simpa using isPlain_wordGlyph _)
    exact front.append (inner.group .openParen .closeParen "(" ")" rfl rfl rfl)

theorem spells (named : part.Named) (oneLine : part.OneLine) (some : segments ≠ [])
    (words : ∀ segment ∈ segments, IsWord segment.toList) :
    Spells breakable (part.code (joinPath segments)).toList (part.glyphs segments) true := by
  cases part with
  | literal text => exact spells_literal oneLine
  | line =>
    have text : (code (joinPath segments) .line).toList = ['"', '\\', 'n', '"'] := by simp [code]
    exact text ▸ spells_lineLiteral
  | call name =>
    have opening : Spells breakable ("show".toList ++ ['('])
        [wordGlyph "show".toList, (.punct .openParen, "(")] true :=
      .word (by decide) rfl (spells_mark (by decide) rfl (by simp [Punct.ofTwo?]))
    have closing : Spells true (name.toList ++ [')'])
        [wordGlyph name.toList, (.punct .closeParen, ")")] true :=
      .word named rfl (spells_mark (by decide) rfl (by simp [Punct.ofTwo?]))
    have whole := opening.append ((spells_path some words).append closing)
    have text : (code (joinPath segments) (.call name)).toList = ("show".toList ++ ['(']) ++
        (((joinPath segments).toList ++ ['.']) ++ (name.toList ++ [')'])) := by
      simp [code]
    rw [text]
    simpa [glyphs] using whole

theorem fails (broken : ¬ part.OneLine) (path : String) :
    Fails breakable (part.code path).toList := by
  cases part with
  | literal text => exact fails_literal (not_not.mp broken)
  | line | call _ => exact absurd trivial broken

/-- The tokens of parts with an operator between any two of them. -/
def joined (segments : List String) (parts : List DisplayPart) : List Glyph :=
  [(.punct .concat, "++")].intercalate (parts.map (glyphs segments))

theorem spells_concat : Spells true " ++ ".toList [(.punct .concat, "++")] true := by
  have whole : Spells true [' ', '+', '+', ' '] [(.punct .concat, "++")] true :=
    (spells_blank rfl).append ((spells_double (by decide) rfl).append (spells_blank rfl))
  simpa using whole

theorem joined_cons {segments : List String} (part : DisplayPart) (some : parts ≠ []) :
    joined segments (part :: parts) =
      part.glyphs segments ++ ([(.punct .concat, "++")] ++ joined segments parts) := by
  obtain ⟨second, others, rfl⟩ := List.exists_cons_of_ne_nil some
  simp [joined, List.intercalate]

theorem calm_joined (segments : List String) (parts : List DisplayPart) :
    Calm (joined segments parts) := by
  induction parts with
  | nil => exact .plain (by simp [joined, List.intercalate])
  | cons part rest ih =>
    by_cases some : rest = []
    · simpa [some, joined, List.intercalate] using part.calm segments
    · rw [joined_cons part some]
      have concat : Calm [(.punct .concat, "++")] := .plain (by decide)
      exact (part.calm segments).append (concat.append ih)

/-- Parts that are joined spell the tokens of the parts. -/
theorem spells_joined (any : parts ≠ []) (named : ∀ part ∈ parts, part.Named)
    (oneLine : ∀ part ∈ parts, part.OneLine) (some : segments ≠ [])
    (words : ∀ segment ∈ segments, IsWord segment.toList) :
    Spells breakable (joinWith " ++ " (parts.map (code (joinPath segments)))).toList
      (joined segments parts) true := by
  induction parts generalizing breakable with
  | nil => exact absurd rfl any
  | cons part rest ih =>
    rw [List.forall_mem_cons] at named oneLine
    have own : Spells breakable (part.code (joinPath segments)).toList (part.glyphs segments) true :=
      part.spells named.1 oneLine.1 some words
    by_cases more : rest = []
    · simpa [more, joined, joinWith, List.intercalate] using own
    · rw [List.map_cons, joinWith_cons _ _ (by simpa using more), joined_cons part more]
      exact own.append (spells_concat.append (ih more named.2 oneLine.2))

theorem fails_joined (named : ∀ part ∈ parts, part.Named)
    (broken : ¬ ∀ part ∈ parts, part.OneLine) (some : segments ≠ [])
    (words : ∀ segment ∈ segments, IsWord segment.toList) :
    Fails breakable (joinWith " ++ " (parts.map (code (joinPath segments)))).toList := by
  induction parts generalizing breakable with
  | nil => exact absurd (by simp) broken
  | cons part rest ih =>
    rw [List.forall_mem_cons] at named broken
    by_cases more : rest = []
    · have own : ¬ part.OneLine := by simpa [more] using broken
      rw [more]
      exact fails own _
    · rw [List.map_cons, joinWith_cons _ _ (by simpa using more)]
      by_cases own : part.OneLine
      · have others : Fails true (joinWith " ++ " (rest.map (code (joinPath segments)))).toList :=
          ih named.2 fun all => broken ⟨own, all⟩
        exact (part.spells named.1 own some words).fails (spells_concat.fails others)
      · exact (fails own _).append _

end DisplayPart

variable {items : List DisplayItem} {segments : List String} {breakable : Bool}

theorem displayParts_cons (item : DisplayItem) (some : items ≠ []) :
    displayParts (item :: items) = item.parts ++ .line :: displayParts items := by
  obtain ⟨second, others, rfl⟩ := List.exists_cons_of_ne_nil some
  simp [displayParts, List.intercalate]

theorem displayParts_ne_nil (items : List DisplayItem) : displayParts items ≠ [] := by
  cases items with
  | nil => simp [displayParts]
  | cons item rest =>
    have own : item.parts ≠ [] := by cases item <;> simp [DisplayItem.parts]
    by_cases more : rest = []
    · simpa [more, displayParts, List.intercalate] using own
    · simp [displayParts_cons item more]

theorem mem_displayParts {part : DisplayPart} (mem : part ∈ displayParts items) :
    part = .literal "" ∨ part = .line ∨ ∃ item ∈ items, part ∈ item.parts := by
  induction items with
  | nil => exact .inl (by simpa [displayParts] using mem)
  | cons item rest ih =>
    by_cases more : rest = []
    · exact .inr (.inr ⟨item, by simp, by simpa [more, displayParts, List.intercalate] using mem⟩)
    · rw [displayParts_cons item more, List.mem_append, List.mem_cons] at mem
      rcases mem with own | line | others
      · exact .inr (.inr ⟨item, by simp, own⟩)
      · exact .inr (.inl line)
      · rcases ih others with empty | line | ⟨other, listed, own⟩
        · exact .inl empty
        · exact .inr (.inl line)
        · exact .inr (.inr ⟨other, by simp [listed], own⟩)

/-- The code that shows items joins its parts. -/
theorem displayCode_parts (items : List DisplayItem) (path : String) : (displayCode items path).toList =
    (joinWith " ++ " ((displayParts items).map (DisplayPart.code path))).toList := by
  cases items with
  | nil => simp [displayCode, displayParts, joinWith, DisplayPart.code, stringLiteral]
  | cons item rest =>
    show (joinWith _ _).toList = _
    induction rest generalizing item with
    | nil =>
      cases item <;> simp [displayParts, List.intercalate, DisplayItem.parts, DisplayItem.code,
        DisplayPart.code, joinWith]
    | cons second rest ih =>
      have more : (displayParts (second :: rest)).map (DisplayPart.code path) ≠ [] := by
        simpa using displayParts_ne_nil _
      rw [List.map_cons, joinWith_cons _ _ (by simp), ih second,
        displayParts_cons item (by simp), List.map_append, List.map_cons]
      cases item <;> simp [DisplayItem.parts, DisplayItem.code, DisplayPart.code,
        joinWith_cons _ _ more, joinWith_cons]

/-- A member is shown for an item that asks for it. -/
theorem identity_of_call {name : String} (mem : .call name ∈ displayParts items) :
    .identity name ∈ items := by
  rcases mem_displayParts mem with empty | line | ⟨item, listed, own⟩
  · cases empty
  · cases line
  · cases item with
    | identity other =>
      obtain rfl : name = other := by simpa [DisplayItem.parts] using own
      exact listed
    | _ => simp [DisplayItem.parts] at own

theorem named_displayParts (named : ∀ name, .identity name ∈ items → IsWord name.toList) :
    ∀ part ∈ displayParts items, part.Named := by
  intro part mem
  cases part with
  | call name => exact named name (identity_of_call mem)
  | literal _ | line => trivial

/-- The code that shows what a fragment did. -/
theorem displayCode_spells (named : ∀ name, .identity name ∈ items → IsWord name.toList)
    (some : segments ≠ []) (words : ∀ segment ∈ segments, IsWord segment.toList) :
    (∃ glyphs, Calm glyphs ∧
      Spells breakable (displayCode items (joinPath segments)).toList glyphs true) ∨
    Fails breakable (displayCode items (joinPath segments)).toList := by
  have named := named_displayParts named
  rw [displayCode_parts]
  by_cases oneLine : ∀ part ∈ displayParts items, part.OneLine
  · exact .inl ⟨_, DisplayPart.calm_joined segments _,
      DisplayPart.spells_joined (displayParts_ne_nil items) named oneLine some words⟩
  · exact .inr (DisplayPart.fails_joined named oneLine some words)

end Display

end ScriptShell
