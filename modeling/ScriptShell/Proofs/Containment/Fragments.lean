import ScriptShell.Proofs.Containment.Sentences
import Mathlib.Data.List.DropRight

/-!
The texts that a wrapper is made of. The code of each statement of a fragment is a sentence, and
so is each import of a ledger whose entries are made of words.
-/
namespace ScriptShell

namespace Lexer

theorem isWord_lexeme {first : Char} {rest : List Char} {found : Lexeme}
    (h : lexeme first rest = .ok found) (kind : found.kind = .identifier) :
    IsWord found.text.toList := by
  unfold lexeme at h
  split at h
  · split at h
    · cases h
    · cases h; cases kind
  · split at h
    · next start =>
      cases h
      rw [word, String.toList_ofList]
      exact ⟨start, fun c mem => List.mem_takeWhile_imp mem⟩
    · split at h
      · rw [(number_local h).1] at kind; cases kind
      · obtain ⟨mark, own⟩ := operator_kind h
        rw [own] at kind
        cases kind

/-- Identifiers are words. -/
theorem Lexed.words {place : Position} {breakable : Bool} {text : List Char}
    {tokens : List Token} (h : Lexed place breakable text tokens) :
    ∀ token ∈ tokens, token.kind = .identifier → IsWord token.lexeme.toList := by
  induction h with
  | nil => simp
  | line inner ih => simpa using ih
  | emptyLine inner ih => exact ih
  | blank space inner ih => exact ih
  | comment slash inside stops inner ih => exact ih
  | @lexeme place breakable first body rest found tokens opens kind length same inner ih =>
    intro token mem identifier
    rcases List.mem_cons.mp mem with rfl | mem
    · exact isWord_lexeme (same rest fun c head => .inr head) identifier
    · exact ih token mem identifier

end Lexer

open Lexer Fragment

/-- A statement behind tokens without separators. -/
theorem Statement.ahead {front own : List Token}
    (solid : ∀ token ∈ front ++ own, token.kind ≠ .endOfInput) (before : Balanced front)
    (joined : ∀ token ∈ front, token.kind.isSeparator = false)
    (opens : ∃ first ∈ front.head?, first.kind.opensStatement = true) (balanced : Balanced own)
    (bridged : Bridged own) : Statement (front ++ own) where
  solid := solid
  balanced := before.append balanced
  opens := by
    obtain ⟨first, head, opens⟩ := opens
    obtain ⟨rest, rfl⟩ := List.head?_eq_some_iff.mp head
    exact ⟨first, rfl, opens⟩
  bridged := by
    intro ahead mark after split separates outside
    rcases List.append_eq_append_iff.mp split with ⟨more, rfl, tail⟩ | ⟨more, rfl, tail⟩
    · refine (bridged more mark after tail separates (before.back outside)).imp_left ?_
      rintro ⟨last, mem, continues⟩
      have some : more ≠ [] := by rintro rfl; cases mem
      exact ⟨last, by rwa [List.getLast?_append_of_ne_nil _ some], continues⟩
    · cases more with
      | nil =>
        obtain rfl : own = mark :: after := by simpa using tail.symm
        refine (bridged [] mark after rfl separates .nil).imp_left ?_
        rintro ⟨last, mem, -⟩
        cases mem
      | cons next more =>
        obtain ⟨rfl, -⟩ := List.cons.inj tail
        rw [joined mark (by simp)] at separates
        cases separates

/-- Newlines behind a balanced list are no part of what balances it. -/
theorem Balanced.trim {own lines : List Token} (h : Balanced (own ++ lines))
    (newlines : ∀ line ∈ lines, line.kind = .newline) : Balanced own := by
  obtain ⟨opened, left⟩ := Balanced.front h
  rw [Balanced, brackets_append, left] at h
  have same := ((Balanced.newlines newlines).brackets opened).symm.trans h
  cases same
  exact left

theorem Bridged.trim {own lines : List Token} (h : Bridged (own ++ lines))
    (newlines : ∀ line ∈ lines, line.kind = .newline) : Bridged own := by
  rintro front mark back rfl separates balanced
  refine (h front mark (back ++ lines) (by simp) separates balanced).imp_right fun more => ?_
  rw [resumes_append] at more
  split at more
  · have none : lines.dropWhile (·.kind = .newline) = [] := by
      simpa [List.dropWhile_eq_nil_iff] using newlines
    rw [resumes, none] at more
    cases more
  · exact more

namespace Fragment

/-- The newlines at the end of a statement are no part of it. -/
theorem Part.trim {part : List Token} (h : Part part) :
    ∃ own lines, part = own ++ lines ∧ own.head? = part.head? ∧ Balanced own ∧ Bridged own ∧
      (∀ line ∈ lines, line.kind = .newline) ∧ (lines = [] → breaksAfter part = true) := by
  let newline := fun token : Token => decide (token.kind = .newline)
  have split : part.rdropWhile newline ++ part.rtakeWhile newline = part :=
    List.rdropWhile_append_rtakeWhile
  have newlines : ∀ line ∈ part.rtakeWhile newline, line.kind = .newline := fun line mem => by
    simpa [newline] using List.mem_rtakeWhile_imp mem
  obtain ⟨first, head, solid⟩ := h.head
  obtain ⟨others, rfl⟩ := List.head?_eq_some_iff.mp head
  have front : (first :: others).rdropWhile newline ≠ [] := by
    intro none
    have line := List.rdropWhile_eq_nil_iff.mp none first List.mem_cons_self
    have kind : first.kind = .newline := by simpa [newline] using line
    rw [kind] at solid
    cases solid
  have balanced := h.balanced
  have bridged := h.bridged
  rw [← split] at balanced bridged
  refine ⟨_, _, split.symm, ?_, balanced.trim newlines, bridged.trim newlines, newlines, ?_⟩
  · obtain ⟨token, more, own⟩ := List.exists_cons_of_ne_nil front
    rw [own] at split ⊢
    rw [← split]
    rfl
  · intro none
    have last := List.rtakeWhile_eq_nil_iff.mp none (by simp)
    rw [breaksAfter, List.getLast?_eq_some_getLast (by simp)]
    simpa [newline] using last

/-- The tokens in front of an expression whose value gets a name. -/
def resultGlyphs (name : String) : List Glyph :=
  [(.keyword .kwVal, Keyword.kwVal.text), wordGlyph name.toList,
    (.punct .assign, Punct.assign.text)]

theorem spells_result {name : String} (named : IsWord name.toList) :
    Spells false ("val " ++ name ++ " = ").toList (resultGlyphs name) true := by
  have keyword : Spells false (Keyword.kwVal.text.toList ++ [' '])
      [(.keyword .kwVal, Keyword.kwVal.text)] true := spells_keyword .kwVal
  have equals : Spells true ['=', ' '] [(.punct .assign, Punct.assign.text)] true :=
    spells_spaced (by decide) rfl rfl
  have whole := keyword.append ((spells_space named).append equals)
  simpa [Keyword.text, resultGlyphs] using whole

theorem calm_result (name : String) : Calm (resultGlyphs name) := by
  apply Calm.plain
  simp only [resultGlyphs, List.mem_cons, List.not_mem_nil, or_false, forall_eq_or_imp, forall_eq]
  exact ⟨rfl, isPlain_wordGlyph _, rfl⟩

/-- A part of the tokens of a lexed text. -/
structure Placed (source : String) (part : List Token) : Prop where
  own : Part part
  solid : ∀ token ∈ part, token.kind ≠ .endOfInput
  lexed : ∃ tokens before after, tokenize source = .ok tokens ∧ tokens = before ++ (part ++ after)

namespace Placed

variable {source : String} {part : List Token}

/-- The text of a statement spells its tokens, at the end of a line or of the whole text. -/
theorem respells (h : Placed source part) (breakable : Bool) (more : List Char)
    (starts : ∀ c ∈ more.head?, c = '\n') :
    spell breakable ((spanText source part).toList ++ more) =
      (spell (breaksAfter part) more).map (part.map Token.glyph ++ ·) := by
  obtain ⟨tokens, before, after, lexes, split⟩ := h.lexed
  obtain ⟨first, head, separates⟩ := h.own.head
  obtain ⟨last, tail⟩ : ∃ last, part.getLast? = some last := by
    obtain ⟨others, rfl⟩ := List.head?_eq_some_iff.mp head
    exact ⟨_, List.getLast?_eq_some_getLast (by simp)⟩
  have line : first.kind ≠ .newline := by intro kind; rw [kind] at separates; cases separates
  rw [spanText, Option.mem_def.mp head, tail, String.toList_ofList]
  exact spell_span lexes split head tail line h.solid breakable more starts

theorem spells (h : Placed source part) (breakable : Bool) :
    Spells breakable ((spanText source part).toList ++ ['\n'])
      (part.map Token.glyph ++ if breaksAfter part then [(.newline, "\\n")] else []) false := by
  intro more
  have spelled := h.respells breakable ('\n' :: more) (by simp)
  rw [spell_newline, Option.map_map] at spelled
  rw [List.append_assoc]
  simpa [Function.comp_def] using spelled

/-- The text of a statement, with a line end behind it, spells the statement and newlines. -/
theorem reads (h : Placed source part) :
    ∃ (own : List Token) (lines : List Glyph), own.head? = part.head? ∧ Balanced own ∧
      Bridged own ∧ (∀ token ∈ own, token.kind ≠ .endOfInput) ∧ lines ≠ [] ∧
      (∀ line ∈ lines, line.1 = .newline) ∧ ∀ breakable, Spells breakable
        ((spanText source part).toList ++ ['\n']) (own.map Token.glyph ++ lines) false := by
  have spells := h.spells
  obtain ⟨own, lines, split, head, balanced, bridged, newlines, breaks⟩ := h.own.trim
  have among : ∀ token ∈ own, token ∈ part := fun token mem => by simp [split, mem]
  refine ⟨own, lines.map Token.glyph ++ if breaksAfter part then [(.newline, "\\n")] else [], head,
    balanced, bridged, fun token mem => h.solid token (among token mem), ?_, ?_, ?_⟩
  · intro none
    obtain ⟨bare, closed⟩ := List.append_eq_nil_iff.mp none
    rw [if_pos (breaks (List.map_eq_nil_iff.mp bare))] at closed
    cases closed
  · intro line mem
    rcases List.mem_append.mp mem with own | last
    · obtain ⟨token, found, rfl⟩ := List.mem_map.mp own
      exact newlines token found
    · split at last
      · rw [List.mem_singleton.mp last]
      · cases last
  · intro breakable
    have spelled := spells breakable
    conv at spelled in part.map Token.glyph => rw [split]
    simpa only [List.map_append, List.append_assoc] using spelled

/-- A statement that is no expression is a sentence as it stands. -/
theorem definition (h : Placed source part) (plain : isExpression part = false) :
    ∃ glyphs, Sentence (spanText source part).toList glyphs := by
  obtain ⟨own, lines, head, balanced, bridged, solid, some, newlines, spells⟩ := h.reads
  obtain ⟨first, mem, -⟩ := h.own.head
  have opens : first.kind.opensStatement = true := by
    obtain ⟨others, rfl⟩ := List.head?_eq_some_iff.mp mem
    cases modifies : isModifier first.kind <;> cases starts : startsDefinition first.kind <;>
      simp_all [isExpression, TokenKind.opensStatement]
  have statement : Statement own := ⟨solid, balanced, ⟨first, head.trans mem, opens⟩, bridged⟩
  exact ⟨own.map Token.glyph, statement.glyphs (Token.map_glyph_bare _).symm,
    lines, some, newlines, spells false⟩

/-- An expression is a sentence as the definition of its result. -/
theorem expression (h : Placed source part) {name : String} (named : IsWord name.toList) :
    ∃ glyphs, Sentence ("val " ++ name ++ " = " ++ spanText source part).toList glyphs := by
  obtain ⟨own, lines, head, balanced, bridged, solid, some, newlines, spells⟩ := h.reads
  have calm := calm_result name
  have statement : Statement ((resultGlyphs name).map Token.bare ++ own) := by
    refine .ahead ?_ calm.balanced ?_ ⟨_, rfl, rfl⟩ balanced bridged
    · intro token mem
      rcases List.mem_append.mp mem with mem | mem
      · obtain ⟨glyph, among, rfl⟩ := List.mem_map.mp mem
        exact calm.solid glyph among
      · exact solid token mem
    · intro token mem
      obtain ⟨glyph, among, rfl⟩ := List.mem_map.mp mem
      exact calm.joined glyph among
  refine ⟨resultGlyphs name ++ own.map Token.glyph, statement.glyphs ?_, lines, some, newlines, ?_⟩
  · rw [List.map_append, Token.map_glyph_bare, Token.map_glyph_bare]
  · have whole := (spells_result named).append (spells true)
    simpa using whole

end Placed

/-- Numbers are told apart by their digits. -/
theorem toString_nat_inj {m n : Nat} (same : (toString m).toList = (toString n).toList) : m = n := by
  have values := congrArg (Nat.ofDigitChars 10 · 0) same
  simpa [Nat.toString_eq_ofList_toDigits] using values

/-- The result of an expression has a word as its name. -/
theorem isWord_resultName {line : String} (letters : ∀ c ∈ line.toList, Ascii.isWord c = true)
    (several : Bool) (index : Nat) : IsWord (resultName line several index).toList := by
  have digits : ∀ c ∈ (toString index).toList, Ascii.isWord c = true := by
    intro c mem
    have written : (toString index).toList = Nat.toDigits 10 index := by
      simp [toString, Nat.repr]
    rw [written] at mem
    have digit : c.isDigit = true := Nat.isDigit_of_mem_toDigits (by decide) (by decide) mem
    simp [Ascii.isWord, Char.isAlphanum, digit]
  have split : (resultName line several index).toList =
      'r' :: ('e' :: 's' :: (line.toList ++
        if several then '_' :: (toString index).toList else [])) := by
    cases several <;> simp [resultName]
  rw [split]
  refine ⟨rfl, ?_⟩
  simp only [List.mem_cons, List.mem_append]
  rintro c (rfl | rfl | mem | mem)
  · rfl
  · rfl
  · exact letters c mem
  · split at mem
    · rcases List.mem_cons.mp mem with rfl | mem
      · rfl
      · exact digits c mem
    · cases mem

theorem leadingName_mem {tokens : List Token} {name : String} (h : leadingName tokens = some name) :
    ∃ token ∈ tokens, token.kind = .identifier ∧ token.lexeme = name := by
  unfold leadingName at h
  split at h
  · cases h
  · split at h
    · next kind => cases h; exact ⟨_, List.mem_cons_self, kind, rfl⟩
    · cases h

/-- The name of a value that is shown for a definition is an identifier of it. -/
theorem identity_mem {part : List Token} {name : String}
    (h : .identity name ∈ displayItems part) :
    ∃ token ∈ part, token.kind = .identifier ∧ token.lexeme = name := by
  unfold displayItems at h
  simp only at h
  split at h
  · cases h
  · next keyword rest left =>
    have inside : ∀ token ∈ rest, token ∈ part := by
      intro token mem
      have among : token ∈ part.dropWhile (isModifier ·.kind) := by rw [left]; simp [mem]
      exact (List.dropWhile_sublist _).subset among
    split at h
    · obtain ⟨own, leads, same⟩ := Option.map_eq_some_iff.mp (Option.mem_toList.mp h)
      split at same
      · cases same
      · cases same
        obtain ⟨token, mem, found⟩ := leadingName_mem leads
        exact ⟨token, inside token mem, found⟩
    -- no other definition shows a value
    all_goals simp at h

theorem Placed.words {source : String} {part : List Token} (h : Placed source part) :
    ∀ token ∈ part, token.kind = .identifier → IsWord token.lexeme.toList := by
  obtain ⟨tokens, before, after, lexes, rfl⟩ := h.lexed
  exact fun token mem => (lexed_of_tokenize lexes).words token (by simp [mem])

/-- A statement whose code is a sentence and shows values under words only. -/
structure Tidy (decl : Decl) : Prop where
  sentence : ∃ glyphs, Sentence decl.code.toList glyphs
  named : ∀ name, .identity name ∈ decl.display → IsWord name.toList

theorem declarationsFrom_tidy {source line : String}
    (letters : ∀ c ∈ line.toList, Ascii.isWord c = true) {several : Bool} {index : Nat}
    {parts : List (List Token)} (placed : ∀ part ∈ parts, Placed source part) :
    ∀ decl ∈ declarationsFrom source line several index parts, Tidy decl := by
  induction parts generalizing index with
  | nil => simp [declarationsFrom]
  | cons part parts ih =>
    have own := placed part List.mem_cons_self
    have others : ∀ part ∈ parts, Placed source part := fun part mem =>
      placed part (List.mem_cons_of_mem _ mem)
    intro decl mem
    unfold declarationsFrom at mem
    simp only at mem
    split at mem
    · rcases List.mem_cons.mp mem with rfl | mem
      · have named := isWord_resultName letters several index
        exact ⟨own.expression named, by simpa using named⟩
      · exact ih others decl mem
    · next plain =>
      rcases List.mem_cons.mp mem with rfl | mem
      · refine ⟨own.definition (by simpa using plain), fun name shown => ?_⟩
        obtain ⟨token, among, kind, rfl⟩ := identity_mem shown
        exact own.words token among kind
      · exact ih others decl mem

/-- The characters of a line id: those of a word, and `-`. -/
def IsLine (line : String) : Prop := ∀ c ∈ line.toList, c = '-' ∨ Ascii.isWord c = true

instance (line : String) : Decidable (IsLine line) :=
  decidable_of_iff (line.toList.all (fun c => c = '-' || Ascii.isWord c) = true) (by simp [IsLine])

theorem IsLine.sanitize {line : String} (h : IsLine line) :
    ∀ c ∈ (sanitize line).toList, Ascii.isWord c = true := by
  intro c mem
  rw [Fragment.sanitize, String.toList_ofList] at mem
  obtain ⟨own, among, rfl⟩ := List.mem_map.mp mem
  by_cases dash : own = '-'
  · rw [if_pos dash]; rfl
  · rw [if_neg dash]; exact (h own among).resolve_left dash

/-- The tokens of a fragment, without the end of the input. -/
def written (tokens : List Token) : List Token := tokens.filter (·.kind ≠ .endOfInput)

theorem written_ending {front : List Token} {stop : Token} (ends : stop.kind = .endOfInput)
    (solid : ∀ token ∈ front, token.kind ≠ .endOfInput) : written (front ++ [stop]) = front := by
  rw [written, List.filter_append, List.filter_eq_self.mpr (by simpa using solid)]
  simp [ends]

/-- A fragment of declarations is balanced, and its declarations are those of its statements. -/
theorem parse_declarations {source line : String} {decls : List Decl}
    (h : parse source line = .declarations decls) :
    ∃ front stop, tokenize source = .ok (front ++ [stop]) ∧ stop.kind = .endOfInput ∧
      (∀ token ∈ front, token.kind ≠ .endOfInput) ∧ Balanced front ∧
      decls = declarationsFrom source (sanitize line)
        (((statements front).filter isExpression).length > 1) 0 (statements front) := by
  unfold parse at h
  split at h
  · cases h
  · next tokens lexes =>
    obtain ⟨front, stop, rfl, ends, solid⟩ := (lexed_of_tokenize lexes).ending
    have kept : (front ++ [stop]).filter (·.kind ≠ .endOfInput) = front := written_ending ends solid
    rw [kept] at h
    unfold ofTokens at h
    split at h
    · cases h
    · split at h
      · cases h
      · next opened closed =>
        split at h
        · cases h
        · next complete =>
          cases h
          obtain ⟨rfl, -⟩ : opened = [] ∧ dangling front = false := by simpa using complete
          exact ⟨front, stop, lexes, ends, solid, closed, rfl⟩

/-- The statements of a lexed text are parts of its tokens. -/
theorem statements_placed {source : String} {front : List Token} {stop : Token}
    (lexes : tokenize source = .ok (front ++ [stop]))
    (solid : ∀ token ∈ front, token.kind ≠ .endOfInput) (closed : Balanced front) :
    ∀ part ∈ statements front, Placed source part := by
  intro part mem
  obtain ⟨own, before, after, split⟩ := statements_parts closed part mem
  exact ⟨own, fun token mem => solid token (by rw [← split]; simp [mem]), _, before,
    after ++ [stop], lexes, by rw [← split]; simp⟩

/-- The statements of a fragment are tidy. -/
theorem parse_tidy {source line : String} {decls : List Decl} (valid : IsLine line)
    (h : parse source line = .declarations decls) : ∀ decl ∈ decls, Tidy decl := by
  obtain ⟨front, stop, lexes, -, solid, closed, rfl⟩ := parse_declarations h
  exact declarationsFrom_tidy valid.sanitize (statements_placed lexes solid closed)

end Fragment

/-- An entry made of words, as it is got from a program: its path is a dotted list of them. -/
structure ImportEntry.Worded (entry : ImportEntry) : Prop where
  path : ∃ segments, segments ≠ [] ∧ (∀ segment ∈ segments, IsWord segment.toList) ∧
    entry.path = joinPath segments
  source : IsWord entry.source.toList
  name : IsWord entry.name.toList

/-- A picked member with another name, between braces. -/
theorem spells_alias {source name : List Char} (own : IsWord source) (bound : IsWord name)
    {breakable : Bool} :
    Spells breakable ('\x7b' :: (source ++ " => ".toList ++ name ++ ['\x7d']))
      ((.punct .openBrace, "\x7b") ::
        ([wordGlyph source, (.punct .arrow, "=>"), wordGlyph name] ++
          [(.punct .closeBrace, "\x7d")])) true := by
  have arrow : Spells true ['=', '>', ' '] [(.punct .arrow, "=>")] true :=
    (spells_double (c := '=') (d := '>') (by decide) rfl).append (spells_blank rfl)
  have closing : Spells true (name ++ ['\x7d']) [wordGlyph name, (.punct .closeBrace, "\x7d")] true :=
    .word bound rfl spells_closeBrace
  have opening : Spells breakable ['\x7b'] [(.punct .openBrace, "\x7b")] true := spells_openBrace
  have whole := opening.append ((spells_space own).append (arrow.append closing))
  simpa using whole

/-- The tokens behind the last dot of an entry. -/
def ImportEntry.memberGlyphs (entry : ImportEntry) : List Glyph :=
  if entry.wildcard then [wordGlyph "_".toList]
  else if entry.name = entry.source then [wordGlyph entry.source.toList]
  else (.punct .openBrace, "\x7b") ::
    ([wordGlyph entry.source.toList, (.punct .arrow, "=>"), wordGlyph entry.name.toList] ++
      [(.punct .closeBrace, "\x7d")])

/-- The tokens of an entry with the given path. -/
def ImportEntry.glyphs (entry : ImportEntry) (segments : List String) : List Glyph :=
  (.keyword .kwImport, Keyword.kwImport.text) :: (dotted segments ++ entry.memberGlyphs)

theorem ImportEntry.render_ends {entry : ImportEntry} {segments : List String} (some : segments ≠ [])
    (words : ∀ segment ∈ segments, IsWord segment.toList) (path : entry.path = joinPath segments)
    (member : entry.wildcard = false → IsWord entry.source.toList ∧ IsWord entry.name.toList) :
    Calm (entry.glyphs segments) ∧ Ends false entry.render.toList (entry.glyphs segments) := by
  have front : Spells false ((Keyword.kwImport.text.toList ++ [' ']) ++
      (entry.path.toList ++ ['.'])) ([(.keyword .kwImport, Keyword.kwImport.text)] ++ dotted segments)
      true := by
    rw [path]
    exact (spells_keyword .kwImport).append (spells_path some words)
  -- what stands behind the last dot
  have back : ∃ text, Calm entry.memberGlyphs ∧ Ends true text entry.memberGlyphs ∧ entry.render.toList =
      ((Keyword.kwImport.text.toList ++ [' ']) ++ (entry.path.toList ++ ['.'])) ++ text := by
    have single (name : String) (word : IsWord name.toList) :
        Calm [wordGlyph name.toList] ∧ Ends true name.toList [wordGlyph name.toList] :=
      ⟨.plain (by simpa using isPlain_wordGlyph _), ends_word word⟩
    unfold ImportEntry.render ImportEntry.memberGlyphs
    split
    · obtain ⟨calm, ends⟩ := single "_" (by decide)
      exact ⟨_, calm, ends, by simp [Keyword.text]⟩
    · next named =>
      obtain ⟨source, name⟩ := member (by simpa using named)
      split
      · obtain ⟨calm, ends⟩ := single _ source
        exact ⟨_, calm, ends, by simp [Keyword.text]⟩
      · have pair : Calm [wordGlyph entry.source.toList, (.punct .arrow, "=>"),
            wordGlyph entry.name.toList] := by
          apply Calm.plain
          simp only [List.mem_cons, List.not_mem_nil, or_false, forall_eq_or_imp, forall_eq]
          exact ⟨isPlain_wordGlyph _, rfl, isPlain_wordGlyph _⟩
        exact ⟨_, pair.group .openBrace .closeBrace "\x7b" "\x7d" rfl rfl rfl,
          (spells_alias source name).atEnd, by simp [Keyword.text]⟩
  obtain ⟨text, calm, ends, render⟩ := back
  have word : Calm [(.keyword .kwImport, Keyword.kwImport.text)] := .plain (by simp; rfl)
  rw [render]
  exact ⟨word.append ((calm_dotted segments).append calm), by simpa [glyphs] using front.ends ends⟩

/-- The tokens of an entry made of words. -/
theorem ImportEntry.Worded.glyphs {entry : ImportEntry} (h : entry.Worded) :
    ∃ segments, segments ≠ [] ∧ Sentence entry.render.toList
      ((.keyword .kwImport, Keyword.kwImport.text) :: (dotted segments ++ entry.memberGlyphs)) := by
  obtain ⟨segments, some, words, path⟩ := h.path
  obtain ⟨calm, ends⟩ := entry.render_ends some words path fun _ => ⟨h.source, h.name⟩
  exact ⟨segments, some, .of_calm calm rfl ends⟩

/-- An entry made of words is an import statement. -/
theorem ImportEntry.Worded.sentence {entry : ImportEntry} (h : entry.Worded) :
    ∃ rest, Sentence entry.render.toList ((.keyword .kwImport, Keyword.kwImport.text) :: rest) := by
  obtain ⟨segments, -, sentence⟩ := h.glyphs
  exact ⟨_, sentence⟩

theorem renderLines_toList (entries : List ImportEntry) :
    (Ledger.renderLines entries).toList = paragraph (entries.map (·.render.toList)) := by
  induction entries with
  | nil => rfl
  | cons entry entries ih => simp [Ledger.renderLines, paragraph, ih]

end ScriptShell
