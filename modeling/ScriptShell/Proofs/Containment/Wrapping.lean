import ScriptShell.Compiler
import ScriptShell.Proofs.Containment.Fragments

/-!
Wrapped fragments. A wrapper pastes the statements of a fragment and the imports of a ledger
between lines of its own. If the unit lexes and parses at all, it holds the containers that the
wrapper writes and no others, and the exported one has one member for each import and each
statement that was pasted into it.
-/
namespace ScriptShell

open Lexer Fragment

/-- How a container is introduced. -/
structure Title where
  kind : ContainerKind
  name : String
  exported : Bool
deriving Repr, DecidableEq

def Container.title (decl : Container) : Title := ⟨decl.kind, decl.name, decl.exported⟩

namespace Parser

open Cursor

theorem word_injective {kind other : ContainerKind}
    (h : TokenKind.keyword kind.word = .keyword other.word) : kind = other := by
  cases kind <;> cases other <;> first | rfl | cases h

/-- A container that is read where a block with printed statements stands. -/
theorem container_block {exported : Bool} {kind other : ContainerKind} {name : List Char}
    {parts : List (List Glyph)} {body : List Glyph} (prints : Prints parts body) {c : Cursor}
    {p : Parsed Container c} {part rest : List Token} (outside : c.depth = 0)
    (split : c.rest = part ++ rest)
    (spelled : part.map Token.glyph = blockGlyphs false kind name body)
    (h : container exported other c = .ok p) :
    p.value.title = ⟨kind, String.ofList name, exported⟩ ∧ p.value.params = [] ∧
      ∃ own, own.map (·.map Token.glyph) = parts ∧ List.Forall₂ MemberOf own p.value.members := by
  obtain ⟨word, tail, rfl, words, tails⟩ := List.map_eq_cons_iff.mp spelled
  obtain ⟨named, tail, rfl, names, tails⟩ := List.map_eq_cons_iff.mp tails
  obtain ⟨brace, tail, rfl, braces, tails⟩ := List.map_eq_cons_iff.mp tails
  obtain ⟨line, tail, rfl, lines, tails⟩ := List.map_eq_cons_iff.mp tails
  obtain ⟨inner, tail, rfl, bodies, tails⟩ := List.map_eq_append_iff.mp tails
  obtain ⟨closing, tail, rfl, closings, tails⟩ := List.map_eq_cons_iff.mp tails
  obtain rfl : tail = [] := by simpa using tails
  obtain ⟨own, statements, printed⟩ := prints inner bodies
  have front := container_front h
  have start : c.kind = .keyword kind.word :=
    (kind_of_rest outside split).trans (congrArg Prod.fst words)
  obtain rfl : kind = other := word_injective (start.symm.trans front.1)
  have second : c.next.current = named :=
    current_of_rest (c := c.next) outside (next_of_rest outside split)
  have lexeme : named.lexeme = String.ofList name := congrArg Prod.snd names
  have whole : c.rest = [word, named] ++ brace :: ([line] ++ (inner ++ closing :: rest)) := by
    rw [split]
    simp
  have newline : line.kind = .newline := congrArg Prod.fst lines
  have read := container_lines statements (congrArg Prod.fst braces) (by simpa using newline)
    (congrArg Prod.fst closings) outside rfl whole h
  refine ⟨?_, read.1, own, printed, read.2⟩
  rw [Container.title, front.2.1, front.2.2.1, front.2.2.2, second, lexeme]

/-- A top-level definition that is read from a block with printed statements. -/
theorem TopLevelOf.block {exported : Bool} {kind : ContainerKind} {name : List Char}
    {parts : List (List Glyph)} {body : List Glyph} (prints : Prints parts body)
    {part : List Token} {value : TopLevel} (h : TopLevelOf part value)
    (spelled : part.map Token.glyph = blockGlyphs exported kind name body) :
    ∃ decl, value = .item decl ∧ decl.title = ⟨kind, String.ofList name, exported⟩ ∧
      decl.params = [] ∧
      ∃ own, own.map (·.map Token.glyph) = parts ∧ List.Forall₂ MemberOf own decl.members := by
  obtain ⟨c, p, outside, split, parsed, rfl⟩ := h
  have way := topLevel_at parsed
  generalize p.cursor.rest = rest at split
  generalize p.value = value, p.cursor = d at way
  cases exported with
  | false =>
    have start : c.kind = .keyword kind.word := by
      obtain ⟨word, tail, rfl, words, -⟩ := List.map_eq_cons_iff.mp spelled
      exact (kind_of_rest outside split).trans (congrArg Prod.fst words)
    cases way with
    | imports word read => rw [start] at word; cases kind <;> cases word
    | item front read =>
      rcases front with ⟨rfl, rfl⟩ | ⟨-, word, -⟩
      · exact ⟨_, rfl, container_block prints outside split spelled read⟩
      · rw [start] at word; cases kind <;> cases word
  | true =>
    obtain ⟨word, tail, rfl, words, tails⟩ := List.map_eq_cons_iff.mp spelled
    have start : c.kind = .keyword .kwExport :=
      (kind_of_rest outside split).trans (congrArg Prod.fst words)
    cases way with
    | imports word read => rw [start] at word; cases word
    | @item start' exported' kind' decl front read =>
      rcases front with ⟨-, rfl⟩ | ⟨rfl, -, rfl⟩
      · rw [(container_front read).1] at start; cases kind' <;> cases start
      · exact ⟨_, rfl, container_block prints outside (next_of_rest outside split) tails read⟩

/-- What is read at the word `import` is an import. -/
theorem TopLevelOf.imports {part : List Token} {value : TopLevel} (h : TopLevelOf part value)
    {rest : List Glyph}
    (spelled : part.map Token.glyph = (.keyword .kwImport, Keyword.kwImport.text) :: rest) :
    ∃ decl, value = .imports decl := by
  obtain ⟨c, p, outside, split, parsed, rfl⟩ := h
  obtain ⟨word, tail, rfl, words, -⟩ := List.map_eq_cons_iff.mp spelled
  have start : c.kind = .keyword .kwImport :=
    (kind_of_rest outside split).trans (congrArg Prod.fst words)
  have way := topLevel_at parsed
  generalize p.value = value, p.cursor = d at way
  cases way with
  | imports word read => exact ⟨_, rfl⟩
  | @item start' exported kind decl front read =>
    rcases front with ⟨-, rfl⟩ | ⟨-, word, -⟩
    · rw [(container_front read).1] at start; cases kind <;> cases start
    · rw [start] at word; cases word

/-- The word of a statement is the word of the member that is read from it. -/
theorem MemberOf.word {part : List Token} {value : Member} (statement : Statement part)
    (h : MemberOf part value) :
    ∃ word, value.word? = some word ∧ Fragment.word? part = some word := by
  obtain ⟨c, p, outside, split, parsed, rfl⟩ := h
  obtain ⟨word, own, found⟩ := member_word outside (kind_opens statement outside split) parsed
  refine ⟨word, own, ?_⟩
  obtain ⟨read, took⟩ := member_completes parsed
  obtain rfl : read = part := List.append_cancel_right (took.rest.symm.trans split)
  -- the last token that is read closes a statement, so that it is no modifier
  have stops : read.dropWhile (isModifier ·.kind) ≠ [] := by
    intro none
    have modifiers := List.dropWhile_eq_nil_iff.mp none
    obtain ⟨first, head, -⟩ := statement.opens
    obtain ⟨others, rfl⟩ := List.head?_eq_some_iff.mp head
    have ends := List.getLast?_eq_some_getLast (List.cons_ne_nil first others)
    have closes := took.last _ ends
    have modifies := modifiers _ (List.mem_of_getLast? ends)
    unfold isModifier at modifies
    split at modifies
    all_goals first | cases modifies; done | (next kind => rw [kind] at closes; cases closes)
  rw [split] at found
  unfold Fragment.word? at found ⊢
  rw [List.dropWhile_append, if_neg (by simpa using stops)] at found
  obtain ⟨⟨kind, lexeme, span⟩, more, rest⟩ := List.exists_cons_of_ne_nil stops
  rw [rest] at found ⊢
  cases kind <;> exact found

/-- The member is read from a text: from all the tokens that the text spells in front of the
newlines at its end, and no others. It is of the kind that the word of the text says. -/
def ReadFrom (text : String) (value : Member) : Prop :=
  ∃ part : List Token, Sentence text.toList (part.map Token.glyph) ∧ MemberOf part value ∧
    ∃ word, value.word? = some word ∧ Fragment.word? part = some word

theorem ReadFrom.of_sentence {text : String} {part : List Token} {value : Member}
    (sentence : Sentence text.toList (part.map Token.glyph)) (h : MemberOf part value) :
    ReadFrom text value :=
  ⟨part, sentence, h, h.word (sentence.statement.glyphs (Token.map_glyph_bare _))⟩

theorem spell_of_tokenize {source : String} {tokens : List Token}
    (h : tokenize source = .ok tokens) :
    spell false source.toList = some (tokens.map Token.glyph) := by
  rw [tokenize_eq] at h
  rw [spell, h]
  rfl

/-- A unit whose text is a list of sentences has one top-level definition for each of them. -/
theorem parseProgram_prints {source : String} {parts : List (List Glyph)} {body : List Glyph}
    (spells : Spells false source.toList body false) (prints : Prints parts body)
    {tokens : List Token} {program : Program} (lexes : tokenize source = .ok tokens)
    (parses : parseProgram tokens = .ok program) :
    ∃ own found, own.map (·.map Token.glyph) = parts ∧ List.Forall₂ TopLevelOf own found ∧
      program.imports = found.filterMap (fun
        | .imports decl => some decl
        | .item _ => none) ∧
      program.items = found.filterMap (fun
        | .item decl => some decl
        | .imports _ => none) := by
  have spelled := spells []
  rw [List.append_nil, spell_of_tokenize lexes, spell_nil, Option.map_some] at spelled
  obtain ⟨front, last, rfl, fronts, lasts⟩ := List.map_eq_append_iff.mp (Option.some.inj spelled)
  obtain ⟨stop, none, rfl, stops, nones⟩ := List.map_eq_cons_iff.mp lasts
  obtain rfl : none = [] := by simpa using nones
  have ends : stop.kind = .endOfInput := congrArg Prod.fst stops
  obtain ⟨own, lines, printed⟩ := prints front fronts
  have start : Cursor.ofTokens (front ++ [stop]) = ⟨front, stop, 0, ends⟩ := by
    simp [Cursor.ofTokens, ends]
  unfold parseProgram at parses
  obtain ⟨found, read, parses⟩ := Except.bind_ok.mp parses
  cases parses
  rw [start] at read
  have edge : ∀ next ∈ front.head?, next.kind.isEdge = true := by
    simpa using lines.head (show ∀ next ∈ ([] : List Token).head?, next.kind.isEdge = true by simp)
  have skipped := Cursor.skipSeparators_rest (c := ⟨front, stop, 0, ends⟩)
    (show ∀ line ∈ [], Token.kind line = .newline by simp) edge (List.nil_append _).symm
  exact ⟨own, found, printed, topLevels_lines lines rfl skipped read, rfl, rfl⟩

end Parser

open ScriptShell.Parser

/-- A container that a wrapper writes, with the texts of its statements. -/
structure Block where
  title : Title
  texts : List String

/-- The text of a container. -/
def Block.text (block : Block) : List Char :=
  blockText block.title.exported block.title.kind block.title.name.toList
    (block.texts.map String.toList)

section Lines

/-- The line of a wrapper that shows what its fragment did. -/
def showLine (items : List DisplayItem) (path : String) : String :=
  "def $main(): Str = " ++ displayCode items path

theorem showLine_toList (items : List DisplayItem) (path : String) :
    (showLine items path).toList =
      "def $main(): Str = ".toList ++ (displayCode items path).toList :=
  String.toList_append

/-- The tokens in front of the expression that shows what a fragment did. -/
def showGlyphs : List Glyph :=
  [(.keyword .kwDef, Keyword.kwDef.text), wordGlyph "$main".toList, (.punct .openParen, "("),
    (.punct .closeParen, ")"), (.punct .colon, ":"), wordGlyph "Str".toList, (.punct .assign, "=")]

theorem calm_show : Calm showGlyphs := by
  have front : Calm [(.keyword .kwDef, Keyword.kwDef.text), wordGlyph "$main".toList] := by
    apply Calm.plain
    simp only [List.mem_cons, List.not_mem_nil, or_false, forall_eq_or_imp, forall_eq]
    exact ⟨rfl, isPlain_wordGlyph _⟩
  have empty : Calm [] := .plain (by simp)
  have result : Calm [(.punct .colon, ":"), wordGlyph "Str".toList, (.punct .assign, "=")] := by
    apply Calm.plain
    simp only [List.mem_cons, List.not_mem_nil, or_false, forall_eq_or_imp, forall_eq]
    exact ⟨rfl, isPlain_wordGlyph _, rfl⟩
  exact front.append ((empty.group .openParen .closeParen "(" ")" rfl rfl rfl).append result)

theorem spells_show : Spells false "def $main(): Str = ".toList showGlyphs true := by
  have parens : Spells true ("$main".toList ++ ['(', ')', ':', ' '])
      [wordGlyph "$main".toList, (.punct .openParen, "("), (.punct .closeParen, ")"),
        (.punct .colon, ":")] true :=
    .word (by decide) rfl ((spells_mark (c := '(') (by decide) rfl (by simp [Punct.ofTwo?])).append
      ((spells_mark (c := ')') (by decide) rfl (by simp [Punct.ofTwo?])).append
        (spells_spaced (by decide) rfl rfl)))
  have type : Spells true ("Str".toList ++ [' ', '=', ' '])
      [wordGlyph "Str".toList, (.punct .assign, "=")] true :=
    .word (by decide) rfl ((spells_blank rfl).append (spells_spaced (by decide) rfl rfl))
  have spells : Spells false _ _ true := (spells_keyword .kwDef).append (parens.append type)
  have text : "def $main(): Str = ".toList =
      (Keyword.kwDef.text.toList ++ [' ']) ++ (("$main".toList ++ ['(', ')', ':', ' ']) ++
        ("Str".toList ++ [' ', '=', ' '])) := by
    simp [Keyword.text]
  rw [text]
  exact spells

/-- The line that shows what a fragment did is a sentence, or the unit does not lex. -/
theorem showLine_sentence {items : List DisplayItem} {path : String} {segments : List String}
    (named : ∀ name, .identity name ∈ items → IsWord name.toList) (some : segments ≠ [])
    (words : ∀ segment ∈ segments, IsWord segment.toList) (joined : path = joinPath segments) :
    (∃ glyphs, Sentence (showLine items path).toList glyphs) ∨
      Fails false (showLine items path).toList := by
  rw [showLine_toList, joined]
  rcases displayCode_spells named some words with ⟨glyphs, quiet, shown⟩ | fails
  · exact .inl ⟨_, .of_calm (calm_show.append quiet) rfl (spells_show.append shown).atEnd⟩
  · exact .inr (spells_show.fails fails)

/-- The line that makes the instance of a class. -/
theorem instanceLine_sentence {name : List Char} (named : IsWord name) :
    ∃ glyphs, Sentence ("val INSTANCE = new ".toList ++ name) glyphs := by
  have calm : Calm [(.keyword .kwVal, Keyword.kwVal.text), wordGlyph "INSTANCE".toList,
      (.punct .assign, "="), (.keyword .kwNew, Keyword.kwNew.text), wordGlyph name] := by
    apply Calm.plain
    simp only [List.mem_cons, List.not_mem_nil, or_false, forall_eq_or_imp, forall_eq]
    exact ⟨rfl, isPlain_wordGlyph _, rfl, rfl, isPlain_wordGlyph _⟩
  have target : Spells true ("INSTANCE".toList ++ [' ', '=', ' '])
      [wordGlyph "INSTANCE".toList, (.punct .assign, "=")] true :=
    .word (by decide) rfl ((spells_blank rfl).append (spells_spaced (by decide) rfl rfl))
  have spells : Ends false _ _ := ((spells_keyword .kwVal).append
    (target.append (spells_keyword .kwNew))).ends (ends_word named)
  have text : "val INSTANCE = new ".toList = (Keyword.kwVal.text.toList ++ [' ']) ++
      (("INSTANCE".toList ++ [' ', '=', ' ']) ++ (Keyword.kwNew.text.toList ++ [' '])) := by
    simp [Keyword.text]
  rw [text]
  exact ⟨_, .of_calm calm rfl spells⟩

theorem joinCode_toList (decls : List Decl) :
    (Wrapper.joinCode decls).toList = paragraph (decls.map (·.code.toList)) := by
  unfold Wrapper.joinCode
  induction decls with
  | nil => rfl
  | cons decl decls ih =>
    show _ = (decl.code.toList ++ ['\n']) ++ paragraph (decls.map (·.code.toList))
    rw [← ih]
    cases decls <;> simp [joinWith]

/-- The containers of a unit that holds statements in a module. -/
def flatBlocks (decls : List Decl) (name : String) : List Block :=
  [⟨⟨.moduleKind, name ++ "$Main", false⟩, [showLine (decls.flatMap (·.display)) name]⟩,
    ⟨⟨.moduleKind, name, true⟩, decls.map (·.code)⟩]

/-- The containers of a unit that holds statements in an instance. -/
def boxedBlocks (decls : List Decl) (entries : List ImportEntry) (name : String) : List Block :=
  [⟨⟨.moduleKind, name ++ "$Main", false⟩, entries.map (·.render) ++
      [showLine (decls.flatMap (·.display)) (name ++ ".INSTANCE")]⟩,
    ⟨⟨.moduleKind, name, false⟩, ["val INSTANCE = new " ++ (name ++ "$User")]⟩,
    ⟨⟨.classKind, name ++ "$User", true⟩, entries.map (·.render) ++ decls.map (·.code)⟩]

theorem flat_source (decls : List Decl) (entries : List ImportEntry) (name : String) :
    (Wrapper.flat displayCode decls (Ledger.renderLines entries) name).source.toList =
      paragraph (entries.map (·.render.toList)) ++
        (['\n'] ++ paragraph ((flatBlocks decls name).map Block.text)) := by
  have plain (name : List Char) : headingText false .moduleKind name = "module ".toList ++ name :=
    rfl
  have exported (name : List Char) :
      headingText true .moduleKind name = "export module ".toList ++ name := rfl
  simp only [Wrapper.flat, flatBlocks, Block.text, List.map_cons, List.map_nil, blockText, plain,
    exported, String.toList_append, showLine_toList, paragraph_cons, joinCode_toList,
    renderLines_toList, List.append_assoc, List.cons_append, List.map_map]
  simp [paragraph, Function.comp_def]

theorem boxed_source (decls : List Decl) (entries : List ImportEntry) (name : String) :
    (Wrapper.boxed displayCode decls (Ledger.renderLines entries) name).source.toList =
      paragraph ((boxedBlocks decls entries name).map Block.text) := by
  have plain (name : List Char) : headingText false .moduleKind name = "module ".toList ++ name :=
    rfl
  have exported (name : List Char) :
      headingText true .classKind name = "export class ".toList ++ name := rfl
  simp only [Wrapper.boxed, boxedBlocks, Block.text, List.map_cons, List.map_nil, List.map_append,
    blockText, plain, exported, String.toList_append, showLine_toList, paragraph_cons,
    paragraph_append, joinCode_toList, renderLines_toList, List.append_assoc, List.cons_append,
    List.map_map]
  simp [paragraph, Function.comp_def]

end Lines

section Names

/-- A word is its own form as a part of an identifier. -/
theorem sanitize_word {name : String} (h : IsWord name.toList) : sanitize name = name := by
  have same : name.toList.map (fun c => if c = '-' then '_' else c) = name.toList := by
    refine (List.map_congr_left fun c mem => if_neg ?_).trans (List.map_id' _)
    rintro rfl
    cases h.letters '-' mem
  rw [sanitize, same, String.ofList_toList]

theorem isWord_special {name : String} (h : IsWord name.toList) :
    IsWord ("specialObj" ++ Wrapper.capitalize name).toList := by
  rw [String.toList_append]
  refine IsWord.append (by decide) ?_
  unfold Wrapper.capitalize
  split
  · simp
  · next first rest split =>
    have letters := h.letters
    rw [split] at letters
    rw [String.toList_ofList]
    intro c mem
    rcases List.mem_cons.mp mem with rfl | mem
    · exact isWord_toUpper (letters first List.mem_cons_self)
    · exact letters c (List.mem_cons_of_mem _ mem)

end Names

theorem exists_forall₂ {α β : Type} {R : α → β → Prop} {as : List α}
    (h : ∀ a ∈ as, ∃ b, R a b) : ∃ bs, List.Forall₂ R as bs := by
  induction as with
  | nil => exact ⟨[], .nil⟩
  | cons a as ih =>
    obtain ⟨b, own⟩ := h a List.mem_cons_self
    obtain ⟨bs, others⟩ := ih fun a mem => h a (List.mem_cons_of_mem _ mem)
    exact ⟨b :: bs, .cons own others⟩

theorem forall₂_append {α β : Type} {R : α → β → Prop} {as cs : List α} {bs : List β}
    (h : List.Forall₂ R (as ++ cs) bs) :
    ∃ front back, bs = front ++ back ∧ List.Forall₂ R as front ∧ List.Forall₂ R cs back :=
  ⟨bs.take as.length, bs.drop as.length, (List.take_append_drop _ _).symm,
    (List.forall₂_take_append _ _ _ h.flip).flip, (List.forall₂_drop_append _ _ _ h.flip).flip⟩

theorem Lines.append {parts others : List (List Token)} {body rest : List Token}
    (h : Lines parts body) (k : Lines others rest) : Lines (parts ++ others) (body ++ rest) := by
  induction h with
  | nil => exact k
  | cons statement some newlines tail ih =>
    rw [List.append_assoc, List.append_assoc]
    exact .cons statement some newlines ih

theorem Prints.append {parts others : List (List Glyph)} {body rest : List Glyph}
    (h : Prints parts body) (k : Prints others rest) : Prints (parts ++ others) (body ++ rest) := by
  intro tokens same
  obtain ⟨front, back, rfl, fronts, backs⟩ := List.map_eq_append_iff.mp same
  obtain ⟨first, lines, printed⟩ := h front fronts
  obtain ⟨second, more, written⟩ := k back backs
  exact ⟨first ++ second, lines.append more, by rw [List.map_append, printed, written]⟩

namespace Sentence

/-- All tokens that a text spells, with a line end behind it, up to the newlines at their end. -/
theorem spelled {text : List Char} {part : List Glyph} (h : Sentence text part) :
    ∃ lines, spell false (text ++ ['\n']) = some (part ++ lines) := by
  obtain ⟨lines, -, -, spells⟩ := h.spells
  have whole := spells []
  rw [List.append_nil, spell_nil, Option.map_some, List.append_assoc] at whole
  exact ⟨_, whole⟩

/-- The first token of a sentence is that of its text. -/
theorem head_unique {text : List Char} {part other : List Glyph} (h : Sentence text part)
    (k : Sentence text other) : part.head? = other.head? := by
  obtain ⟨lines, spelled⟩ := h.spelled
  obtain ⟨more, same⟩ := k.spelled
  have whole : part ++ lines = other ++ more := Option.some.inj (spelled.symm.trans same)
  obtain ⟨first, head, -⟩ := h.statement.opens
  obtain ⟨second, start, -⟩ := k.statement.opens
  cases part with
  | nil => cases head
  | cons glyph part =>
    cases other with
    | nil => cases start
    | cons another other => exact congrArg some (List.cons.inj whole).1

/-- Whatever an import made of words spells starts with its keyword. -/
theorem starts_import {entry : ImportEntry} (worded : entry.Worded) {part : List Token}
    (h : Sentence entry.render.toList (part.map Token.glyph)) :
    ∃ rest, part.map Token.glyph = (.keyword .kwImport, Keyword.kwImport.text) :: rest := by
  obtain ⟨rest, own⟩ := worded.sentence
  exact List.head?_eq_some_iff.mp (h.head_unique own)

end Sentence

namespace Parser

/-- Members that are read from the statements of a body are read from their texts. -/
theorem ReadFrom.all {texts : List String} {own : List (List Token)} {members : List Member}
    (sentences : List.Forall₂ Sentence (texts.map String.toList) (own.map (·.map Token.glyph)))
    (h : List.Forall₂ MemberOf own members) : List.Forall₂ ReadFrom texts members := by
  rw [List.forall₂_map_left_iff, List.forall₂_map_right_iff] at sentences
  induction h generalizing texts with
  | nil => cases sentences; exact .nil
  | cons first others ih =>
    cases sentences with
    | cons sentence rest => exact .cons (.of_sentence sentence first) (ih rest)

/-- What is read from an import made of words is an import. -/
theorem ReadFrom.imports {entry : ImportEntry} (worded : entry.Worded) {value : Member}
    (h : ReadFrom entry.render value) : ∃ decl, value = .imports decl := by
  obtain ⟨part, sentence, -, word, kind, found⟩ := h
  obtain ⟨rest, spelled⟩ := sentence.starts_import worded
  obtain ⟨token, tail, rfl, alike, -⟩ := List.map_eq_cons_iff.mp spelled
  rw [Fragment.word?_keyword (congrArg Prod.fst alike) rfl] at found
  cases found
  cases value with
  | imports decl => exact ⟨decl, rfl⟩
  | container decl =>
    cases shown : decl.kind <;> simp [Member.word?, shown, ContainerKind.word] at kind
  | _ => simp [Member.word?] at kind

theorem ReadFrom.all_imports {entries : List ImportEntry} {members : List Member}
    (worded : ∀ entry ∈ entries, entry.Worded)
    (h : List.Forall₂ ReadFrom (entries.map (·.render)) members) :
    ∃ imports : List Import, members = imports.map .imports := by
  induction entries generalizing members with
  | nil => cases h; exact ⟨[], rfl⟩
  | cons entry entries ih =>
    obtain ⟨value, others, own, rest, rfl⟩ := List.forall₂_cons_left_iff.mp h
    obtain ⟨decl, rfl⟩ := own.imports (worded entry List.mem_cons_self)
    obtain ⟨imports, rfl⟩ := ih (fun entry mem => worded entry (List.mem_cons_of_mem _ mem)) rest
    exact ⟨decl :: imports, rfl⟩

theorem TopLevelOf.all_imports {entries : List ImportEntry} {own : List (List Token)}
    {found : List TopLevel} (worded : ∀ entry ∈ entries, entry.Worded)
    (sentences : List.Forall₂ Sentence (entries.map (·.render.toList))
      (own.map (·.map Token.glyph)))
    (h : List.Forall₂ TopLevelOf own found) :
    ∃ imports : List Import, found = imports.map .imports ∧ imports.length = entries.length := by
  rw [List.forall₂_map_left_iff, List.forall₂_map_right_iff] at sentences
  induction h generalizing entries with
  | nil => cases sentences; exact ⟨[], rfl, rfl⟩
  | cons first others ih =>
    cases sentences with
    | @cons entry _ entries _ sentence rest =>
      obtain ⟨more, spelled⟩ := sentence.starts_import (worded entry List.mem_cons_self)
      obtain ⟨decl, rfl⟩ := first.imports spelled
      obtain ⟨imports, rfl, size⟩ :=
        ih (fun entry mem => worded entry (List.mem_cons_of_mem _ mem)) rest
      exact ⟨decl :: imports, rfl, by simp [size]⟩

end Parser

namespace Block

/-- The container that is read from a block: it is introduced as the block is and has one member
for each text. -/
structure ReadAs (block : Block) (decl : Container) : Prop where
  title : decl.title = block.title
  params : decl.params = []
  members : List.Forall₂ ReadFrom block.texts decl.members

/-- A block that is made of sentences, with what it spells. -/
structure Written (block : Block) (glyphs : List Glyph) : Prop where
  sentence : Sentence block.text glyphs
  printed : ∃ body parts, Prints parts body ∧
    glyphs = blockGlyphs block.title.exported block.title.kind block.title.name.toList body ∧
    List.Forall₂ Sentence (block.texts.map String.toList) parts

theorem written {block : Block} (named : IsWord block.title.name.toList)
    (h : ∀ text ∈ block.texts, ∃ part, Sentence text.toList part) :
    ∃ glyphs, block.Written glyphs := by
  have each : ∀ text ∈ block.texts.map String.toList, ∃ part, Sentence text part := by
    simpa using h
  obtain ⟨parts, sentences⟩ := exists_forall₂ each
  obtain ⟨body, sentence, prints⟩ := Sentence.block named sentences
  exact ⟨_, sentence, body, parts, prints, rfl, sentences⟩

theorem Written.readAs {block : Block} {part : List Token} {value : TopLevel}
    (h : block.Written (part.map Token.glyph)) (read : TopLevelOf part value) :
    ∃ decl, value = .item decl ∧ block.ReadAs decl := by
  obtain ⟨body, parts, prints, spelled, sentences⟩ := h.printed
  obtain ⟨decl, same, title, params, own, rfl, members⟩ := read.block prints spelled
  rw [String.ofList_toList] at title
  exact ⟨decl, same, title, params, ReadFrom.all sentences members⟩

theorem Written.all_readAs {blocks : List Block} {own : List (List Token)}
    {found : List TopLevel} (h : List.Forall₂ Written blocks (own.map (·.map Token.glyph)))
    (read : List.Forall₂ TopLevelOf own found) :
    ∃ decls : List Container, found = decls.map .item ∧ List.Forall₂ ReadAs blocks decls := by
  rw [List.forall₂_map_right_iff] at h
  induction h generalizing found with
  | nil => cases read; exact ⟨[], rfl, .nil⟩
  | cons first others ih =>
    obtain ⟨value, rest, one, more, rfl⟩ := List.forall₂_cons_left_iff.mp read
    obtain ⟨decl, rfl, own⟩ := first.readAs one
    obtain ⟨decls, rfl, each⟩ := ih more
    exact ⟨decl :: decls, rfl, .cons own each⟩

end Block

/-- A unit whose text is made of imports and blocks has these imports and one container for each
block. -/
theorem parseProgram_blocks {source : String} {entries : List ImportEntry} {gap : List Char}
    {blocks : List Block} (worded : ∀ entry ∈ entries, entry.Worded)
    (written : ∀ block ∈ blocks, ∃ glyphs, block.Written glyphs)
    (empty : Spells false gap [] false) (text : source.toList =
      paragraph (entries.map (·.render.toList)) ++ (gap ++ paragraph (blocks.map Block.text)))
    {tokens : List Token} {program : Program} (lexes : tokenize source = .ok tokens)
    (parses : parseProgram tokens = .ok program) :
    program.imports.length = entries.length ∧ List.Forall₂ Block.ReadAs blocks program.items := by
  have lines : ∀ text ∈ entries.map (·.render.toList), ∃ part, Sentence text part := by
    intro text mem
    obtain ⟨entry, found, rfl⟩ := List.mem_map.mp mem
    obtain ⟨rest, own⟩ := (worded entry found).sentence
    exact ⟨_, own⟩
  obtain ⟨carried, preamble⟩ := exists_forall₂ lines
  obtain ⟨parts, sentences⟩ := exists_forall₂ written
  obtain ⟨front, before, printed⟩ := paragraph_spells preamble
  have texts : List.Forall₂ Sentence (blocks.map Block.text) parts :=
    List.forall₂_map_left_iff.mpr (sentences.imp fun _ _ h => h.sentence)
  obtain ⟨back, after, both⟩ := paragraph_spells texts
  have spells := before.append (empty.append after)
  rw [List.nil_append, ← text] at spells
  obtain ⟨own, found, same, read, imports, items⟩ :=
    parseProgram_prints spells (printed.append both) lexes parses
  obtain ⟨own, containers, rfl, rfl, rfl⟩ := List.map_eq_append_iff.mp same
  obtain ⟨carriers, others, rfl, top, rest⟩ := forall₂_append read
  obtain ⟨taken, rfl, size⟩ := TopLevelOf.all_imports worded preamble top
  obtain ⟨decls, rfl, each⟩ := Block.Written.all_readAs sentences rest
  rw [List.filterMap_append, List.filterMap_map, List.filterMap_map] at imports items
  simp only [Function.comp_def, List.filterMap_some, List.filterMap_none, List.append_nil,
    List.nil_append] at imports items
  rw [imports, items]
  exact ⟨size, each⟩

theorem not_fails {source : String} {tokens : List Token} (lexes : tokenize source = .ok tokens) :
    ¬ Fails false source.toList := by
  intro fails
  have none := fails []
  rw [List.append_nil, spell_of_tokenize lexes] at none
  cases none

/-- A block whose last line does not lex, in front of others. -/
theorem Block.fails {block : Block} {texts : List String} {line : String}
    (named : IsWord block.title.name.toList) (split : block.texts = texts ++ [line])
    (h : ∀ text ∈ texts, ∃ part, Sentence text.toList part) (fails : Fails false line.toList)
    (others : List (List Char)) : Fails false (paragraph (block.text :: others)) := by
  have each : ∀ text ∈ texts.map String.toList, ∃ part, Sentence text part := by simpa using h
  obtain ⟨parts, sentences⟩ := exists_forall₂ each
  obtain ⟨body, spells, -⟩ := paragraph_spells sentences
  have inner := spells.fails (fails.append ['\n', '\x7d'])
  have whole := (heading_spells block.title.exported block.title.kind named).fails inner
  have text : block.text = (headingText block.title.exported block.title.kind
      block.title.name.toList ++ [' ', '\x7b', '\n']) ++
        (paragraph (texts.map String.toList) ++ (line.toList ++ ['\n', '\x7d'])) := by
    rw [Block.text, blockText, split, List.map_append, paragraph_append]
    simp [paragraph]
  rw [paragraph_cons, text]
  exact (whole.append _).append _

/-- The containers that a wrapper writes. -/
def WrappedUnit.titles (unit : WrappedUnit) : List Title :=
  if unit.classWrapped then
    [⟨.moduleKind, unit.name ++ "$Main", false⟩, ⟨.moduleKind, unit.name, false⟩,
      ⟨.classKind, unit.name ++ "$User", true⟩]
  else [⟨.moduleKind, unit.name ++ "$Main", false⟩, ⟨.moduleKind, unit.name, true⟩]

/-- The imports of a preamble that a wrapper pastes into its exported container. -/
def WrappedUnit.pasted (unit : WrappedUnit) (entries : List ImportEntry) : List ImportEntry :=
  if unit.classWrapped then entries else []

/-- A program with the containers of a wrapper and no others. The exported one has an import for
each pasted entry and then one member for each statement, each read from its own text; the
entries that are not pasted are imports of the program. -/
structure Encloses (unit : WrappedUnit) (entries : List ImportEntry) (decls : List Decl)
    (program : Program) : Prop where
  titles : program.items.map Container.title = unit.titles
  imports : program.imports.length + (unit.pasted entries).length = entries.length
  members : ∃ exported ∈ program.items.getLast?, exported.params = [] ∧
    ∃ (imports : List Import) (own : List Member),
      exported.members = imports.map .imports ++ own ∧
      List.Forall₂ ReadFrom ((unit.pasted entries).map (·.render)) (imports.map .imports) ∧
      List.Forall₂ ReadFrom (decls.map (·.code)) own

section Units

variable {entries : List ImportEntry} {decls : List Decl} {name : String} {tokens : List Token}
  {program : Program}

theorem shown_words (tidy : ∀ decl ∈ decls, Tidy decl) :
    ∀ name, .identity name ∈ decls.flatMap (·.display) → IsWord name.toList := by
  intro name mem
  obtain ⟨decl, among, shown⟩ := List.mem_flatMap.mp mem
  exact (tidy decl among).named name shown

theorem isWord_suffix (named : IsWord name.toList) {suffix : String}
    (letters : suffix.toList.all Ascii.isWord = true) : IsWord (name ++ suffix).toList := by
  rw [String.toList_append]
  exact named.append (List.all_eq_true.mp letters)

theorem codes_sentences (tidy : ∀ decl ∈ decls, Tidy decl) :
    ∀ text ∈ decls.map (·.code), ∃ part, Sentence text.toList part := by
  intro text mem
  obtain ⟨decl, found, rfl⟩ := List.mem_map.mp mem
  exact (tidy decl found).sentence

theorem entries_sentences (worded : ∀ entry ∈ entries, entry.Worded) :
    ∀ text ∈ entries.map (·.render), ∃ part, Sentence text.toList part := by
  intro text mem
  obtain ⟨entry, found, rfl⟩ := List.mem_map.mp mem
  obtain ⟨rest, own⟩ := (worded entry found).sentence
  exact ⟨_, own⟩

theorem Block.titles {blocks : List Block} {items : List Container}
    (h : List.Forall₂ Block.ReadAs blocks items) :
    items.map Container.title = blocks.map Block.title := by
  induction h with
  | nil => rfl
  | cons own others ih => rw [List.map_cons, List.map_cons, own.title, ih]

theorem Block.last (blocks : List Block) {block : Block} {items : List Container}
    (h : List.Forall₂ Block.ReadAs (blocks ++ [block]) items) :
    ∃ decl ∈ items.getLast?, block.ReadAs decl := by
  obtain ⟨front, back, rfl, -, last⟩ := forall₂_append h
  obtain ⟨decl, none, own, rest, rfl⟩ := List.forall₂_cons_left_iff.mp last
  obtain rfl := List.forall₂_nil_left_iff.mp rest
  exact ⟨decl, by simp, own⟩

/-- A unit that holds statements in a module. -/
theorem flat_encloses (named : IsWord name.toList) (worded : ∀ entry ∈ entries, entry.Worded)
    (tidy : ∀ decl ∈ decls, Tidy decl)
    (lexes : tokenize (Wrapper.flat displayCode decls (Ledger.renderLines entries) name).source =
      .ok tokens) (parses : parseProgram tokens = .ok program) :
    Encloses (Wrapper.flat displayCode decls (Ledger.renderLines entries) name) entries decls
      program := by
  have main : IsWord (name ++ "$Main").toList := isWord_suffix named (by decide)
  have gap : Spells false ['\n'] [] false := spells_newline
  have text := flat_source decls entries name
  have path : name = joinPath [name] := rfl
  rcases showLine_sentence (shown_words tidy) (by simp) (by simpa using named) path with
    line | fails
  · have written : ∀ block ∈ flatBlocks decls name, ∃ glyphs, block.Written glyphs := by
      simp only [flatBlocks, List.mem_cons, List.not_mem_nil, or_false, forall_eq_or_imp, forall_eq]
      exact ⟨Block.written main (by simpa using line), Block.written named (codes_sentences tidy)⟩
    obtain ⟨imports, each⟩ := parseProgram_blocks worded written gap text lexes parses
    have titles := Block.titles each
    obtain ⟨exported, last, read⟩ := Block.last [_] each
    refine ⟨?_, imports, exported, last, read.params, [], exported.members, rfl, .nil,
      read.members⟩
    rw [titles]
    rfl
  · refine absurd ?_ (not_fails lexes)
    obtain ⟨carried, preamble⟩ := exists_forall₂ (entries_sentences worded)
    obtain ⟨front, before, -⟩ := paragraph_spells (List.forall₂_map_left_iff.mpr preamble)
    rw [List.map_map] at before
    rw [text, flatBlocks, List.map_cons]
    refine before.fails (gap.fails (Block.fails ?_ (List.nil_append _).symm (by simp) fails _))
    exact main

/-- A unit that holds statements in an instance. -/
theorem boxed_encloses (named : IsWord name.toList) (worded : ∀ entry ∈ entries, entry.Worded)
    (tidy : ∀ decl ∈ decls, Tidy decl)
    (lexes : tokenize (Wrapper.boxed displayCode decls (Ledger.renderLines entries) name).source =
      .ok tokens) (parses : parseProgram tokens = .ok program) :
    Encloses (Wrapper.boxed displayCode decls (Ledger.renderLines entries) name) entries decls
      program := by
  have main : IsWord (name ++ "$Main").toList := isWord_suffix named (by decide)
  have user : IsWord (name ++ "$User").toList := isWord_suffix named (by decide)
  have preamble := entries_sentences worded
  have text := boxed_source decls entries name
  have path : name ++ ".INSTANCE" = joinPath [name, "INSTANCE"] := by
    simp [joinPath, joinWith, String.append_assoc]
  have segments : ∀ segment ∈ [name, "INSTANCE"], IsWord segment.toList := by
    simp only [List.mem_cons, List.not_mem_nil, or_false, forall_eq_or_imp, forall_eq]
    exact ⟨named, by decide⟩
  rcases showLine_sentence (shown_words tidy) (by simp) segments path with line | fails
  · have written : ∀ block ∈ boxedBlocks decls entries name, ∃ glyphs, block.Written glyphs := by
      simp only [boxedBlocks, List.mem_cons, List.not_mem_nil, or_false, forall_eq_or_imp,
        forall_eq]
      refine ⟨Block.written main ?_, Block.written named ?_, Block.written user ?_⟩
      · intro text mem
        rcases List.mem_append.mp mem with mem | mem
        · exact preamble text mem
        · rw [List.mem_singleton.mp mem]
          exact line
      · simpa using instanceLine_sentence user
      · intro text mem
        rcases List.mem_append.mp mem with mem | mem
        · exact preamble text mem
        · exact codes_sentences tidy text mem
    have bare : (Wrapper.boxed displayCode decls (Ledger.renderLines entries) name).source.toList =
        paragraph (([] : List ImportEntry).map (·.render.toList)) ++
          ([] ++ paragraph ((boxedBlocks decls entries name).map Block.text)) := text
    obtain ⟨imports, each⟩ := parseProgram_blocks (by simp) written (.nil false) bare lexes parses
    have titles := Block.titles each
    obtain ⟨exported, last, read⟩ := Block.last [_, _] each
    obtain ⟨front, own, members, first, second⟩ := forall₂_append read.members
    obtain ⟨decls, rfl⟩ := ReadFrom.all_imports worded first
    refine ⟨?_, by simp [imports, WrappedUnit.pasted, Wrapper.boxed], exported, last,
      read.params, decls, own, members, first, second⟩
    rw [titles]
    rfl
  · refine absurd ?_ (not_fails lexes)
    rw [text, boxedBlocks, List.map_cons]
    refine Block.fails ?_ rfl preamble fails _
    exact main

end Units

/-- A source that is read is lexed and parsed. -/
theorem Compiler.readSource_ok {source : String} {program : Program}
    (h : readSource source = .ok program) :
    ∃ tokens, tokenize source = .ok tokens ∧ parseProgram tokens = .ok program := by
  unfold readSource at h
  split at h
  · cases h
  · next tokens lexes =>
    split at h
    · cases h
    · next parses => cases h; exact ⟨tokens, lexes, parses⟩

/-- A source is read if its characters are lexed and the tokens parsed. -/
theorem Compiler.readSource_of_chars {source : String} {text : List Char}
    (same : source.toList = text)
    (h : (match scan .start false text with
      | .ok tokens => (parseProgram tokens).isOk
      | .error _ => false) = true) : ∃ program, readSource source = .ok program := by
  have lexes : tokenize source = scan .start false text := by rw [tokenize_eq, same]
  unfold readSource
  rw [lexes]
  cases scanned : scan .start false text with
  | error error => rw [scanned] at h; cases h
  | ok tokens =>
    rw [scanned] at h
    cases parsed : parseProgram tokens with
    | error error => simp only [parsed] at h; cases h
    | ok program => exact ⟨program, by simp only [parsed]⟩

namespace Wrapper

/-- The session wraps into instances, and a statement asks for a module. -/
def escapes (mode : WrapMode) (decls : List Decl) : Bool :=
  mode = .boxed && decls.any hasFlatEscape

/-- The statements of a fragment without the imports that only ask for a module. -/
def kept (mode : WrapMode) (decls : List Decl) : List Decl :=
  if escapes mode decls then decls.filter (!hasFlatEscape ·) else decls

/-- The name of a wrapper. -/
def unitName (mode : WrapMode) (decls : List Decl) (candidate : String) : String :=
  if escapes mode decls then "specialObj" ++ capitalize candidate else candidate

/-- A wrapped fragment, by whether its members are kept in an instance. -/
theorem wrap_word {mode : WrapMode} {decls : List Decl} {candidate : String} (preamble : String)
    (named : IsWord candidate.toList) : wrap mode decls preamble candidate =
      (if mode = .boxed && !escapes mode decls then boxed else flat) displayCode
        (kept mode decls) preamble (unitName mode decls candidate) := by
  unfold wrap wrapWith kept unitName
  rw [sanitize_word named]
  cases mode with
  | object => rfl
  | boxed => cases any : decls.any hasFlatEscape <;> simp [escapes, any]

/-- Containment: a wrapped fragment that lexes and parses has the containers of its wrapper and
no others, and the exported one has a member for each import that was pasted into it and for each
statement of the fragment, whatever the texts of the statements are. -/
theorem wrap_encloses {source line candidate : String} {decls : List Decl} (mode : WrapMode)
    {entries : List ImportEntry} {program : Program} (valid : IsLine line)
    (fragment : Fragment.parse source line = .declarations decls)
    (named : IsWord candidate.toList) (worded : ∀ entry ∈ entries, entry.Worded)
    (reads : Compiler.readSource (wrap mode decls (Ledger.renderLines entries) candidate).source =
      .ok program) :
    (wrap mode decls (Ledger.renderLines entries) candidate).name =
        unitName mode decls candidate ∧
      (wrap mode decls (Ledger.renderLines entries) candidate).classWrapped =
        (mode = .boxed && !escapes mode decls) ∧
      Encloses (wrap mode decls (Ledger.renderLines entries) candidate) entries (kept mode decls)
        program := by
  have tidy : ∀ decl ∈ kept mode decls, Tidy decl := by
    intro decl mem
    refine parse_tidy valid fragment decl ?_
    unfold kept at mem
    split at mem
    · exact List.mem_of_mem_filter mem
    · exact mem
  have word : IsWord (unitName mode decls candidate).toList := by
    unfold unitName
    split
    · exact isWord_special named
    · exact named
  obtain ⟨tokens, lexes, parses⟩ := Compiler.readSource_ok reads
  rw [wrap_word _ named] at lexes ⊢
  split at lexes
  · next held =>
    rw [if_pos held, held]
    exact ⟨rfl, rfl, boxed_encloses word worded tidy lexes parses⟩
  · next held =>
    rw [if_neg held, Bool.eq_false_iff.mpr held]
    exact ⟨rfl, rfl, flat_encloses word worded tidy lexes parses⟩

/-- A definition that goes on behind a comment with a brace, and an expression on the same line:
two members behind the import. -/
theorem wrap_encloses_of_two : ∃ decls entries program,
    Fragment.parse "val x = // \x7d\n1; x" "-3" = .declarations decls ∧ decls.length = 2 ∧
    entries.length = 1 ∧ (∀ entry ∈ entries, entry.Worded) ∧
    Compiler.readSource (wrap .boxed decls (Ledger.renderLines entries) "c").source =
      .ok program ∧
    Encloses (wrap .boxed decls (Ledger.renderLines entries) "c") entries decls program := by
  let decls : List Decl := [⟨"val x = // \x7d\n1", [.identity "x"], ["x"]⟩,
    ⟨"val res_3 = x", [.identity "res_3"], ["x"]⟩]
  let entries : List ImportEntry := [{ name := "z", source := "y", path := "b.M" }]
  have parsed : Fragment.parse "val x = // \x7d\n1; x" "-3" = .declarations decls := by
    decide +kernel
  have worded : ∀ entry ∈ entries, entry.Worded := by
    simp only [entries, List.mem_singleton, forall_eq]
    refine ⟨⟨["b", "M"], by simp, ?_, rfl⟩, by decide, by decide⟩
    simp only [List.mem_cons, List.not_mem_nil, or_false, forall_eq_or_imp, forall_eq]
    exact ⟨by decide, by decide⟩
  obtain ⟨program, reads⟩ : ∃ program, Compiler.readSource
      (wrap .boxed decls (Ledger.renderLines entries) "c").source = .ok program :=
    Compiler.readSource_of_chars (boxed_source decls entries "c") (by decide +kernel)
  exact ⟨decls, entries, program, parsed, rfl, rfl, worded, reads,
    (wrap_encloses .boxed (by decide) parsed (by decide) worded reads).2.2⟩

end Wrapper

end ScriptShell
