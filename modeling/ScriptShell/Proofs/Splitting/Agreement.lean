import ScriptShell.Proofs.Lexing.Lines
import ScriptShell.Proofs.Splitting.Coverage
import ScriptShell.Proofs.Splitting.Pasted

/-!
The splitter and the parser agree. A fragment that the parser accepts as the body of a module has
one statement for each member of that module, and the module that a wrapper makes of the statements
has the same members, with a named value for each bare expression. There is one exception: behind
the condition of an `if` the parser skips a newline at which the splitter ends the statement.
-/
namespace ScriptShell

open Lexer Fragment Printer ScriptShell.Parser

section Members

theorem Member.isExpr_unplaced (own : Member) : own.unplaced.isExpr = own.isExpr := by
  cases own <;> rfl

theorem Member.result_unplaced (name : String) (own : Member) :
    (own.result name).unplaced = own.unplaced.result name := by
  cases own <;> rfl

theorem Member.results_unplaced (line : String) (several : Bool) (index : Nat)
    (own : List Member) : unplacedAll (results line several index own) =
      results line several index (unplacedAll own) := by
  induction own generalizing index with
  | nil => rfl
  | cons first rest ih =>
    rw [results, unplacedAll, unplacedAll, results, ih, result_unplaced, isExpr_unplaced]

/-- The number of bare expressions does not depend on places. -/
theorem Member.exprs_unplaced (own : List Member) :
    ((unplacedAll own).filter isExpr).length = (own.filter isExpr).length := by
  rw [unplacedAll_eq, List.filter_map, List.length_map]
  congr 2
  funext value
  exact isExpr_unplaced value

end Members

/-- A source is read by lexing and parsing it. -/
theorem Compiler.readSource_of {source : String} {tokens : List Token} {program : Program}
    (lexes : tokenize source = .ok tokens) (parses : parseProgram tokens = .ok program) :
    readSource source = .ok program := by
  unfold readSource
  rw [lexes]
  simp only [parses]

section Units

variable {name : String} {phrases : List (List Glyph)} {values : List Member}

theorem isName_main (named : IsName name) : IsName (name ++ "$Main") := by
  refine ⟨isWord_suffix named.1 (by decide), List.find?_eq_none.mpr fun keyword _ => ?_⟩
  have dollar : '$' ∈ (name ++ "$Main").toList := by simp
  have plain : '$' ∉ keyword.text.toList := by cases keyword <;> decide
  intro same
  rw [← of_decide_eq_true same] at dollar
  exact plain dollar

/-- A module that a wrapper writes is read with the members of its lines. -/
theorem block_reads (exported : Bool) (named : IsName name)
    (each : List.Forall₂ LineReads phrases values) :
    ReadsAs (blockGlyphs exported .moduleKind name.toList (lined phrases))
      (.item (.mk .anywhere .moduleKind name exported [] values)) where
  opens := by cases exported <;> exact ⟨_, _, rfl, .inr rfl⟩
  reads {c tail} stands _ := by
    have shown : blockGlyphs exported .moduleKind name.toList (lined phrases) =
        flag exported .kwExport ++ ContainerKind.moduleKind.word.glyph :: Printer.named name ::
          Punct.openBrace.glyph :: Printer.line :: (lined phrases ++ [Punct.closeBrace.glyph]) := by
      simp [blockGlyphs, heading, flag, named.glyph, Keyword.glyph, Punct.glyph, Punct.text,
        Printer.line]
    rw [shown] at stands
    exact topLevel_item stands fun start =>
      container_at .moduleKind [] (by simp) (by simp) each start

/-- A wrapper around lines that are read is lexed and parsed into a unit that exports a module with
the members of these lines. -/
theorem flat_reads {decls : List Decl} (named : IsName name)
    (spells : Spells false (paragraph (decls.map (·.code.toList))) (lined phrases) false)
    (each : List.Forall₂ LineReads phrases values)
    (shows : ∀ decl ∈ decls, ∀ item ∈ decl.display,
      item.OneLine ∧ ∀ shown, item = .identity shown → IsName shown) :
    ∃ unit, Compiler.readSource (Wrapper.flat displayCode decls "" name).source = .ok unit ∧
      unit.imports = [] ∧ ∃ main exported, unit.items = [main, exported] ∧
        exported.title = ⟨.moduleKind, name, true⟩ ∧ exported.params = [] ∧
        Member.unplacedAll exported.members = values := by
  have items : ∀ item ∈ decls.flatMap (·.display),
      item.OneLine ∧ ∀ shown, item = .identity shown → IsName shown := by
    intro item mem
    obtain ⟨decl, among, own⟩ := List.mem_flatMap.mp mem
    exact shows decl among item own
  obtain ⟨phrase, value, shown, reads⟩ := showLine_reads named (fun item mem => (items item mem).1)
    fun name mem => (items _ mem).2 name rfl
  have main := isName_main named
  have inner : Spells false (paragraph [(showLine (decls.flatMap (·.display)) name).toList])
      (lined [phrase]) false := by
    simpa [paragraph, lined] using shown
  have first := spells_block false .moduleKind main.1 inner
  have second := spells_block true .moduleKind named.1 spells
  have whole : Spells false (Wrapper.flat displayCode decls "" name).source.toList
      (lined [blockGlyphs false .moduleKind (name ++ "$Main").toList (lined [phrase]),
        blockGlyphs true .moduleKind name.toList (lined phrases)]) false := by
    have text := flat_source decls [] name
    have gap : Spells false ['\n'] [] false := spells_newline
    have all := gap.append (first.append second)
    rw [show Ledger.renderLines [] = "" from rfl] at text
    rw [text]
    simpa [flatBlocks, Block.text, paragraph, lined, Printer.line, Function.comp_def] using all
  have spelled := whole []
  rw [List.append_nil, spell_nil] at spelled
  obtain ⟨tokens, lexes, glyphs⟩ := tokenize_of_spell spelled
  obtain ⟨span, found, parses, same⟩ := parseProgram_lined glyphs
    (.cons (block_reads false main (.cons reads .nil)) (.cons (block_reads true named each) .nil))
  have read := Compiler.readSource_of lexes parses
  obtain ⟨a, b, rfl⟩ := List.length_eq_two.mp (by simpa using congrArg List.length same)
  simp only [List.map_cons, List.map_nil, List.cons.injEq, and_true] at same
  cases a with
  | imports decl => cases same.1
  | item shows =>
    cases b with
    | imports decl => cases same.2
    | item exported =>
      have own : exported.unplaced = .mk .anywhere .moduleKind name true [] values :=
        TopLevel.item.inj same.2
      obtain ⟨span, kind, title, visible, params, members⟩ := exported
      simp only [Container.unplaced, Container.mk.injEq, List.map_eq_nil_iff, true_and] at own
      obtain ⟨rfl, rfl, rfl, rfl, own⟩ := own
      exact ⟨_, read, rfl, shows, _, rfl, rfl, rfl, own⟩

end Units

/-- The text of a module with the given body. -/
def moduleText (body : String) : String := "module m \x7b\n" ++ body ++ "\n\x7d"

/-- The tokens in front of the body of that module. -/
def moduleGlyphs : List Glyph :=
  [Keyword.kwModule.glyph, named "m", Punct.openBrace.glyph, Printer.line]

/-- The newline behind the body, if it counts. -/
structure Seam (front seam : List Token) : Prop where
  newlines : ∀ line ∈ seam, line.kind = .newline
  counts : seam ≠ [] → breaksAfter front = true
  few : seam.length ≤ 1

/-- The tokens of the module are those of its body between its own. -/
theorem tokenize_module {source : String} {tokens : List Token}
    (h : tokenize (moduleText source) = .ok tokens) :
    ∃ front stop seam closing, tokenize source = .ok (front ++ [stop]) ∧ stop.kind = .endOfInput ∧
      (∀ token ∈ front, token.kind ≠ .endOfInput) ∧ Seam front seam ∧
      closing.kind = .punct .closeBrace ∧
      tokens.map Token.glyph = (moduleGlyphs ++ (front ++ (seam ++ [closing])).map Token.glyph) ++
        [(.endOfInput, "")] := by
  have upper : tokenize "module m \x7b" = .ok [⟨.keyword .kwModule, "module", ⟨1, 1, 7, 0, 6⟩⟩,
      ⟨.identifier, "m", ⟨1, 8, 9, 7, 8⟩⟩, ⟨.punct .openBrace, "\x7b", ⟨1, 10, 11, 9, 10⟩⟩,
      ⟨.endOfInput, "", ⟨1, 11, 11, 10, 10⟩⟩] := by decide +kernel
  have lower : tokenize "\x7d" = .ok [⟨.punct .closeBrace, "\x7d", ⟨1, 1, 2, 0, 1⟩⟩,
      ⟨.endOfInput, "", ⟨1, 2, 2, 1, 1⟩⟩] := by decide +kernel
  have text : moduleText source = "module m \x7b" ++ "\n" ++ (source ++ "\n" ++ "\x7d") := by
    apply String.toList_inj.mp
    simp [moduleText]
  rw [text, tokenize_below upper] at h
  cases inner : tokenize source with
  | error error =>
    obtain ⟨other, stuck⟩ := tokenize_stuck inner "\x7d"
    rw [stuck] at h
    cases h
  | ok own =>
    obtain ⟨front, stop, rfl, ends, solid⟩ := (lexed_of_tokenize inner).ending
    rw [tokenize_below inner, lower] at h
    cases h
    have kept : (front ++ [stop]).filter (·.kind ≠ .endOfInput) = front := written_ending ends solid
    have lowered (lines bytes : Nat) (tokens : List Token) :
        (tokens.map (Token.lowered lines bytes)).map Token.glyph = tokens.map Token.glyph := by
      simp [Token.lowered, Token.glyph, Function.comp_def]
    refine ⟨front, stop, if breaksAfter front then
        [⟨.newline, "\\n", (Position.behind source.toList).span 1⟩] else [],
      ⟨.punct .closeBrace, "\x7d", ⟨1, 1, 2, 0, 1⟩⟩, rfl, ends, solid, ?_, rfl, ?_⟩
    · split
      · next counts => exact ⟨by simp, fun _ => counts, by simp⟩
      · exact ⟨by simp, by simp, by simp⟩
    · rw [joinLines, List.map_append, lowered, joinLines]
      simp only [kept, List.map_append, lowered, List.append_assoc]
      rfl

namespace Parser

open Cursor

/-- A unit with a single module or class is read from its first token to its last one. -/
theorem parseProgram_single {tokens : List Token} {program : Program} {own : Container}
    (h : parseProgram tokens = .ok program) (imports : program.imports = [])
    (items : program.items = [own]) :
    ∃ p : Parsed TopLevel (Cursor.ofTokens tokens).skipSeparators,
      topLevel (Cursor.ofTokens tokens).skipSeparators = .ok p ∧ p.value = .item own ∧
      p.cursor.skipSeparators.kind = .endOfInput := by
  unfold parseProgram at h
  obtain ⟨found, read, h⟩ := Except.bind_ok.mp h
  cases h
  have none {rest : List TopLevel} (items : rest.filterMap TopLevel.item? = [])
      (imports : rest.filterMap TopLevel.import? = []) : rest = [] := by
    cases rest with
    | nil => rfl
    | cons first rest => cases first <;> simp [TopLevel.item?, TopLevel.import?] at items imports
  have single : found = [.item own] := by
    have imports : found.filterMap TopLevel.import? = [] := imports
    have items : found.filterMap TopLevel.item? = [own] := items
    cases found with
    | nil => cases items
    | cons first rest =>
      cases first with
      | imports decl => cases imports
      | item decl =>
        obtain ⟨rfl, left⟩ := List.cons.inj items
        rw [none left imports]
  subst single
  unfold topLevels at read
  split at read
  · cases read
  · obtain ⟨first, one, read⟩ := Except.bind_ok.mp read
    split at read
    · obtain ⟨rest, more, read⟩ := Except.bind_ok.mp read
      obtain ⟨value, rfl⟩ := List.cons.inj (Except.ok.inj read)
      refine ⟨first, one, value, ?_⟩
      unfold topLevels at more
      split at more
      · assumption
      · obtain ⟨second, -, more⟩ := Except.bind_ok.mp more
        split at more
        · obtain ⟨_, -, more⟩ := Except.bind_ok.mp more
          cases more
        · cases more
    · cases read

/-- Where only the end of the input is left behind separators, all tokens that are left are
separators. -/
theorem separators_of_end {c : Cursor} (outside : c.depth = 0)
    (ends : c.skipSeparators.kind = .endOfInput) (solid : ∀ token ∈ c.rest, token.kind ≠ .endOfInput) :
    ∀ token ∈ c.rest, token.kind.isSeparator = true := by
  have none : c.rest.dropWhile (·.kind.isSeparator) = [] := by
    by_contra some
    obtain ⟨token, more, shown⟩ := List.exists_cons_of_ne_nil some
    have kind : c.skipSeparators.kind = token.kind := kind_of_rest (c := c.skipSeparators) outside shown
    have among : token ∈ c.rest := (List.dropWhile_sublist _).subset (shown ▸ List.mem_cons_self)
    exact solid token among (kind.symm.trans ends)
  simpa [List.dropWhile_eq_nil_iff] using none

/-- The only token of a list at the end of another one. -/
theorem single_of_suffix {front tail : List Token} {token next : Token} (split : tail = [next])
    (within : tail <:+ front ++ [token]) : tail = [token] := by
  obtain ⟨more, whole⟩ := within
  rw [split] at whole ⊢
  exact (List.append_inj' whole rfl).2

section Module

variable {body tokens : List Token} {closing : Token} {program : Program} {own : Container}

/-- The members of a module that is a unit of its own are read from the tokens between its braces,
up to the last one. -/
theorem parseProgram_module (glyphs : tokens.map Token.glyph =
      (moduleGlyphs ++ (body ++ [closing]).map Token.glyph) ++ [(.endOfInput, "")])
    (solid : ∀ token ∈ body, token.kind ≠ .endOfInput) (closes : closing.kind = .punct .closeBrace)
    (parses : parseProgram tokens = .ok program) (imports : program.imports = [])
    (items : program.items = [own]) :
    ∃ (c : Cursor) (r : Extended (List Member) c.skipSeparators) (line : Token) (inner : List Token)
      (last : Token), c.depth = 0 ∧ c.rest = line :: (inner ++ [last]) ∧ line.kind = .newline ∧
      inner.map Token.glyph = body.map Token.glyph ∧ last.glyph = closing.glyph ∧
      members c.skipSeparators = .ok r ∧ r.cursor.rest = [last] ∧ own.members = r.value := by
  obtain ⟨start, outside⟩ := Cursor.ofTokens_at glyphs
  obtain ⟨p, read, same, ends⟩ := parseProgram_single parses imports items
  have place := At.skipSeparators (c := Cursor.ofTokens tokens) start rfl
  rw [← place] at start outside
  generalize (Cursor.ofTokens tokens).skipSeparators = c at start outside p
  have way := topLevel_at read
  have kind : c.kind = .keyword .kwModule := At.wordKind start
  obtain ⟨whole, split, shown⟩ := start
  obtain ⟨word, whole, rfl, -, shown⟩ := List.map_eq_cons_iff.mp shown
  obtain ⟨name, whole, rfl, -, shown⟩ := List.map_eq_cons_iff.mp shown
  obtain ⟨brace, whole, rfl, braces, shown⟩ := List.map_eq_cons_iff.mp shown
  obtain ⟨line, whole, rfl, lines, shown⟩ := List.map_eq_cons_iff.mp shown
  have shown : whole.map Token.glyph = body.map Token.glyph ++ [closing.glyph] := by
    simpa using shown
  obtain ⟨inner, back, rfl, inners, backs⟩ := List.map_eq_append_iff.mp shown
  obtain ⟨last, rfl, lasts⟩ := List.map_eq_singleton_iff.mp backs
  have newline : line.kind = .newline := congrArg Prod.fst lines
  have final : last.kind = .punct .closeBrace := (congrArg Prod.fst lasts).trans closes
  have solids : ∀ token ∈ line :: (inner ++ [last]), token.kind ≠ .endOfInput := by
    rw [List.forall_mem_cons, List.forall_mem_append, List.forall_mem_singleton]
    refine ⟨by simp [newline], fun token mem => ?_, by simp [final]⟩
    have among : token.glyph ∈ body.map Token.glyph := inners ▸ List.mem_map_of_mem mem
    obtain ⟨other, own, alike⟩ := List.mem_map.mp among
    have kind : other.kind = token.kind := congrArg Prod.fst alike
    exact kind ▸ solid other own
  generalize p.value = value, p.cursor = e at way same ends
  cases way with
  | imports word read => rw [kind] at word; cases word
  | @item start exported _ decl front one =>
    obtain ⟨-, rfl⟩ | ⟨-, word, -⟩ := front
    · rw [List.append_nil] at split
      obtain ⟨-, d, r, depth, rest, read, members, shuts, behind⟩ :=
        container_inner (congrArg Prod.fst braces) outside (List.length_eq_two.mpr ⟨word, name, rfl⟩)
          split one
      cases same
      refine ⟨d, r, line, inner, last, depth, rest, newline, inners, lasts, read, ?_, members⟩
      have within : r.cursor.rest <:+ (line :: inner) ++ [last] := by
        have own := r.reaches.rest.trans (reaches_skipSeparators d).rest
        rwa [rest] at own
      have reached : r.cursor.depth = 0 := r.reaches.depth.trans depth
      obtain ⟨between, -, none, seen⟩ := rest_next (c := r.cursor) (by simp [shuts])
      rw [none reached, List.nil_append, ← behind] at seen
      -- behind the closing brace stand separators only, so that it is the last token
      have left : decl.cursor.rest = [] := by
        by_contra some
        have suffix : decl.cursor.rest <:+ (line :: inner) ++ [last] :=
          (List.suffix_cons _ _).trans (seen ▸ within)
        have ⟨more, whole⟩ := suffix
        have ending : last ∈ decl.cursor.rest := by
          refine List.mem_of_getLast? (a := last) ?_
          rw [← List.getLast?_append_of_ne_nil more some, whole, List.getLast?_concat]
        have separates := separators_of_end (decl.follows.reaches.depth.trans outside) ends
          (fun token mem => solids token (suffix.subset mem)) last ending
        rw [final] at separates
        cases separates
      rw [left] at seen
      exact single_of_suffix seen within
    · rw [kind] at word; cases word

/-- The members of the module are read again in front of the tokens of its body. -/
theorem parseProgram_body (glyphs : tokens.map Token.glyph =
      (moduleGlyphs ++ (body ++ [closing]).map Token.glyph) ++ [(.endOfInput, "")])
    (solid : ∀ token ∈ body, token.kind ≠ .endOfInput) (closes : closing.kind = .punct .closeBrace)
    (parses : parseProgram tokens = .ok program) (imports : program.imports = [])
    (items : program.items = [own]) :
    ∃ (c : Cursor) (r : Extended (List Member) c.skipSeparators), c.depth = 0 ∧
      c.rest = body ++ [closing] ∧ members c.skipSeparators = .ok r ∧ r.cursor.rest = [closing] ∧
      Member.unplacedAll r.value = Member.unplacedAll own.members := by
  obtain ⟨d, r, line, inner, last, depth, rest, newline, inners, lasts, read, closed, members⟩ :=
    parseProgram_module glyphs solid closes parses imports items
  have plain : last.kind.isSeparator = false := by
    rw [show last.kind = _ from (congrArg Prod.fst lasts).trans closes]
    rfl
  have alike : Alike [] [] d (d.behind (line :: (body ++ [closing]))) :=
    ⟨⟨by simp, rfl⟩, ⟨by simp, rfl⟩, rfl, line :: (inner ++ [last]), line :: (body ++ [closing]),
      by simp [rest], by simp [behind], by simp [inners, lasts]⟩
  have onward := alike.skipSeparators
    ⟨line :: (inner ++ [last]), by simp [rest], last, by simp, plain⟩
  have skip : (d.behind (line :: (body ++ [closing]))).skipSeparators =
      (d.behind (body ++ [closing])).skipSeparators := by
    simp [Cursor.skipSeparators, behind, newline, TokenKind.isSeparator]
  rw [skip] at onward
  obtain ⟨r', again, values, shut⟩ :=
    members_reads read ⟨[last], by simp [closed], last, by simp, plain⟩ onward
  refine ⟨d.behind (body ++ [closing]), r', depth, rfl, again, ?_, values.trans (by rw [members])⟩
  obtain ⟨front, twin, split, split', same⟩ := shut.rest
  obtain rfl : front = [last] := by simpa [closed] using split.symm
  obtain ⟨next, rfl, -⟩ := List.map_eq_singleton_iff.mp same
  exact single_of_suffix (by simpa using split')
    (r'.reaches.rest.trans (reaches_skipSeparators (d.behind (body ++ [closing]))).rest)

end Module

end Parser

section Body

variable {front seam : List Token}

theorem Seam.single (h : Seam front seam) (breaks : Single front) : Single (front ++ seam) := by
  refine List.isChain_append.mpr ⟨breaks, ?_, ?_⟩
  · have few := h.few
    match seam, few with
    | [], _ | [_], _ => simp
  · rintro last ends line first ⟨newline, -⟩
    have counts := h.counts (by rintro rfl; cases first)
    rw [breaksAfter, Option.mem_def.mp ends] at counts
    simp [newline] at counts

/-- No condition stands in front of the newline at the end. -/
theorem Seam.tests (h : Seam front seam) (tests : BreaksTest (front ++ seam)) : BreaksTest front := by
  obtain ⟨own, line, back, split, newline, some, balanced, test⟩ := tests
  have few := h.few
  rcases List.append_eq_append_iff.mp split with ⟨more, rfl, rfl⟩ | ⟨more, rfl, tail⟩
  · exact absurd (List.length_eq_zero_iff.mp (by simp at few; omega)) some
  · cases more with
    | nil =>
      rw [List.nil_append] at tail
      rw [← tail] at few
      exact absurd (List.length_eq_zero_iff.mp (by simpa using few)) some
    | cons next more =>
      obtain ⟨rfl, rfl⟩ := List.cons.inj tail
      by_cases none : more = []
      · subst none
        have counts := h.counts (by simpa using some)
        simp [breaksAfter, newline] at counts
      · exact ⟨own, line, more, rfl, newline, none, balanced, test⟩

namespace Fragment

/-- The members of a body are read from parts of its text. -/
theorem body_spaced {source : String} {stop closing : Token}
    (lexes : tokenize source = .ok (front ++ [stop])) (seams : Seam front seam)
    (tests : ¬ BreaksTest front) {c : Cursor} {r : Extended (List Member) c.skipSeparators}
    (outside : c.depth = 0) (split : c.rest = (front ++ seam) ++ [closing])
    (read : members c.skipSeparators = .ok r) (last : r.cursor.rest = [closing]) :
    ∃ parts, Spaced parts front ∧ List.Forall₂ MemberAhead parts r.value := by
  let gap := c.rest.takeWhile (·.kind.isSeparator)
  have gaps : ∀ mark ∈ gap, mark.kind.isSeparator = true :=
    fun mark mem => by simpa using List.mem_takeWhile_imp mem
  obtain ⟨inner, own⟩ := r.reaches.rest
  have whole : gap ++ inner = front ++ seam := by
    refine (List.append_left_inj r.cursor.rest).mp ?_
    rw [List.append_assoc, own, last, ← split]
    exact List.takeWhile_append_dropWhile
  have breaks : Single (front ++ [stop]) := (lexed_of_tokenize lexes).breaks.1
  have single : Single (gap ++ inner) := whole ▸ seams.single breaks.left_of_append
  obtain ⟨-, parts, spaced, members⟩ := members_spaced (c := c.skipSeparators) outside read own.symm
    single.right_of_append fun inside => tests (seams.tests (by
      have around := inside.around (balanced_separators gaps) []
      rwa [List.append_nil, whole] at around))
  have full := spaced.gap gaps
  rw [whole] at full
  exact ⟨parts, full.trim fun mark mem => by rw [seams.newlines mark mem]; rfl, members⟩

theorem Spaced.whole {parts : List (List Token)} {tokens : List Token} (h : Spaced parts tokens) :
    ∀ part ∈ parts, Whole part := by
  induction h with
  | nil => simp
  | cons separates own edge stops others ih => exact List.forall_mem_cons.mpr ⟨own, ih⟩

variable {source : String} {parts : List (List Token)} {values : List Member}

theorem Holds.all (ahead : List.Forall₂ MemberAhead parts values)
    (placed : ∀ part ∈ parts, Placed source part) (whole : ∀ part ∈ parts, Whole part) :
    List.Forall₂ (Holds source) parts values := by
  induction ahead with
  | nil => exact .nil
  | cons own others ih =>
    rw [List.forall_mem_cons] at placed whole
    exact .cons ⟨placed.1, whole.1, own⟩ (ih placed.2 whole.2)

theorem filter_isExpression (ahead : List.Forall₂ MemberAhead parts values) :
    (parts.filter isExpression).length = (values.filter Member.isExpr).length := by
  induction ahead with
  | nil => rfl
  | cons own others ih =>
    rw [List.filter_cons, List.filter_cons, own.isExpression]
    split <;> simp [ih]

end Fragment

end Body

namespace Fragment

/-- The splitter agrees with the parser on a body that the parser accepts, if no newline stands
behind the condition of an `if`. A body without members is blank. Otherwise the fragment has one
declaration for each member, and the module that is made of the declarations has these members, with
a named value for each bare expression. -/
theorem parse_agrees {source : String} (line : String) {program : Program} {own : Container}
    (valid : IsLine line) (reads : Compiler.readSource (moduleText source) = .ok program)
    (imports : program.imports = []) (items : program.items = [own])
    (tests : ∀ tokens, tokenize source = .ok tokens → ¬ BreaksTest (written tokens)) :
    (own.members = [] → parse source line = .blank) ∧
    (own.members ≠ [] → ∃ decls, parse source line = .declarations decls ∧
      decls.length = own.members.length ∧
      ∀ candidate, IsName (sanitize candidate) → ∃ unit,
        Compiler.readSource (Wrapper.wrap .object decls "" candidate).source = .ok unit ∧
        unit.imports = [] ∧ ∃ main exported, unit.items = [main, exported] ∧
        exported.title = ⟨.moduleKind, sanitize candidate, true⟩ ∧ exported.params = [] ∧
        Member.unplacedAll exported.members = Member.unplacedAll (Member.results (sanitize line)
          ((own.members.filter Member.isExpr).length > 1) 0 own.members)) := by
  obtain ⟨tokens, lexed, parsed⟩ := Compiler.readSource_ok reads
  obtain ⟨front, stop, seam, closing, lexes, ends, solid, seams, closes, glyphs⟩ :=
    tokenize_module lexed
  have kept := written_ending ends solid
  have solids : ∀ token ∈ front ++ seam, token.kind ≠ .endOfInput :=
    List.forall_mem_append.mpr ⟨solid, fun token mem => by simp [seams.newlines token mem]⟩
  obtain ⟨c, r, outside, split, read, last, same⟩ := parseProgram_body
    (by simpa using glyphs) solids closes parsed imports items
  obtain ⟨parts, spaced, ahead⟩ :=
    body_spaced lexes seams (kept ▸ tests _ lexes) outside split read last
  have size : parts.length = own.members.length := by
    rw [ahead.length_eq]
    simpa [Member.unplacedAll_eq] using congrArg List.length same
  have exprs : (parts.filter isExpression).length = (own.members.filter Member.isExpr).length := by
    rw [filter_isExpression ahead, ← Member.exprs_unplaced, same, Member.exprs_unplaced]
  have found := spaced.statements
  have answer : parse source line = ofTokens source line front := by
    unfold parse
    rw [lexes]
    show ofTokens source line (written (front ++ [stop])) = _
    rw [kept]
  rw [answer]
  constructor
  · intro none
    rw [none, List.length_nil, List.length_eq_zero_iff] at size
    subst size
    cases spaced with
    | nil separates => exact if_pos (List.all_eq_true.mpr separates)
  · intro some
    have any : front.all (·.kind.isSeparator) = false := by
      refine Bool.eq_false_iff.mpr fun all => some ?_
      have none : statements front = [] := (Spaced.nil (List.all_eq_true.mp all)).statements
      rw [← List.length_eq_zero_iff, ← size, ← found, none]
      rfl
    have opened : brackets [] front = .ok [] := spaced.balanced
    have holds : List.Forall₂ (Holds source) parts r.value :=
      Holds.all ahead (found ▸ statements_placed lexes solid spaced.balanced) spaced.whole
    obtain ⟨several, known⟩ : ∃ several : Bool,
        several = decide ((own.members.filter Member.isExpr).length > 1) := ⟨_, rfl⟩
    refine ⟨declarationsFrom source (sanitize line) several 0 parts, ?_, ?_, fun candidate named => ?_⟩
    · unfold ofTokens
      rw [any, opened, spaced.closed, found, known, ← exprs]
      rfl
    · rw [declarationsFrom_length, size]
    · obtain ⟨phrases, spells, each⟩ := declarationsFrom_lines holds valid.sanitize
      rw [Member.results_unplaced, same, ← Member.results_unplaced] at each
      rw [← known]
      exact flat_reads named spells each (declarationsFrom_shows holds valid.sanitize)

end Fragment

/-- What is checked of a source from its characters holds of the program it is read as. -/
theorem Compiler.readSource_checks {source : String} {text : List Char} (same : source.toList = text)
    {check : Program → Bool} (h : (match scan .start false text with
      | .ok tokens => (parseProgram tokens).toOption.any check
      | .error _ => false) = true) : ∃ program, readSource source = .ok program ∧ check program = true := by
  have lexes : tokenize source = scan .start false text := by rw [tokenize_eq, same]
  cases scanned : scan .start false text with
  | error error => rw [scanned] at h; cases h
  | ok tokens =>
    rw [scanned] at h lexes
    cases parsed : parseProgram tokens with
    | error error => simp [parsed, Except.toOption] at h
    | ok program =>
      exact ⟨program, readSource_of lexes parsed, by simpa [parsed, Except.toOption] using h⟩

namespace Fragment

/-- Tokens with no newline behind a closing parenthesis. -/
theorem not_breaksTest {tokens : List Token} (h : tokens.IsChain fun token next =>
    ¬ (token.kind = .punct .closeParen ∧ next.kind = .newline)) : ¬ BreaksTest tokens := by
  rintro ⟨front, line, back, rfl, newline, -, -, own, word, opening, test, closing, rfl, -, -, shut, -⟩
  exact (List.isChain_append.mp h).2.2 closing (by simp [List.getLast?_cons]) line rfl ⟨shut, newline⟩

/-- A module with the given number of members. -/
theorem module_reads (source : String) (count : Nat) {text : List Char}
    (same : (moduleText source).toList = text) (h : (match scan .start false text with
      | .ok tokens => (parseProgram tokens).toOption.any fun program =>
        program.imports.isEmpty && program.items.map (·.members.length) == [count]
      | .error _ => false) = true) :
    ∃ program own, Compiler.readSource (moduleText source) = .ok program ∧ program.imports = [] ∧
      program.items = [own] ∧ own.members.length = count := by
  obtain ⟨program, reads, checked⟩ := Compiler.readSource_checks same h
  simp only [Bool.and_eq_true, List.isEmpty_iff, beq_iff_eq] at checked
  obtain ⟨own, items, size⟩ := List.map_eq_singleton_iff.mp checked.2
  exact ⟨program, own, reads, checked.1, items, size⟩

/-- An import, a condition over several lines, and a call behind a comment. -/
theorem parse_agrees_of_mixed : ∃ program own decls,
    Compiler.readSource (moduleText "import b.M; val x = 1\nif (x == 1) M\nelse // \x7d\n\x7b 2 \x7d\nx +\nf(\n3)")
      = .ok program ∧ program.imports = [] ∧ program.items = [own] ∧ own.members.length = 4 ∧
    parse "import b.M; val x = 1\nif (x == 1) M\nelse // \x7d\n\x7b 2 \x7d\nx +\nf(\n3)" "7-1" =
      .declarations decls ∧ decls.length = 4 ∧
    ∃ unit, Compiler.readSource (Wrapper.wrap .object decls "" "c").source = .ok unit ∧
      ∃ main exported, unit.items = [main, exported] ∧
        Member.unplacedAll exported.members = Member.unplacedAll (Member.results (sanitize "7-1")
          ((own.members.filter Member.isExpr).length > 1) 0 own.members) := by
  obtain ⟨program, own, reads, imports, items, size⟩ := module_reads
    "import b.M; val x = 1\nif (x == 1) M\nelse // \x7d\n\x7b 2 \x7d\nx +\nf(\n3)" 4 rfl (by decide +kernel)
  have tests : ∀ tokens,
      tokenize "import b.M; val x = 1\nif (x == 1) M\nelse // \x7d\n\x7b 2 \x7d\nx +\nf(\n3)" = .ok tokens →
        ¬ BreaksTest (written tokens) := by
    intro tokens lexes
    have chain : (match
        tokenize "import b.M; val x = 1\nif (x == 1) M\nelse // \x7d\n\x7b 2 \x7d\nx +\nf(\n3)" with
      | .ok tokens => decide ((written tokens).IsChain fun token next =>
          ¬ (token.kind = .punct .closeParen ∧ next.kind = .newline))
      | .error _ => false) = true := by decide +kernel
    rw [lexes] at chain
    exact not_breaksTest (of_decide_eq_true chain)
  obtain ⟨decls, found, same, wrapped⟩ :=
    (parse_agrees "7-1" (by decide) reads imports items tests).2
      (fun none => by simp [none] at size)
  obtain ⟨unit, read, -, main, exported, both, -, -, members⟩ := wrapped "c" (by decide)
  exact ⟨program, own, decls, reads, imports, items, size, found, same.trans size, unit, read, main,
    exported, both, members⟩

/-- Behind a condition the splitter ends a statement at a newline that the parser skips. -/
theorem parse_breaks_test : ∃ program own decls,
    Compiler.readSource (moduleText "if (1)\n2") = .ok program ∧ program.imports = [] ∧
    program.items = [own] ∧ own.members.length = 1 ∧
    parse "if (1)\n2" "0" = .declarations decls ∧ decls.length = 2 ∧
    ∀ unit, Compiler.readSource (Wrapper.wrap .object decls "" "c").source ≠ .ok unit := by
  obtain ⟨program, own, reads, imports, items, size⟩ :=
    module_reads "if (1)\n2" 1 rfl (by decide +kernel)
  have found : parse "if (1)\n2" "0" = .declarations [
      ⟨"val res0_0 = if (1)", [.identity "res0_0"], []⟩,
      ⟨"val res0_1 = 2", [.identity "res0_1"], []⟩] := by decide +kernel
  refine ⟨program, own, _, reads, imports, items, size, found, rfl, fun unit read => ?_⟩
  have fails : (Compiler.readSource (Wrapper.wrap .object [
      ⟨"val res0_0 = if (1)", [.identity "res0_0"], []⟩,
      ⟨"val res0_1 = 2", [.identity "res0_1"], []⟩] "" "c").source).isOk = false := by
    decide +kernel
  rw [read] at fails
  cases fails

end Fragment

end ScriptShell
