import ScriptShell.Proofs.Parsing.Mentions
import ScriptShell.Proofs.Printing.Units
import ScriptShell.Proofs.Splitting.Coverage
import ScriptShell.Proofs.Text.Sorted

/-!
The names that a declaration refers to. They are collected from its tokens, while names are looked
up from its tree. Read as a member, in whatever surroundings, a declaration looks up only names that
it refers to; so the imports that are rendered for a fragment hold an entry for each of them that
the ledger has one for.
-/
namespace ScriptShell

open Lexer

namespace Fragment

theorem identifiers_glyphs {tokens others : List Token} (dot : Bool)
    (same : tokens.map Token.glyph = others.map Token.glyph) :
    identifiers dot tokens = identifiers dot others := by
  induction tokens generalizing others dot with
  | nil =>
    obtain rfl : others = [] := List.map_eq_nil_iff.mp same.symm
    rfl
  | cons token tokens ih =>
    obtain ⟨other, others, rfl, first, rest⟩ := List.map_eq_cons_iff.mp same.symm
    have kind : other.kind = token.kind := congrArg Prod.fst first
    have lexeme : other.lexeme = token.lexeme := congrArg Prod.snd first
    rw [identifiers, identifiers, kind, lexeme, ih _ rest.symm]

end Fragment

namespace Cursor

/-- What is looked up in front of a tail is mentioned in front of it. -/
theorem At.mentioned {c d : Cursor} {part tail : List Token} {names : List String}
    (h : c.At (part.map Token.glyph) tail) (read : c.Mentions d names) (within : tail <:+ d.rest) :
    names ⊆ Fragment.identifiers false part := by
  obtain ⟨own, split, spelled⟩ := h
  obtain ⟨front, before, stops, mentioned⟩ := read
  obtain ⟨more, behind⟩ := within
  have parts : own = front ++ more := by
    rw [← List.append_left_inj tail, ← split, before, ← behind, List.append_assoc]
  rw [← Fragment.identifiers_glyphs false spelled, parts,
    Fragment.identifiers_append more false stops fun _ => rfl]
  exact List.Subset.trans mentioned (List.subset_append_left ..)

end Cursor

namespace Parser

open Cursor Fragment

theorem valBinding_mentioned {c : Cursor} {name : String} {part tail : List Token}
    (h : c.At (resultGlyphs name ++ part.map Token.glyph) tail) {p : Parsed ValBinding c}
    (read : valBinding c = .ok p) (within : tail <:+ p.cursor.rest) :
    p.value.ascription.toList.flatMap TypeRef.lookups ++ p.value.init.lookups ⊆
      identifiers false part := by
  unfold valBinding at read
  obtain ⟨keyword, word, read⟩ := Except.bind_ok.mp read
  obtain ⟨title, named, read⟩ := Except.bind_ok.mp read
  obtain ⟨type, ascribed, read⟩ := Except.bind_ok.mp read
  obtain ⟨assign, mark, read⟩ := Except.bind_ok.mp read
  obtain ⟨init, value, read⟩ := Except.bind_ok.mp read
  cases read
  have first := At.next (c := c) h (by simp)
  rw [← (expectWord_ok word).2.2] at first
  have plain := (calm_result name).joined (wordGlyph name.toList) (by simp [resultGlyphs])
  have second := first.next (TokenKind.ne_newline plain)
  rw [← (expectName_ok named).2.2] at second
  -- the name has no type behind it
  have bare : type.value = none ∧ type.cursor = title.cursor := by
    have kind : title.cursor.kind = .punct .assign := second.kind (by simp)
    unfold ascription at ascribed
    rw [if_neg (by simp [kind])] at ascribed
    cases ascribed
    exact ⟨rfl, rfl⟩
  have third := second.next (by simp)
  rw [← bare.2, ← (expectMark_ok mark).2.2] at third
  have body : assign.cursor.Mentions init.cursor init.value.lookups :=
    (expr_mentions value).after (mentions_skipNewlines _)
  simpa [bare.1] using third.mentioned body within

/-- An expression behind the name of its value. -/
theorem result_mentioned {c : Cursor} {name : String} {part tail : List Token}
    (h : c.At (resultGlyphs name ++ part.map Token.glyph) tail) {p : Parsed Member c}
    (read : member c = .ok p) (within : tail <:+ p.cursor.rest) :
    p.value.lookups ⊆ identifiers false part := by
  have word : c.kind = .keyword .kwVal := h.kind (by simp)
  have bare : modifiers {} c = ⟨{}, c, .refl c⟩ := modifiers_of_none (by rw [word]; rfl)
  have way := member_at read
  generalize p.value = value, p.cursor = d at way within
  cases way with
  | imports other => rw [word] at other; cases other
  | func other => rw [bare, word] at other; cases other
  | foreign outside => rw [bare] at outside; cases outside
  | @container kind _ other => rw [bare, word] at other; cases kind <;> cases other
  | expr _ read =>
    have opens := (expr_phrase read).opens
    rw [bare, word] at opens
    cases opens
  | val _ _ read _ ascribed defined =>
    have start : (modifiers {} c).cursor.At (resultGlyphs name ++ part.map Token.glyph) tail := by
      rw [bare]
      exact h
    simpa only [Member.lookups, ValDecl.lookups, ascribed, defined] using
      valBinding_mentioned start read within

end Parser

namespace Fragment

theorem written_glyphs {tokens : List Token} {glyphs : List Glyph}
    (spelled : tokens.map Token.glyph = glyphs ++ [(.endOfInput, "")])
    (solid : ∀ glyph ∈ glyphs, glyph.1 ≠ .endOfInput) :
    (written tokens).map Token.glyph = glyphs := by
  rw [map_glyph_written, spelled, List.filter_append,
    List.filter_eq_self.mpr (by simpa using solid)]
  exact List.append_nil _

/-- Read as a member, the text looks up no other names than these. -/
def LooksUp (text : String) (names : List String) : Prop :=
  ∃ tokens, tokenize text = .ok tokens ∧ ∀ {c : Cursor} {tail : List Token} {p : Parsed Member c},
    c.At ((written tokens).map Token.glyph) tail → Parser.member c = .ok p →
    tail <:+ p.cursor.rest → p.value.lookups ⊆ names

theorem LooksUp.sorted {text : String} {names : List String} (h : LooksUp text names) :
    LooksUp text (sortNames names) := by
  obtain ⟨tokens, lexes, within⟩ := h
  exact ⟨tokens, lexes, fun start read ahead name mem =>
    mem_sortNames.mpr (within start read ahead mem)⟩

namespace Placed

variable {source : String} {part : List Token}

theorem glyphs_solid (h : Placed source part) :
    ∀ glyph ∈ part.map Token.glyph, glyph.1 ≠ .endOfInput := by
  intro glyph mem
  obtain ⟨token, among, rfl⟩ := List.mem_map.mp mem
  exact h.solid token among

/-- A statement that is no expression, as it stands. -/
theorem definition_looksUp (h : Placed source part) :
    LooksUp (spanText source part) (identifiers false part) := by
  obtain ⟨tokens, lexes, spelled⟩ := h.tokens
  refine ⟨tokens, lexes, fun start read within => ?_⟩
  rw [written_glyphs spelled h.glyphs_solid] at start
  exact start.mentioned (Parser.member_mentions read) within

/-- An expression, as the definition of its result. -/
theorem expression_looksUp (h : Placed source part) {name : String} (named : IsWord name.toList) :
    LooksUp ("val " ++ name ++ " = " ++ spanText source part) (identifiers false part) := by
  have whole := h.respells true [] (by simp)
  rw [List.append_nil, spell_nil] at whole
  have front := spells_result named (spanText source part).toList
  rw [whole] at front
  obtain ⟨tokens, lexes, spelled⟩ := tokenize_of_spell
    (by rw [String.toList_append]; exact front)
  refine ⟨tokens, lexes, fun start read within => ?_⟩
  have solid : ∀ glyph ∈ resultGlyphs name ++ part.map Token.glyph, glyph.1 ≠ .endOfInput := by
    rw [List.forall_mem_append]
    exact ⟨(calm_result name).solid, h.glyphs_solid⟩
  rw [written_glyphs (by simpa using spelled) solid] at start
  exact Parser.result_mentioned start read within

end Placed

theorem declarationsFrom_looksUp {source line : String}
    (letters : ∀ c ∈ line.toList, Ascii.isWord c = true) {several : Bool} {index : Nat}
    {parts : List (List Token)} (placed : ∀ part ∈ parts, Placed source part) :
    ∀ decl ∈ declarationsFrom source line several index parts,
      LooksUp decl.code decl.references := by
  induction parts generalizing index with
  | nil => simp [declarationsFrom]
  | cons part parts ih =>
    have own := placed part List.mem_cons_self
    have others : ∀ part ∈ parts, Placed source part := fun part mem =>
      placed part (List.mem_cons_of_mem _ mem)
    intro decl mem
    unfold declarationsFrom at mem
    dsimp only at mem
    split at mem
    · rcases List.mem_cons.mp mem with rfl | mem
      · exact (own.expression_looksUp (isWord_resultName letters several index)).sorted
      · exact ih others decl mem
    · rcases List.mem_cons.mp mem with rfl | mem
      · exact own.definition_looksUp.sorted
      · exact ih others decl mem

end Fragment

namespace Ledger

/-- The rendered imports hold the line of an entry whose name is referred to. -/
theorem blockFor_mem {ledger : Ledger} {entry : ImportEntry} {names : List String}
    (live : entry ∈ ledger.entries) (named : entry.name ∈ names) :
    ∃ front back, ledger.blockFor names =
      renderLines front ++ (entry.render ++ "\n" ++ renderLines back) := by
  have kept : entry ∈ ledger.entries.filter (needed names) :=
    List.mem_filter.mpr ⟨live, by simp [needed, named]⟩
  obtain ⟨front, back, split⟩ := List.append_of_mem kept
  refine ⟨front, back, ?_⟩
  rw [blockFor, split]
  clear split kept
  induction front with
  | nil => simp [renderLines]
  | cons first rest ih => simp [renderLines, ih, String.append_assoc]

end Ledger

namespace Fragment

/-- A fragment refers to every name that its declarations look up: read as a member, the code of a
declaration looks up only names that the declaration refers to, and the imports for the fragment
hold the entry of each of them. -/
theorem references_cover {source line : String} {decls : List Decl} (valid : IsLine line)
    (h : parse source line = .declarations decls) {decl : Decl} (mem : decl ∈ decls) :
    ∃ tokens, tokenize decl.code = .ok tokens ∧
      ∀ {c : Cursor} {tail : List Token} {p : Parsed Member c},
        c.At ((written tokens).map Token.glyph) tail → Parser.member c = .ok p →
        tail <:+ p.cursor.rest →
        p.value.lookups ⊆ decl.references ∧
        ∀ (ledger : Ledger), ∀ entry ∈ ledger.entries, entry.name ∈ p.value.lookups →
          ∃ front back, ledger.blockFor (decls.flatMap (·.references)) =
            Ledger.renderLines front ++ (entry.render ++ "\n" ++ Ledger.renderLines back) := by
  obtain ⟨front, stop, lexes, -, solid, closed, rfl⟩ := parse_declarations h
  obtain ⟨tokens, own, within⟩ := declarationsFrom_looksUp valid.sanitize
    (statements_placed lexes solid closed) decl mem
  refine ⟨tokens, own, fun start read ahead => ?_⟩
  have covered := within start read ahead
  refine ⟨covered, fun ledger entry live named => Ledger.blockFor_mem live ?_⟩
  exact List.mem_flatMap.mpr ⟨decl, mem, covered named⟩

/-- The start of a lexed text stands in front of its tokens. -/
theorem ofTokens_written {text : String} {tokens : List Token} (h : tokenize text = .ok tokens) :
    (Cursor.ofTokens tokens).At ((written tokens).map Token.glyph) [] := by
  obtain ⟨front, stop, rfl, ends, solid⟩ := (lexed_of_tokenize h).ending
  have start : Cursor.ofTokens (front ++ [stop]) = ⟨front, stop, 0, ends⟩ := by
    simp [Cursor.ofTokens, ends]
  rw [written_ending ends solid, start]
  exact ⟨front, by simp, rfl⟩

/-- A written type, a construction, and selections across parentheses and lines. -/
theorem references_cover_selections : ∃ tokens p,
    tokenize "val x: lib.T = new a.B(c.d).e\n.f + (g)" = .ok tokens ∧
    Parser.member (Cursor.ofTokens tokens) = .ok p ∧
    p.value.lookups = ["lib", "a", "c", "g"] ∧ p.value.lookups ⊆ ["a", "c", "g", "lib", "x"] := by
  have known : parse "val x: lib.T = new a.B(c.d).e\n.f + (g)" "1" = .declarations
      [⟨"val x: lib.T = new a.B(c.d).e\n.f + (g)", [.identity "x"], ["a", "c", "g", "lib", "x"]⟩] := by
    decide +kernel
  have read : (tokenize "val x: lib.T = new a.B(c.d).e\n.f + (g)").toOption.bind (fun tokens =>
      (Parser.member (Cursor.ofTokens tokens)).toOption.map (·.value.lookups)) =
        some ["lib", "a", "c", "g"] := by
    decide +kernel
  obtain ⟨tokens, lexes, covers⟩ := references_cover (by decide) known (List.mem_singleton_self _)
  rw [lexes] at read
  cases parsed : Parser.member (Cursor.ofTokens tokens) with
  | error error => rw [Except.toOption, Option.bind_some, parsed] at read; cases read
  | ok p =>
    rw [Except.toOption, Option.bind_some, parsed] at read
    exact ⟨tokens, p, lexes, parsed, Option.some.inj read,
      (covers (ofTokens_written lexes) parsed (List.nil_suffix)).1⟩

end Fragment

end ScriptShell
