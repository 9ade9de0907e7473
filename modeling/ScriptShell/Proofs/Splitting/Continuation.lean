import ScriptShell.Proofs.Containment.Fragments

/-!
Fragments that grow by further lines. A shell that meets an incomplete fragment asks for another
line and reads both together. Lines behind a text never change the tokens in front of them: a
text that cannot be lexed stays so, and a closing bracket that closes nothing keeps doing so. An
incomplete fragment is completed by one more line, which closes its brackets.
-/
namespace ScriptShell

namespace Lexer

variable {more : List Char}

/-- Text behind a token can be replaced by the same text with further lines behind it. -/
theorem Replaces.further (tail : List Char) (line : more.head? = some '\n') :
    Replaces (tail ++ more) tail := by
  intro c mem
  cases tail with
  | nil => rw [List.nil_append, line] at mem; exact .inl (Option.some.inj mem).symm
  | cons d others => exact .inr mem

theorem stringBody_further {reach : Nat} {text : List Char} {flaw : Flaw}
    (h : stringBody reach text = .error flaw) (line : more.head? = some '\n') :
    ∃ other, stringBody reach (text ++ more) = .error other := by
  obtain ⟨next, rfl⟩ := List.head?_eq_some_iff.mp line
  fun_induction stringBody reach text generalizing flaw with
  | case1 reach => exact ⟨_, by rw [List.nil_append, stringBody, if_pos rfl] <;> simp⟩
  | case2 reach rest => cases h
  | case3 reach => exact ⟨⟨.invalidEscape '\n', reach + 1⟩, by simp [stringBody, unescape]⟩
  | case4 reach escaped rest unknown =>
    refine ⟨⟨.invalidEscape escaped, reach + 1⟩, ?_⟩
    rw [List.cons_append, List.cons_append, stringBody]
    simp only [unknown]
  | case5 reach escaped rest c known flaw failed ih =>
    obtain ⟨other, fails⟩ := ih failed
    rw [List.cons_append, List.cons_append, stringBody_escape known, fails]
    exact ⟨_, rfl⟩
  | case6 reach escaped rest c known value read ih => cases h
  | case7 reach rest quote alone escape =>
    refine ⟨⟨.lineBreakInString, reach⟩, ?_⟩
    rw [List.cons_append, stringBody, if_pos rfl] <;> simp
  | case8 reach c rest quote alone escape line flaw failed ih =>
    have plain : c ≠ '\\' := by
      rintro rfl
      cases rest with
      | nil => exact alone rfl rfl
      | cons first others => exact escape first others rfl rfl
    obtain ⟨other, fails⟩ := ih failed
    rw [List.cons_append, stringBody_plain quote plain line, fails]
    exact ⟨_, rfl⟩
  | case9 reach c rest quote alone escape line value read ih => cases h

theorem number_further {first : Char} {rest : List Char} {flaw : Flaw}
    (h : number first rest = .error flaw) (line : more.head? = some '\n') :
    ∃ other, number first (rest ++ more) = .error other := by
  obtain ⟨run, left⟩ := takeWhile_replaces rfl (.further (rest.dropWhile Char.isDigit) line)
  rw [← List.append_assoc, List.takeWhile_append_dropWhile] at run left
  cases tail : rest.dropWhile Char.isDigit with
  | nil =>
    rw [number_free (by simp [tail])] at h
    rw [number_free, run]
    · exact ⟨_, h⟩
    · rw [left, tail, List.nil_append, line]
      rintro c ⟨⟩
      rfl
  | cons c others =>
    unfold number at h ⊢
    simp only [run, left, tail, List.cons_append] at h ⊢
    exact ⟨_, h⟩

theorem operator_further {first : Char} {rest : List Char} {flaw : Flaw}
    (h : operator first rest = .error flaw) (line : more.head? = some '\n') :
    operator first (rest ++ more) = .error flaw := by
  cases rest with
  | nil =>
    rw [List.nil_append, operator_single, ← h]
    · exact (operator_single (by simp)).symm
    · rw [line]
      simpa using ofTwo?_newline first
  | cons second rest => exact h

/-- A lexeme that cannot be read in a text cannot be read in front of further lines either. -/
theorem lexeme_further {first : Char} {rest : List Char} {flaw : Flaw}
    (h : lexeme first rest = .error flaw) (line : more.head? = some '\n') :
    ∃ other, lexeme first (rest ++ more) = .error other := by
  unfold lexeme at h ⊢
  split at h
  · next quote =>
    split at h
    · next failed =>
      obtain ⟨other, fails⟩ := stringBody_further failed line
      simp only [if_pos quote, fails]
      exact ⟨_, rfl⟩
    · cases h
  · next quote =>
    split at h
    · cases h
    · next letter =>
      simp only [if_neg quote, if_neg letter]
      split at h
      · next digit => rw [if_pos digit]; exact number_further h line
      · next digit => rw [if_neg digit]; exact ⟨_, operator_further h line⟩

/-- Further lines do not end a comment later, nor start one. -/
theorem Opens.further {first : Char} {rest : List Char} (h : Opens first rest)
    (line : more.head? = some '\n') : Opens first (rest ++ more) := by
  obtain ⟨newline, blank, comment⟩ := h
  refine ⟨newline, blank, fun ⟨slash, second⟩ => comment ⟨slash, ?_⟩⟩
  cases rest with
  | nil => rw [List.nil_append, line] at second; cases second
  | cons c rest => exact second

theorem dropWhile_further {rest : List Char} (line : more.head? = some '\n') :
    (rest ++ more).dropWhile (· ≠ '\n') = rest.dropWhile (· ≠ '\n') ++ more := by
  obtain ⟨next, rfl⟩ := List.head?_eq_some_iff.mp line
  induction rest with
  | nil => simp
  | cons c rest ih =>
    by_cases newline : c = '\n'
    · simp [newline]
    · simpa [newline] using ih

/-- A text that cannot be lexed cannot be lexed in front of further lines either. -/
theorem scan_further {place : Position} {breakable : Bool} {text : List Char} {error : LexError}
    (h : scan place breakable text = .error error) (line : more.head? = some '\n') :
    spell breakable (text ++ more) = none := by
  fun_induction scan place breakable text generalizing error with
  | case1 => cases h
  | case2 place breakable rest error failed ih =>
    rw [List.cons_append, spell_newline, ih failed]
    rfl
  | case3 => cases h
  | case4 place breakable first rest newline blank ih =>
    rw [List.cons_append, spell_blank _ blank]
    exact ih h
  | case5 place breakable first rest newline blank comment found =>
    rename_i ih
    obtain ⟨rfl, second⟩ : first = '/' ∧ rest.head? = some '/' := by simpa using comment
    have inner := ih h
    rw [drop_takeWhile] at inner
    rw [List.cons_append, spell_comment _ (by simp [second]), dropWhile_further line]
    exact inner
  | case6 place breakable first rest newline blank comment flaw failed =>
    have opens : Opens first rest := ⟨newline, by simpa using blank, by simpa using comment⟩
    obtain ⟨other, fails⟩ := lexeme_further failed line
    exact spell_flaw _ (opens.further line) fails
  | case7 place breakable first rest newline blank comment found read error failed ih =>
    have opens : Opens first rest := ⟨newline, by simpa using blank, by simpa using comment⟩
    obtain ⟨body, tail, rfl, -, length, same⟩ := lexeme_local read
    rw [← length, List.drop_left] at failed ih
    have replaces := Replaces.further tail line
    rw [List.cons_append, List.append_assoc, spell_lexeme _ (opens.replace replaces)
      (same _ replaces), ← length, List.drop_left, ih failed]
    rfl
  | case8 => cases h

/-- A text that has tokens has the same ones in front of further lines. -/
theorem Lexed.further {place : Position} {breakable : Bool} {text : List Char}
    {tokens : List Token} (h : Lexed place breakable text tokens) :
    ∃ front stop counts, tokens = front ++ [stop] ∧ stop.kind = .endOfInput ∧
      (∀ token ∈ front, token.kind ≠ .endOfInput) ∧
      ∀ more, more.head? = some '\n' → spell breakable (text ++ more) =
        (spell counts more).map (front.map Token.glyph ++ ·) := by
  induction h with
  | @nil place breakable => exact ⟨[], _, breakable, rfl, rfl, by simp, by simp⟩
  | line inner ih =>
    obtain ⟨front, stop, counts, rfl, ends, solid, spells⟩ := ih
    refine ⟨_ :: front, stop, counts, rfl, ends, by simpa using solid, ?_⟩
    intro more line
    rw [List.cons_append, spell_newline, spells more line, Option.map_map]
    rfl
  | emptyLine inner ih =>
    obtain ⟨front, stop, counts, rfl, ends, solid, spells⟩ := ih
    refine ⟨front, stop, counts, rfl, ends, solid, ?_⟩
    intro more line
    rw [List.cons_append, spell_newline, spells more line, Option.map_map]
    rfl
  | blank space inner ih =>
    obtain ⟨front, stop, counts, rfl, ends, solid, spells⟩ := ih
    refine ⟨front, stop, counts, rfl, ends, solid, ?_⟩
    intro more line
    rw [List.cons_append, spell_blank _ space, spells more line]
  | @comment place breakable body rest tokens slash inside stops inner ih =>
    obtain ⟨front, stop, counts, rfl, ends, solid, spells⟩ := ih
    refine ⟨front, stop, counts, rfl, ends, solid, ?_⟩
    intro more line
    have dropped : (body ++ rest).dropWhile (· ≠ '\n') = rest := by
      rw [List.dropWhile_append_of_pos (by simpa using inside)]
      cases rest with
      | nil => rfl
      | cons c others => simp [stops c rfl]
    rw [List.cons_append, spell_comment _ (by simp [slash]), dropWhile_further line, dropped,
      spells more line]
  | @lexeme place breakable first body rest found tokens opens kind length same inner ih =>
    obtain ⟨front, stop, counts, rfl, ends, solid, spells⟩ := ih
    refine ⟨_ :: front, stop, counts, rfl, ends, by simpa using ⟨kind.2, solid⟩, ?_⟩
    intro more line
    have replaces := Replaces.further rest line
    rw [List.cons_append, List.append_assoc, spell_lexeme _ (opens.replace replaces)
      (same _ replaces), ← length, List.drop_left, spells more line, Option.map_map]
    rfl

end Lexer

open Lexer

namespace Fragment

/-- A mark that closes an open bracket. -/
def closer : TokenKind → Punct
  | .punct .openParen => .closeParen
  | _ => .closeBrace

/-- One more line that completes a fragment with the given open brackets: a name, in case the
last token asks for more, and the closing brackets. -/
def cure (opened : List TokenKind) : String :=
  "x" ++ String.join (opened.map fun kind => (closer kind).text)

/-- Only opening brackets are open. -/
theorem brackets_openers {opened left : List TokenKind} {tokens : List Token}
    (h : brackets opened tokens = .ok left) (own : ∀ kind ∈ opened, kind.isOpener = true) :
    ∀ kind ∈ left, kind.isOpener = true := by
  induction tokens generalizing opened with
  | nil => cases h; exact own
  | cons token rest ih =>
    simp only [brackets] at h
    split at h
    · next opens => exact ih h (by simpa [opens] using own)
    · split at h
      · exact ih h own
      · split at h
        · exact ih h fun kind mem => own kind (List.mem_cons_of_mem _ mem)
        · cases h
      · cases h

/-- An opening bracket is closed by its closer. -/
theorem opener?_closer {kind : TokenKind} (h : kind.isOpener = true) :
    (closer kind).opener?.map .punct = some kind ∧ (closer kind).isOpener = false := by
  have kinds : kind = .punct .openParen ∨ kind = .punct .openBrace := by
    cases kind <;> simp_all [TokenKind.isOpener, Punct.isOpener]
  rcases kinds with rfl | rfl <;> decide

theorem brackets_closers {opened : List TokenKind} {tokens : List Token}
    (own : ∀ kind ∈ opened, kind.isOpener = true)
    (closes : tokens.map (·.kind) = opened.map fun kind => .punct (closer kind)) :
    brackets opened tokens = .ok [] := by
  induction opened generalizing tokens with
  | nil =>
    obtain rfl : tokens = [] := by simpa using closes
    rfl
  | cons innermost outer ih =>
    obtain ⟨token, rest, rfl, kind, tail⟩ := List.map_eq_cons_iff.mp closes
    obtain ⟨closed, plain⟩ := opener?_closer (own innermost List.mem_cons_self)
    simp only at kind
    simp only [brackets, kind, TokenKind.isOpener, plain, TokenKind.opener?, closed]
    exact ih (fun other mem => own other (List.mem_cons_of_mem _ mem)) tail

theorem spells_closers (opened : List TokenKind) :
    Spells true (String.join (opened.map fun kind => (closer kind).text)).toList
      (opened.map fun kind => (.punct (closer kind), (closer kind).text)) true := by
  induction opened with
  | nil => exact .nil true
  | cons kind outer ih =>
    have one : Spells true (closer kind).text.toList
        [(.punct (closer kind), (closer kind).text)] true := by
      unfold closer
      split
      · exact spells_mark (c := ')') (by decide) rfl (by simp [Punct.ofTwo?])
      · exact spells_mark (c := '\x7d') (by decide) rfl (by simp [Punct.ofTwo?])
    have both := one.append ih
    simpa [String.join_cons, String.toList_append] using both

theorem spell_cure (breakable : Bool) (opened : List TokenKind) :
    spell breakable ('\n' :: (cure opened).toList) =
      some ((if breakable then [(.newline, "\\n")] else []) ++ (.identifier, "x") ::
        (opened.map (fun kind => (.punct (closer kind), (closer kind).text)) ++
          [(.endOfInput, "")])) := by
  have closers : spell true (String.join (opened.map fun kind => (closer kind).text)).toList =
      some (opened.map (fun kind => (.punct (closer kind), (closer kind).text)) ++
        [(.endOfInput, "")]) := by
    have at_end := spells_closers opened []
    rwa [List.append_nil, spell_nil] at at_end
  have edge : ∀ c ∈ (String.join (opened.map fun kind => (closer kind).text)).toList.head?,
      Ascii.isWord c = false := by
    cases opened with
    | nil => simp
    | cons kind outer =>
      rw [List.map_cons, String.join_cons, String.toList_append]
      unfold closer
      split <;> simp [Punct.text, Ascii.isWord, Char.isAlphanum]
  have name : IsWord "x".toList := by decide
  rw [spell_newline, cure, String.toList_append, spell_word name edge, closers]
  simp [wordGlyph]
  rfl

/-- The tokens of a text that further lines follow. -/
theorem tokenize_further {source : String} {tokens : List Token}
    (h : tokenize source = .ok tokens) :
    ∃ counts, ∀ more, glyphs (tokenize (source ++ "\n" ++ more)) =
      (spell counts ('\n' :: more.toList)).map
        ((written tokens).map Token.glyph ++ ·) := by
  obtain ⟨front, stop, counts, rfl, ends, solid, spells⟩ := (lexed_of_tokenize h).further
  refine ⟨counts, fun more => ?_⟩
  rw [written_ending ends solid, ← spells _ rfl]
  simp [tokenize_eq, spell, String.toList_append]

theorem map_glyph_written (tokens : List Token) :
    (written tokens).map Token.glyph =
      (tokens.map Token.glyph).filter (·.1 ≠ .endOfInput) := by
  rw [written, List.filter_map]
  rfl

/-- The tokens of a fragment come first when further lines follow it. -/
theorem written_further {source more : String} {tokens others : List Token}
    (h : tokenize source = .ok tokens) (k : tokenize (source ++ "\n" ++ more) = .ok others) :
    ∃ front back, written others = front ++ back ∧
      front.map (·.kind) = (written tokens).map (·.kind) := by
  obtain ⟨counts, spells⟩ := tokenize_further h
  have same := spells more
  rw [k] at same
  obtain ⟨tail, -, split⟩ := Option.map_eq_some_iff.mp same.symm
  have own : (written others).map Token.glyph =
      (written tokens).map Token.glyph ++ tail.filter (·.1 ≠ .endOfInput) := by
    rw [map_glyph_written, ← split, List.filter_append, ← map_glyph_written]
    simp [written]
  obtain ⟨front, back, whole, fronts, -⟩ := List.map_eq_append_iff.mp own
  exact ⟨front, back, whole, kinds_of_glyphs fronts⟩

theorem all_kinds {tokens others : List Token} (same : tokens.map (·.kind) = others.map (·.kind))
    (p : TokenKind → Bool) : tokens.all (p ·.kind) = others.all (p ·.kind) := by
  have kinds := congrArg (List.all · p) same
  simpa [List.all_map, Function.comp_def] using kinds

section Classes

variable {source line : String} {tokens : List Token}

/-- A fragment that is lexed but malformed has a bracket that closes nothing. -/
theorem ofTokens_malformed : (∃ error, ofTokens source line tokens = .malformed error) ↔
    ∃ closing, brackets [] tokens = .error closing := by
  unfold ofTokens
  split
  · next blank =>
    have balanced : brackets [] tokens = .ok [] := Balanced.separators (by simpa using blank)
    simp [balanced]
  · cases brackets [] tokens with
    | error closing => simp
    | ok opened => by_cases more : (!opened.isEmpty || dangling tokens) = true <;> simp [more]

theorem ofTokens_incomplete {text : String}
    (h : ofTokens source line tokens = .incomplete text) :
    tokens.all (·.kind.isSeparator) = false ∧ ∃ opened, brackets [] tokens = .ok opened := by
  unfold ofTokens at h
  split at h
  · cases h
  · next some =>
    refine ⟨by simpa using some, ?_⟩
    cases k : brackets [] tokens with
    | error closing => rw [k] at h; cases h
    | ok opened => exact ⟨opened, rfl⟩

theorem ofTokens_blank (h : ofTokens source line tokens = .blank) :
    tokens.all (·.kind.isSeparator) = true := by
  unfold ofTokens at h
  split at h
  · assumption
  · repeat' split at h
    all_goals cases h

theorem ofTokens_declarations (some : tokens.all (·.kind.isSeparator) = false)
    (balanced : brackets [] tokens = .ok []) (ends : dangling tokens = false) :
    ∃ decls, ofTokens source line tokens = .declarations decls := by
  simp [ofTokens, some, balanced, ends]

end Classes

/-- A list that ends with a name and closing brackets asks for no more. -/
theorem dangling_cured {front back : List Token} {name : Token}
    (own : name.kind = .identifier) (closes : ∀ token ∈ back, ∃ kind, token.kind = .punct (closer kind)) :
    dangling (front ++ name :: back) = false := by
  have last : ∃ others token, front ++ name :: back = others ++ [token] ∧
      token.kind ≠ .newline ∧ token.kind.continues = false := by
    rcases List.eq_nil_or_concat back with rfl | ⟨middle, token, rfl⟩
    · exact ⟨front, name, rfl, by simp [own], by simp [own, TokenKind.continues]⟩
    · obtain ⟨kind, same⟩ := closes token (by simp)
      refine ⟨front ++ name :: middle, token, by simp, by simp [same], ?_⟩
      rw [same]
      unfold closer
      split <;> rfl
  obtain ⟨others, token, split, solid, stops⟩ := last
  simp [dangling, split, solid, stops]

/-- What is written in a fragment and then completes it. -/
theorem written_cured {source : String} {tokens : List Token} (h : tokenize source = .ok tokens)
    (opened : List TokenKind) : ∃ others front lines name closers,
      tokenize (source ++ "\n" ++ cure opened) = .ok others ∧
      written others = front ++ (lines ++ name :: closers) ∧
      front.map (·.kind) = (written tokens).map (·.kind) ∧
      (∀ token ∈ lines, token.kind = .newline) ∧ name.kind = .identifier ∧
      closers.map (·.kind) = opened.map fun kind => .punct (closer kind) := by
  obtain ⟨counts, spells⟩ := tokenize_further h
  have same := spells (cure opened)
  rw [spell_cure] at same
  cases k : tokenize (source ++ "\n" ++ cure opened) with
  | error error => rw [k] at same; cases same
  | ok others =>
    rw [k] at same
    have whole := Option.some.inj same
    have own : (written others).map Token.glyph = (written tokens).map Token.glyph ++
        ((if counts then [(.newline, "\\n")] else []) ++ (.identifier, "x") ::
          opened.map fun kind => (.punct (closer kind), (closer kind).text)) := by
      rw [map_glyph_written, whole, List.filter_append, ← map_glyph_written]
      cases counts <;> simp [written]
    obtain ⟨front, back, split, fronts, backs⟩ := List.map_eq_append_iff.mp own
    obtain ⟨lines, rest, rfl, newlines, rests⟩ := List.map_eq_append_iff.mp backs
    obtain ⟨name, closers, rfl, named, closes⟩ := List.map_eq_cons_iff.mp rests
    refine ⟨others, front, lines, name, closers, rfl, split, kinds_of_glyphs fronts, ?_,
      congrArg Prod.fst named, ?_⟩
    · intro token mem
      have among : token.glyph ∈ lines.map Token.glyph := List.mem_map_of_mem mem
      rw [newlines] at among
      cases counts with
      | true => exact congrArg Prod.fst (List.mem_singleton.mp among)
      | false => cases among
    · have kinds := congrArg (List.map Prod.fst) closes
      simpa [Function.comp_def, Token.glyph] using kinds

/-- A malformed fragment stays malformed. -/
theorem malformed_further {source line : String} {error : FragmentError}
    (h : parse source line = .malformed error) (more : String) :
    ∃ other, parse (source ++ "\n" ++ more) line = .malformed other := by
  unfold parse at h
  cases lexed : tokenize source with
  | error fault =>
    have fails : glyphs (tokenize (source ++ "\n" ++ more)) = none := by
      have line : ('\n' :: more.toList).head? = some '\n' := rfl
      have none := scan_further (tokenize_eq source ▸ lexed) line
      simpa [tokenize_eq, spell, String.toList_append] using none
    unfold parse
    cases k : tokenize (source ++ "\n" ++ more) with
    | error other => exact ⟨_, rfl⟩
    | ok others => rw [k] at fails; cases fails
  | ok tokens =>
    rw [lexed] at h
    obtain ⟨closing, broken⟩ := ofTokens_malformed.mp ⟨error, h⟩
    unfold parse
    cases k : tokenize (source ++ "\n" ++ more) with
    | error other => exact ⟨_, rfl⟩
    | ok others =>
      obtain ⟨front, back, split, kinds⟩ := written_further lexed k
      apply ofTokens_malformed.mpr
      change ∃ closing, brackets [] (written others) = .error closing
      rw [split]
      cases left : brackets [] front with
      | error other => exact ⟨other, by rw [brackets_append, left]; rfl⟩
      | ok opened =>
        have whole := (brackets_kinds kinds left).symm.trans broken
        cases whole

/-- An incomplete fragment can be completed. -/
theorem incomplete_cured {source line text : String} (h : parse source line = .incomplete text) :
    ∃ opened decls, parse (source ++ "\n" ++ cure opened) line = .declarations decls := by
  unfold parse at h
  cases lexed : tokenize source with
  | error fault => rw [lexed] at h; cases h
  | ok tokens =>
    rw [lexed] at h
    obtain ⟨some, opened, left⟩ := ofTokens_incomplete h
    obtain ⟨others, front, lines, name, closers, k, split, kinds, newlines, named, closes⟩ :=
      written_cured lexed opened
    refine ⟨opened, ?_⟩
    unfold parse
    rw [k]
    apply ofTokens_declarations
    · change (written others).all (·.kind.isSeparator) = false
      rw [split]
      simp [named, TokenKind.isSeparator]
    · change brackets [] (written others) = _
      have plain : Balanced [name] := .plain (by rw [named]; rfl) (by rw [named]; rfl)
      have before : Balanced (lines ++ [name]) := (Balanced.newlines newlines).append plain
      have closed : brackets opened closers = .ok [] :=
        brackets_closers (brackets_openers left (by simp)) closes
      rw [split, List.append_cons, brackets_append, brackets_kinds kinds.symm left]
      change brackets opened (lines ++ [name] ++ closers) = .ok []
      rw [brackets_append, before.brackets opened]
      exact closed
    · change dangling (written others) = false
      rw [split, ← List.append_assoc]
      refine dangling_cured named fun token mem => ?_
      have among : token.kind ∈ closers.map (·.kind) := List.mem_map_of_mem mem
      rw [closes] at among
      obtain ⟨kind, -, same⟩ := List.mem_map.mp among
      exact ⟨kind, same.symm⟩

/-- An incomplete fragment never turns out to be blank. -/
theorem incomplete_not_blank {source line text : String}
    (h : parse source line = .incomplete text) (more : String) :
    parse (source ++ "\n" ++ more) line ≠ .blank := by
  intro blank
  unfold parse at h blank
  cases lexed : tokenize source with
  | error fault => rw [lexed] at h; cases h
  | ok tokens =>
    rw [lexed] at h
    cases k : tokenize (source ++ "\n" ++ more) with
    | error other => rw [k] at blank; cases blank
    | ok others =>
      rw [k] at blank
      obtain ⟨front, back, split, kinds⟩ := written_further lexed k
      have all := ofTokens_blank blank
      change (written others).all (·.kind.isSeparator) = true at all
      rw [split, List.all_append, Bool.and_eq_true, all_kinds kinds TokenKind.isSeparator] at all
      have some := (ofTokens_incomplete h).1
      change (written tokens).all (·.kind.isSeparator) = false at some
      rw [some] at all
      cases all.1

/-- Errors are final, and incomplete fragments can be completed: a malformed fragment stays
malformed whatever lines follow; an incomplete one has a line that turns it into declarations,
and none that makes it blank. -/
theorem errors_final_incompleteness_curable (source line : String) :
    (∀ error, parse source line = .malformed error → ∀ more,
      ∃ other, parse (source ++ "\n" ++ more) line = .malformed other) ∧
    (∀ text, parse source line = .incomplete text →
      (∃ more decls, parse (source ++ "\n" ++ more) line = .declarations decls) ∧
      ∀ more, parse (source ++ "\n" ++ more) line ≠ .blank) := by
  refine ⟨fun error broken more => malformed_further broken more, fun text asks => ?_⟩
  obtain ⟨opened, decls, cured⟩ := incomplete_cured asks
  exact ⟨⟨cure opened, decls, cured⟩, incomplete_not_blank asks⟩

/-- A call whose arguments are missing, and a bracket that closes nothing. -/
theorem errors_final_incompleteness_curable_of_call : ∃ error,
    parse "f(" "1" = .incomplete "f(" ∧ parse "x)" "1" = .malformed error ∧
    (∃ more decls, parse ("f(" ++ "\n" ++ more) "1" = .declarations decls) ∧
    (∀ more, parse ("f(" ++ "\n" ++ more) "1" ≠ .blank) ∧
    ∀ more, ∃ other, parse ("x)" ++ "\n" ++ more) "1" = .malformed other := by
  have asks : parse "f(" "1" = .incomplete "f(" := by decide +kernel
  have broken : parse "x)" "1" =
      .malformed (.bracket ⟨.punct .closeParen, ")", ⟨1, 2, 3, 1, 2⟩⟩) := by decide +kernel
  have curable := (errors_final_incompleteness_curable "f(" "1").2 "f(" asks
  exact ⟨_, asks, broken, curable.1, curable.2,
    (errors_final_incompleteness_curable "x)" "1").1 _ broken⟩

end Fragment

end ScriptShell
