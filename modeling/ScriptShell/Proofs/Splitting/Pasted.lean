import ScriptShell.Proofs.Lexing.Placement
import ScriptShell.Proofs.Printing.Display
import ScriptShell.Proofs.Splitting.Bodies

/-!
What a wrapper pastes is read back. The line of a definition is read as the definition that the
parser reads at the tokens of its statement, wherever it stands; the line of an expression is read
as a value with that expression. The line that shows what a fragment did is read, too: the names and
paths it shows are lexemes of the fragment, so that they have no line end.
-/
namespace ScriptShell

open Lexer Fragment Printer

/-- The member is a bare expression. -/
def Member.isExpr : Member → Bool
  | .expr _ _ => true
  | _ => false

/-- The member that a wrapper makes of a member: an expression becomes a value with a name. -/
def Member.result (name : String) : Member → Member
  | .expr span value => .val ⟨span, name, none, .strict, false, value⟩
  | other => other

/-- The members that a wrapper makes of those of a body. `index` counts the expressions before. -/
def Member.results (line : String) (several : Bool) (index : Nat) : List Member → List Member
  | [] => []
  | first :: rest =>
    first.result (resultName line several index) ::
      results line several (if first.isExpr then index + 1 else index) rest

namespace Parser

open Cursor

variable {c d : Cursor} {tail other part : List Token} {phrase : List Glyph}

/-- The first token tells an expression from other members. -/
theorem member_opensStatement {p : Parsed Member c} (h : member c = .ok p) :
    c.kind.opensStatement = !p.value.isExpr := by
  have way := member_at h
  have opens := member_opens h
  generalize p.value = value, p.cursor = d at way ⊢
  rcases opens with statement | expression
  · rw [statement]
    cases way with
    | expr bare read =>
      have none : (modifiers {} c).value = {} := by simpa [Modifiers.isNone] using bare
      have first := (expr_phrase read).opens
      rw [modifiers_bare none] at first
      rw [TokenKind.opensExpression_not_statement first] at statement
      cases statement
    | _ => rfl
  · rw [TokenKind.opensExpression_not_statement expression]
    have none : modifiers {} c = ⟨{}, c, .refl c⟩ := by
      refine modifiers_of_none ?_
      cases added : Modifiers.add? {} c.kind with
      | none => rfl
      | some more =>
        unfold Modifiers.add? at added
        split at added
        all_goals first
          | (next word => rw [word] at expression; cases expression)
          | cases added
    cases way with
    | expr bare read => rfl
    | imports word read => rw [word] at expression; cases expression
    | foreign outside read => rw [none] at outside; cases outside
    | val word inside read | func word inside read =>
      rw [none] at word
      rw [show c.kind = _ from word] at expression
      cases expression
    | @container kind _ word bare read =>
      rw [none] at word
      rw [show c.kind = _ from word] at expression
      cases kind <;> cases expression

/-- Cursors in front of the same tokens and of tails with which statements end. -/
theorem At.alike (h : d.At (part.map Token.glyph) other) (split : c.rest = part ++ tail)
    (depth : d.depth = c.depth) (stops : Stops tail) (ends : Stops other) :
    Alike tail other c d := by
  obtain ⟨twin, left, same⟩ := h
  exact ⟨stops, ends, depth, part, twin, split, left, same⟩

theorem Alike.done (h : Alike tail other c d) (done : c.rest = tail) : d.rest = other := by
  obtain ⟨own, twin, split, left, same⟩ := h.rest
  obtain rfl : own = [] := by simpa [done] using split
  obtain rfl : twin = [] := List.map_eq_nil_iff.mp same
  exact left

/-- What is read again at tokens is read in front of their tail. -/
theorem Rereads.gives {α β : Type} {bare : α → β} {p : Parsed α c} {y : Parse α d}
    (h : Rereads p.cursor.rest other bare p y) : Gives y bare (bare p.value) other := by
  obtain ⟨q, read, same, alike⟩ := h
  refine ⟨q, read, same, ?_⟩
  have rest := Alike.done alike rfl
  rw [← q.follows.reaches.behind other, ← rest]
  rfl

namespace MemberAhead

theorem opens {value : Member} (h : MemberAhead part value) :
    ∃ first rest, part = first :: rest ∧ first.kind.opensStatement = !value.isExpr ∧
      first.kind.OpensLine := by
  obtain ⟨c, p, outside, split, read, rfl, -⟩ := h
  obtain ⟨own, took⟩ := member_completes read
  obtain rfl : own = part := List.append_cancel_right (took.rest.symm.trans split)
  obtain ⟨others, rfl⟩ := took.head p.follows.lt outside
  exact ⟨_, others, rfl, member_opensStatement read, (member_opens read).symm⟩

/-- A member is read again wherever statements end behind its tokens. -/
theorem line {value : Member} (h : MemberAhead part value) : LineReads (part.map Token.glyph) value.unplaced where
  opens := by
    obtain ⟨first, rest, rfl, -, opens⟩ := h.opens
    exact ⟨_, _, rfl, opens⟩
  reads {d tail} outside stands stops := by
    obtain ⟨c, p, depth, split, read, rfl, ends⟩ := h
    have ahead : p.cursor.Ahead p.cursor.rest :=
      ⟨List.suffix_refl _, fun deep => absurd (p.follows.reaches.depth.trans depth) deep⟩
    exact Rereads.gives (member_reads read ahead
      (At.alike stands split (outside.trans depth.symm) ends stops))

end MemberAhead

/-- The tokens of a line are read as an expression, apart from its places. -/
structure ValueReads (phrase : List Glyph) (value : Expr) : Prop where
  opens : ∃ first rest, phrase = first :: rest ∧ first.1.OpensLine
  reads : ∀ {c : Cursor} {tail : List Token}, c.depth = 0 → c.At phrase tail → Stops tail →
    Gives (expr c) Expr.unplaced value tail

theorem MemberAhead.value {span : Span} {e : Expr} (h : MemberAhead part (.expr span e)) :
    ValueReads (part.map Token.glyph) e.unplaced where
  opens := h.line.opens
  reads {d tail} outside stands stops := by
    obtain ⟨c, p, depth, split, read, same, ends⟩ := h
    have way := member_at read
    have place := p.follows.reaches.depth
    generalize p.value = value, p.cursor = e at way same split ends place
    cases way with
    | @expr _ own bare read =>
      cases same
      have none : (modifiers {} c).value = {} := by simpa [Modifiers.isNone] using bare
      have start := modifiers_bare none
      have ahead : own.cursor.Ahead own.cursor.rest :=
        ⟨List.suffix_refl _, fun deep => absurd (place.trans depth) deep⟩
      refine Rereads.gives (expr_reads read ahead (At.alike stands ?_ ?_ ends stops))
      · exact (congrArg Cursor.rest start).trans split
      · exact outside.trans (depth.symm.trans (congrArg Cursor.depth start).symm)
    | _ => cases same

namespace ValueReads

variable {e : Expr}

theorem starts (h : ValueReads phrase e) :
    ∃ first rest, phrase = first :: rest ∧ first.1 ≠ .newline := by
  obtain ⟨first, rest, rfl, opens⟩ := h.opens
  exact ⟨first, rest, rfl, opens.ne_newline⟩

/-- Behind a name an expression is read as a value. -/
theorem result (h : ValueReads phrase e) (name : String) :
    LineReads (Keyword.kwVal.glyph :: named name :: Punct.assign.glyph :: phrase)
      (.val ⟨.anywhere, name, none, .strict, false, e⟩) where
  opens := ⟨_, _, rfl, .inr rfl⟩
  reads {c tail} outside stands stops := by
    have kind : c.kind = .keyword .kwVal := At.wordKind stands
    have bare : modifiers {} c = ⟨{}, c, .refl c⟩ := modifiers_of_none (by rw [kind]; rfl)
    have place : (modifiers {} c).cursor = c := by rw [bare]
    have given : (modifiers {} c).value = {} := by rw [bare]
    obtain ⟨val, read, same, final⟩ : Gives (valBinding (modifiers {} c).cursor) ValBinding.unplaced
        ⟨.anywhere, name, none, e⟩ tail := by
      rw [place]
      refine valBinding_with none (by simp) h.starts (fun {d} start behind => ?_) stands
      have depth : (d.behind tail).depth = (c.behind tail).depth := congrArg Cursor.depth behind
      exact h.reads (depth.trans outside) start stops
    simp only [ValBinding.unplaced, ValBinding.mk.injEq, true_and] at same
    obtain ⟨p, done, last, whole⟩ := member_val (by simp [kind]) (by simp [kind])
      (place.symm ▸ kind) given rfl rfl read
    refine ⟨p, done, ?_, last.trans (final.trans (by rw [place]))⟩
    rw [whole]
    simp [Member.unplaced, ValDecl.unplaced, same]

/-- An expression is read as the body of the function that a wrapper writes. -/
theorem shown (h : ValueReads phrase e) :
    LineReads (showGlyphs ++ phrase)
      (.func ⟨.anywhere, "$main", [], true, some ⟨["Str"], .anywhere⟩, false, e⟩) where
  opens := ⟨_, _, rfl, .inr rfl⟩
  reads {c tail} outside stands stops := by
    have kind : c.kind = .keyword .kwDef := At.wordKind stands
    have bare : modifiers {} c = ⟨{}, c, .refl c⟩ := modifiers_of_none (by rw [kind]; rfl)
    have place : (modifiers {} c).cursor = c := by rw [bare]
    have given : (modifiers {} c).value = {} := by rw [bare]
    obtain ⟨decl, read, same, final⟩ : Gives (defDecl false (modifiers {} c).cursor)
        DefDecl.unplaced ⟨.anywhere, "$main", [], true, some ⟨["Str"], .anywhere⟩, false, e⟩ tail := by
      rw [place]
      refine defDecl_with [] (some ⟨["Str"], .anywhere⟩) (by simp) (by simp)
        (by simp [TypeRef.Valid]; decide) h.starts (fun {d} start behind => ?_) stands
      have depth : (d.behind tail).depth = (c.behind tail).depth := congrArg Cursor.depth behind
      exact h.reads (depth.trans outside) start stops
    obtain ⟨p, done, last, whole⟩ := member_func (by simp [kind]) (by simp [kind])
      (place.symm ▸ kind) given rfl rfl rfl read
    exact ⟨p, done, by rw [whole]; exact congrArg Member.func same,
      last.trans (final.trans (by rw [place]))⟩

end ValueReads

end Parser

namespace Lexer

/-- Where a token comes from: a line end, the end of the input, or a lexeme. -/
theorem Lexed.origin {place : Position} {breakable : Bool} {text : List Char} {tokens : List Token}
    (h : Lexed place breakable text tokens) : ∀ token ∈ tokens,
      (token.kind = .newline ∧ token.lexeme = "\\n") ∨
      (token.kind = .endOfInput ∧ token.lexeme = "") ∨
      ∃ first body found, first ≠ '\n' ∧ Lexer.lexeme first body = .ok found ∧
        body.length = found.more ∧ Written found.kind ∧ token.kind = found.kind ∧
        token.lexeme = found.text := by
  induction h with
  | nil => simp
  | line others ih => simpa using ih
  | emptyLine others ih => exact ih
  | blank space others ih => exact ih
  | comment slash inside stops others ih => exact ih
  | @lexeme place breakable first body rest found tokens opens kind length same others ih =>
    refine List.forall_mem_cons.mpr ⟨.inr (.inr ⟨first, body, found, opens.1, ?_, length, kind,
      rfl, rfl⟩), ih⟩
    have alone := same [] (by simp [Replaces])
    rwa [List.append_nil] at alone

/-- Identifiers are names. -/
theorem Lexed.names {place : Position} {breakable : Bool} {text : List Char} {tokens : List Token}
    (h : Lexed place breakable text tokens) :
    ∀ token ∈ tokens, token.kind = .identifier → IsName token.lexeme := by
  intro token mem kind
  refine ⟨h.words token mem kind, ?_⟩
  rcases h.origin token mem with ⟨line, -⟩ | ⟨ends, -⟩ | ⟨first, body, found, -, read, -, -, same, text⟩
  · cases kind.symm.trans line
  · cases kind.symm.trans ends
  · rw [text]
    rw [same] at kind
    unfold Lexer.lexeme at read
    split at read
    · split at read
      · cases read
      · cases read; cases kind
    · split at read
      · cases read
        unfold word at kind ⊢
        cases known : Keyword.ofText? (String.ofList (first :: body.takeWhile Ascii.isWord)) with
        | none => rfl
        | some keyword =>
          simp only [known] at kind
          cases kind
      · split at read
        · rw [(number_local read).1] at kind; cases kind
        · obtain ⟨mark, own⟩ := operator_kind read
          rw [own] at kind
          cases kind

/-- Only a string literal may stand for a text with a line end. -/
theorem Lexed.oneLine {place : Position} {breakable : Bool} {text : List Char} {tokens : List Token}
    (h : Lexed place breakable text tokens) :
    ∀ token ∈ tokens, token.kind ≠ .string → '\n' ∉ token.lexeme.toList := by
  intro token mem plain
  rcases h.origin token mem with
    ⟨-, text⟩ | ⟨-, text⟩ | ⟨first, body, found, line, read, length, written, same, text⟩
  · rw [text]; decide
  · rw [text]; decide
  · obtain ⟨spelled, free⟩ := lexeme_spelled read length
    rw [same] at plain
    rw [text]
    have own : found.text.toList = first :: body := by
      cases kind : found.kind with
      | string => exact absurd kind plain
      | newline => exact absurd kind written.1
      | endOfInput => exact absurd kind written.2
      | _ => rw [kind] at spelled; exact spelled
    rw [own]
    simpa using ⟨line.symm, free⟩

end Lexer

namespace Cursor

variable {c d e : Cursor}

/-- No string literal is read. -/
def Wordy (c d : Cursor) : Prop :=
  ∃ read, c.rest = read ++ d.rest ∧ ∀ token ∈ read, token.kind ≠ .string

theorem Wordy.refl (c : Cursor) : c.Wordy c := ⟨[], rfl, by simp⟩

theorem Wordy.trans (h : c.Wordy d) (k : d.Wordy e) : c.Wordy e := by
  obtain ⟨first, split, own⟩ := h
  obtain ⟨second, rest, others⟩ := k
  exact ⟨first ++ second, by rw [split, rest, List.append_assoc],
    List.forall_mem_append.mpr ⟨own, others⟩⟩

theorem wordy_next (some : c.kind ≠ .endOfInput) (plain : c.kind ≠ .string) : c.Wordy c.next := by
  obtain ⟨lines, newlines, -, split⟩ := rest_next some
  have own : c.current.kind ≠ .string := plain
  refine ⟨lines ++ [c.current], by simpa using split,
    List.forall_mem_append.mpr ⟨?_, by simpa using own⟩⟩
  intro line mem
  simp [newlines line mem]

theorem wordy_skipNewlines (c : Cursor) : c.Wordy c.skipNewlines := by
  refine ⟨c.rest.takeWhile (·.kind = .newline), List.takeWhile_append_dropWhile.symm, ?_⟩
  intro line mem
  have newline : line.kind = .newline := by simpa using List.mem_takeWhile_imp mem
  simp [newline]

theorem expect_wordy {kind : TokenKind} {what : String} {known : kind ≠ .endOfInput}
    {p : Parsed Token c} (h : c.expect kind what known = .ok p) (plain : kind ≠ .string) :
    c.Wordy p.cursor := by
  obtain ⟨found, -, place⟩ := expect_ok h
  rw [place]
  exact wordy_next (found ▸ known) (found ▸ plain)

theorem expectName_wordy {what : String} {p : Parsed Token c} (h : c.expectName what = .ok p) :
    c.Wordy p.cursor :=
  expect_wordy h (by simp)

end Cursor

namespace Parser

open Cursor

theorem selector_wordy {name : String} {c : Cursor} {r : Extended Selection c}
    (h : selector name c = .ok r) : c.Wordy r.cursor := by
  unfold selector at h
  split at h
  · cases h
    exact .refl c
  · split at h
    · next arrow =>
      obtain ⟨bound, named, h⟩ := Except.bind_ok.mp h
      cases h
      exact ((wordy_next (by simp [arrow]) (by simp [arrow])).trans (wordy_skipNewlines _)).trans
        (expectName_wordy named)
    · cases h
      exact .refl c

theorem selectorList_wordy {c : Cursor} {p : Parsed Selection c} (h : selectorList c = .ok p) :
    c.Wordy p.cursor := by
  unfold selectorList at h
  obtain ⟨name, named, h⟩ := Except.bind_ok.mp h
  obtain ⟨own, taken, h⟩ := Except.bind_ok.mp h
  have first : c.Wordy own.cursor.skipNewlines :=
    (((expectName_wordy named).trans (wordy_skipNewlines _)).trans
      (selector_wordy taken)).trans (wordy_skipNewlines _)
  simp only at h
  split at h
  · next comma =>
    have := name.follows.lt
    have := left_skipNewlines_le name.cursor
    have := own.reaches.le
    have := left_skipNewlines_le own.cursor
    have := left_next_le own.cursor.skipNewlines
    have := left_skipNewlines_le own.cursor.skipNewlines.next
    obtain ⟨rest, more, h⟩ := Except.bind_ok.mp h
    cases h
    exact ((first.trans (wordy_next (by simp [comma]) (by simp [comma]))).trans
      (wordy_skipNewlines _)).trans (selectorList_wordy more)
  · cases h
    exact first
termination_by c.left
decreasing_by all_goals omega

theorem importRest_wordy {c : Cursor} {r : Extended (List String × Selection) c}
    (h : importRest c = .ok r) : c.Wordy r.cursor := by
  unfold importRest at h
  split at h
  · next dot =>
    have before := wordy_next (c := c) (by simp [dot]) (by simp [dot])
    simp only at h
    split at h
    · next brace =>
      obtain ⟨list, inner, h⟩ := Except.bind_ok.mp h
      obtain ⟨closing, last, h⟩ := Except.bind_ok.mp h
      cases h
      exact (((before.trans (wordy_next (by simp [brace]) (by simp [brace]))).trans
        (wordy_skipNewlines _)).trans (selectorList_wordy inner)).trans
          (expect_wordy last (by simp))
    · obtain ⟨segment, named, h⟩ := Except.bind_ok.mp h
      have first := before.trans (expectName_wordy named)
      split at h
      · cases h
        exact first
      · have := segment.follows.lt
        have := left_next_le c
        obtain ⟨rest, more, h⟩ := Except.bind_ok.mp h
        cases h
        exact first.trans (importRest_wordy more)
  · cases h
    exact .refl c
termination_by c.left
decreasing_by all_goals omega

/-- An import holds no string literal. -/
theorem importDecl_wordy {c : Cursor} {p : Parsed Import c} (h : importDecl c = .ok p) :
    c.Wordy p.cursor := by
  unfold importDecl at h
  obtain ⟨keyword, word, h⟩ := Except.bind_ok.mp h
  obtain ⟨first, named, h⟩ := Except.bind_ok.mp h
  simp only at h
  split at h
  · cases h
  · obtain ⟨rest, more, h⟩ := Except.bind_ok.mp h
    have whole : c.Wordy rest.cursor :=
      ((expect_wordy word (by simp)).trans (expectName_wordy named)).trans (importRest_wordy more)
    split at h
    · cases h
      exact whole
    · split at h
      · cases h
      · cases h
        exact whole

/-- The statement of a member tells whether the member is an expression. -/
theorem MemberAhead.isExpression {part : List Token} {value : Member}
    (h : MemberAhead part value) : isExpression part = value.isExpr := by
  obtain ⟨first, rest, rfl, opens, -⟩ := h.opens
  rw [TokenKind.opensStatement] at opens
  rw [Fragment.isExpression, ← Bool.not_or, opens, Bool.not_not]

/-- The tokens of an import are no string literals. -/
theorem MemberAhead.wordy {part : List Token} {decl : Import} (h : MemberAhead part (.imports decl)) :
    ∀ token ∈ part, token.kind ≠ .string := by
  obtain ⟨c, p, -, split, read, same, -⟩ := h
  have way := member_at read
  generalize p.value = value, p.cursor = d at way split same
  cases way with
  | imports word own =>
    obtain ⟨read, rest, plain⟩ := importDecl_wordy own
    obtain rfl : part = read := List.append_cancel_right (split.symm.trans rest)
    exact plain
  | _ => cases same

end Parser

namespace Fragment

theorem importPath_oneLine {tokens : List Token}
    (lexemes : ∀ token ∈ tokens, '\n' ∉ token.lexeme.toList) : '\n' ∉ (importPath tokens).toList := by
  induction tokens with
  | nil => decide
  | cons token rest ih =>
    rw [List.forall_mem_cons] at lexemes
    rw [importPath, String.toList_append, List.mem_append, not_or]
    refine ⟨?_, ih lexemes.2⟩
    split
    · decide
    · decide
    · decide
    · exact lexemes.1

/-- What is shown for a statement has no line end, if its identifiers have none, and in an import
all of its lexemes. -/
theorem displayItems_oneLine {part : List Token}
    (names : ∀ token ∈ part, token.kind = .identifier → '\n' ∉ token.lexeme.toList)
    (imports : word? part = some .kwImport → ∀ token ∈ part, '\n' ∉ token.lexeme.toList) :
    ∀ item ∈ displayItems part, item.OneLine := by
  have leading {rest : List Token} {name : String} (inside : ∀ token ∈ rest, token ∈ part)
      (own : leadingName rest = some name) : '\n' ∉ name.toList := by
    obtain ⟨token, mem, kind, rfl⟩ := leadingName_mem own
    exact names token (inside token mem) kind
  intro item mem
  unfold displayItems at mem
  simp only at mem
  split at mem
  · cases mem
  · next keyword rest left =>
    have inside : ∀ token ∈ rest, token ∈ part := by
      intro token mem
      have among : token ∈ part.dropWhile (isModifier ·.kind) := by rw [left]; simp [mem]
      exact (List.dropWhile_sublist _).subset among
    have behind : ∀ token ∈ rest.tail, token ∈ part := fun token mem => inside token (List.mem_of_mem_tail mem)
    split at mem
    · obtain ⟨own, leads, rfl⟩ := Option.map_eq_some_iff.mp (Option.mem_toList.mp mem)
      split
      · exact leading inside leads
      · exact leading inside leads
    · obtain ⟨own, leads, rfl⟩ := Option.map_eq_some_iff.mp (Option.mem_toList.mp mem)
      exact ⟨by decide, leading inside leads⟩
    · obtain ⟨own, leads, rfl⟩ := Option.map_eq_some_iff.mp (Option.mem_toList.mp mem)
      exact ⟨by decide, leading behind leads⟩
    · obtain ⟨own, leads, rfl⟩ := Option.map_eq_some_iff.mp (Option.mem_toList.mp mem)
      exact ⟨by decide, leading inside leads⟩
    · obtain ⟨own, leads, rfl⟩ := Option.map_eq_some_iff.mp (Option.mem_toList.mp mem)
      exact ⟨by decide, leading inside leads⟩
    · next kind =>
      rw [List.mem_singleton.mp mem]
      have word : word? part = some .kwImport := by
        rw [word?, left]
        obtain ⟨_, lexeme, span⟩ := keyword
        cases kind
        rfl
      exact importPath_oneLine fun token mem => imports word token (inside token mem)
    · cases mem

open ScriptShell.Parser

variable {source : String}

/-- The result of an expression has a name: no keyword starts like it. -/
theorem isName_resultName {line : String} (letters : ∀ c ∈ line.toList, Ascii.isWord c = true)
    (several : Bool) (index : Nat) : IsName (resultName line several index) := by
  refine ⟨isWord_resultName letters several index, List.find?_eq_none.mpr fun keyword _ => ?_⟩
  have first : (resultName line several index).toList.head? = some 'r' := by simp [resultName]
  have other : keyword.text.toList.head? ≠ some 'r' := by cases keyword <;> decide
  intro same
  rw [← of_decide_eq_true same] at first
  exact other first

/-- A statement with the member that is read from its tokens. -/
structure Holds (source : String) (part : List Token) (value : Member) : Prop where
  placed : Placed source part
  whole : Whole part
  ahead : MemberAhead part value

namespace Holds

variable {part : List Token} {value : Member}

/-- The code of a statement is a line that is read as the member that a wrapper makes of its
member. -/
theorem line (h : Holds source part value) {name : String} (named : IsName name) :
    ∃ phrase, Spells false ((if isExpression part then "val " ++ name ++ " = " ++ spanText source part
        else spanText source part).toList ++ ['\n']) (phrase ++ [Printer.line]) false ∧
      LineReads phrase (value.result name).unplaced := by
  have breaks : breaksAfter part = true := by
    obtain ⟨last, others, reversed⟩ :=
      List.exists_cons_of_ne_nil (List.reverse_ne_nil_iff.mpr h.whole.ne_nil)
    have final : part.getLast? = some last := by simp [← List.head?_reverse, reversed]
    have closes := h.whole.last last final
    rw [breaksAfter, final]
    cases kind : last.kind <;> simp_all [TokenKind.closesStatement, TokenKind.isSeparator]
  have spells (breakable : Bool) := h.placed.spells breakable
  simp only [breaks, if_true] at spells
  rw [h.ahead.isExpression]
  cases value with
  | expr span e =>
    refine ⟨resultGlyphs name ++ part.map Token.glyph, ?_, ?_⟩
    · have whole := (spells_result named.1).append (spells true)
      simpa [Member.isExpr, Printer.line] using whole
    · rw [resultGlyphs, named.glyph]
      exact h.ahead.value.result name
  | _ => exact ⟨part.map Token.glyph, spells false, h.ahead.line⟩

/-- A statement that starts with the word `import` is read as an import. -/
theorem imports (h : Holds source part value) (word : word? part = some .kwImport) :
    ∃ decl, value = .imports decl := by
  obtain ⟨first, rest, rfl, opens, -⟩ := h.ahead.opens
  have plain : value.isExpr = false := by
    cases expression : value.isExpr with
    | false => rfl
    | true =>
      -- such a statement starts with no definition
      rw [expression] at opens
      simp only [TokenKind.opensStatement, Bool.not_true, Bool.or_eq_false_iff] at opens
      obtain ⟨kind, lexeme, span⟩ := first
      rw [word?, List.dropWhile_cons_of_neg (by simp [opens.1])] at word
      cases kind <;> simp_all [startsDefinition]
  have statement : Statement (first :: rest) :=
    ⟨h.placed.solid, h.whole.balanced, ⟨first, rfl, by rw [opens, plain]; rfl⟩, h.whole.bridged⟩
  have own : MemberOf (first :: rest) value := by
    obtain ⟨c, p, outside, split, read, same, -⟩ := h.ahead
    exact ⟨c, p, outside, split, read, same⟩
  obtain ⟨found, kind, same⟩ := own.word statement
  obtain rfl : found = .kwImport := Option.some.inj (same.symm.trans word)
  cases value with
  | imports decl => exact ⟨decl, rfl⟩
  | container decl => cases shown : decl.kind <;> simp [Member.word?, shown, ContainerKind.word] at kind
  | _ => simp [Member.word?] at kind

/-- What is shown for a definition is on one line, and the values that are shown have names. -/
theorem shows (h : Holds source part value) : ∀ item ∈ displayItems part,
    item.OneLine ∧ ∀ name, item = .identity name → IsName name := by
  obtain ⟨tokens, before, after, lexes, rfl⟩ := h.placed.lexed
  have lexed := lexed_of_tokenize lexes
  have among : ∀ token ∈ part, token ∈ before ++ (part ++ after) := fun token mem => by simp [mem]
  have lines : ∀ token ∈ part, token.kind ≠ .string → '\n' ∉ token.lexeme.toList :=
    fun token mem => lexed.oneLine token (among token mem)
  have free : ∀ item ∈ displayItems part, item.OneLine := by
    refine displayItems_oneLine (fun token mem kind => lines token mem (by simp [kind])) ?_
    intro word token mem
    obtain ⟨decl, rfl⟩ := h.imports word
    exact lines token mem (h.ahead.wordy token mem)
  refine fun item mem => ⟨free item mem, ?_⟩
  rintro name rfl
  obtain ⟨token, found, kind, rfl⟩ := identity_mem mem
  exact lexed.names token (among token found) kind

end Holds

variable {line : String} {several : Bool} {index : Nat} {parts : List (List Token)}
  {values : List Member}

/-- The codes of the statements are lines that are read as the members that a wrapper makes. -/
theorem declarationsFrom_lines (each : List.Forall₂ (Holds source) parts values)
    (letters : ∀ c ∈ line.toList, Ascii.isWord c = true) : ∃ phrases,
      Spells false (paragraph ((declarationsFrom source line several index parts).map (·.code.toList)))
        (lined phrases) false ∧
      List.Forall₂ LineReads phrases (Member.unplacedAll (Member.results line several index values)) := by
  induction each generalizing index with
  | nil => exact ⟨[], .nil false, .nil⟩
  | @cons part value parts values own others ih =>
    obtain ⟨phrase, spells, reads⟩ := own.line (isName_resultName letters several index)
    obtain ⟨phrases, more, each⟩ := @ih (if value.isExpr then index + 1 else index)
    refine ⟨phrase :: phrases, ?_, .cons reads each⟩
    have whole := spells.append more
    unfold declarationsFrom
    rw [own.ahead.isExpression] at whole ⊢
    generalize value.isExpr = bare at whole ⊢
    cases bare <;> simpa [lined, paragraph] using whole

/-- What is shown for the statements is on one line each, and the values that are shown have
names. -/
theorem declarationsFrom_shows (each : List.Forall₂ (Holds source) parts values)
    (letters : ∀ c ∈ line.toList, Ascii.isWord c = true) :
    ∀ decl ∈ declarationsFrom source line several index parts, ∀ item ∈ decl.display,
      item.OneLine ∧ ∀ name, item = .identity name → IsName name := by
  induction each generalizing index with
  | nil => simp [declarationsFrom]
  | @cons part value parts values own others ih =>
    have named := isName_resultName letters several index
    unfold declarationsFrom
    simp only
    split
    · refine List.forall_mem_cons.mpr ⟨?_, ih⟩
      simp only [List.mem_singleton, forall_eq]
      refine ⟨fun mem => ?_, fun name same => ?_⟩
      · have letter := named.1.letters _ mem
        revert letter
        decide
      · cases same
        exact named
    · exact List.forall_mem_cons.mpr ⟨own.shows, ih⟩

theorem declarationsFrom_length : (declarationsFrom source line several index parts).length =
    parts.length := by
  induction parts generalizing index with
  | nil => rfl
  | cons part parts ih =>
    unfold declarationsFrom
    simp only
    split <;> rw [List.length_cons, ih, List.length_cons]

/-- The line that shows items is read as a function. -/
theorem showLine_reads {items : List DisplayItem} {path : String} (named : IsName path)
    (oneLine : ∀ item ∈ items, item.OneLine) (names : ∀ name, .identity name ∈ items → IsName name) :
    ∃ phrase value, Spells false ((showLine items path).toList ++ ['\n']) (phrase ++ [Printer.line])
        false ∧
      LineReads phrase value := by
  have segments : ∀ segment ∈ [path], IsName segment := by simpa using named
  obtain ⟨part, parts, shown⟩ := List.exists_cons_of_ne_nil (displayParts_ne_nil items)
  have calls : ∀ other ∈ part :: parts, ∀ name, other = .call name → IsName name := by
    rintro _ mem name rfl
    exact names name (identity_of_call (shown ▸ mem))
  have value : ValueReads (DisplayPart.joined [path] (part :: parts))
      (.concats (part.tree path []) (parts.map (DisplayPart.tree path []))) := by
    refine ⟨?_, fun outside start stops =>
      DisplayPart.expr_at segments calls start (ends_behind outside stops)⟩
    rw [DisplayPart.joined_links]
    cases part with
    | literal text | line => exact ⟨_, _, rfl, .inl rfl⟩
    | call name => exact ⟨_, _, rfl, .inl (by decide)⟩
  have code : Spells true (displayCode items path).toList (DisplayPart.joined [path] (part :: parts))
      true := by
    have whole : Spells true _ _ true := DisplayPart.spells_joined (displayParts_ne_nil items)
      (named_displayParts fun name mem => (names name mem).1) (oneLine_displayParts oneLine)
      (List.cons_ne_nil path []) fun segment mem => (segments segment mem).1
    rw [← displayCode_parts, shown] at whole
    exact whole
  refine ⟨_, _, ?_, value.shown⟩
  rw [showLine_toList]
  exact (spells_show.append code).atEnd.line

end Fragment

end ScriptShell
