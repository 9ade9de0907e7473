import ScriptShell.Proofs.Parsing.Operators
import ScriptShell.Proofs.Printing.Ledgers

/-!
The code that shows items as an expression. It joins its parts with `++`, and it is read as the chain of these
parts, nested to the left: literals with the texts of the items as they are, whatever characters they have, and
calls of `show` on the members that are shown.
-/
namespace ScriptShell

open Lexer Printer Cursor ScriptShell.Parser

/-- Operands joined by `++`, nested to the left. -/
def Expr.concats (first : Expr) (rest : List Expr) : Expr :=
  rest.foldl (.binary .anywhere .concat · ·) first

namespace DisplayPart

/-- What a part means, for members that are found under a path. -/
def tree (head : String) (rest : List String) : DisplayPart → Expr
  | .literal text => .str .anywhere text
  | .line => .str .anywhere "\n"
  | .call name =>
    .call .anywhere (.name .anywhere "show") [.select .anywhere (.ofPath .anywhere head rest) name]

variable {c : Cursor} {tail : List Token} {head : String} {rest : List String} {part : DisplayPart}
  {parts : List DisplayPart}

/-- A path is read as one argument. -/
theorem argument_path (h : c.At (named head :: further rest) tail)
    (closes : (c.behind tail).kind = .punct .closeParen) :
    Gives (argumentList c) Expr.unplacedAll [.ofPath .anywhere head rest] tail := by
  have kind : c.kind = .identifier := h.nameKind
  have atom : atom? c.current = some (.name c.current.span c.current.lexeme) := by
    have own : c.current.kind = .identifier := kind
    rw [atom?, own]
  obtain ⟨name, read, own, cursor⟩ := primary_atom atom
  have ends := ends_of_closing closes
  have next : name.cursor.At (further rest) tail := cursor ▸ h.nameNext
  have place := name.follows.reaches.behind tail
  obtain ⟨path, others, value, final⟩ :=
    postfixRest_path name.value next (place ▸ ends.call) (place ▸ ends.dot)
  have final : path.cursor = c.behind tail := final.trans place
  have postfixed : ∃ q, postfixed c = .ok q ∧ q.value = path.value ∧ q.cursor = path.cursor := by
    unfold Parser.postfixed
    exact ⟨_, Except.bind_ok.mpr ⟨name, read, Except.bind_ok.mpr ⟨path, others, rfl⟩⟩, rfl, rfl⟩
  obtain ⟨q, whole, same, cursor'⟩ := postfixed
  obtain ⟨e, done, same', last⟩ := expr_of_postfixed whole (by simp [kind]) (by rw [kind]; rfl)
    (by rw [cursor', final]; exact ends.operator)
  have last : e.cursor = c.behind tail := last.trans (cursor'.trans final)
  have none : ¬ e.cursor.kind = .punct .comma := by
    rw [last, closes]
    simp
  unfold argumentList
  refine ⟨_, Except.bind_ok.mpr ⟨e, done, dif_neg none⟩, ?_, last⟩
  have text : c.current.lexeme = head := h.lexeme (by simp [named])
  simp only [Expr.unplacedAll, same', same, value, own, Expr.unplaced, text, Expr.ofPath]

/-- The tokens of a call that shows a member. -/
theorem call_glyphs {name : String} (names : ∀ segment ∈ head :: rest, IsName segment)
    (own : IsName name) : (DisplayPart.call name).glyphs (head :: rest) =
      named "show" :: grouped (named head :: further (rest ++ [name])) := by
  have word : wordGlyph "show".toList = named "show" := by decide
  rw [glyphs, word, ImportEntry.dotted_names names, own.glyph]
  simp [grouped, further, Punct.glyph, Punct.text]

/-- The first token of a part opens an expression. -/
theorem glyphs_head (segments : List String) (part : DisplayPart) :
    ∃ first more, part.glyphs segments = first :: more ∧ first.1.isSeparator = false ∧
      first.1 ≠ .keyword .kwIf ∧ UnaryOp.ofToken? first.1 = none := by
  cases part with
  | literal text | line => exact ⟨_, _, rfl, rfl, by simp, rfl⟩
  | call name => exact ⟨_, _, rfl, by decide, by decide, rfl⟩

theorem literal_at {text : String} (h : c.At [(.string, text)] tail)
    (call : (c.behind tail).kind ≠ .punct .openParen)
    (dot : (c.behind tail).kindPastNewlines ≠ .punct .dot) :
    Gives (postfixed c) Expr.unplaced (.str .anywhere text) tail := by
  have atom : atom? c.current = some (.str c.current.span text) := by
    have kind : c.current.kind = .string := h.kind (by simp)
    have own : c.current.lexeme = text := h.lexeme (by simp)
    rw [atom?, kind, own]
  obtain ⟨p, read, own, cursor⟩ := primary_atom atom
  have place : p.cursor = c.behind tail :=
    cursor.trans ((h.next (by simp)).rest.trans ((reaches_next c).behind tail))
  obtain ⟨q, whole, value, final⟩ := postfixed_ends read (place ▸ call) (place ▸ dot)
  exact ⟨q, whole, by rw [value, own]; rfl, final.trans place⟩

theorem call_at {name : String} (h : c.At (named "show" :: grouped (named head :: further (rest ++ [name]))) tail)
    (call : (c.behind tail).kind ≠ .punct .openParen)
    (dot : (c.behind tail).kindPastNewlines ≠ .punct .dot) :
    Gives (postfixed c) Expr.unplaced (tree head rest (.call name)) tail := by
  have atom : atom? c.current = some (.name c.current.span "show") := by
    have kind : c.current.kind = .identifier := h.nameKind
    have own : c.current.lexeme = "show" := h.lexeme (by simp [named])
    rw [atom?, kind, own]
  obtain ⟨p, read, own, cursor⟩ := primary_atom atom
  have next : p.cursor.At (grouped (named head :: further (rest ++ [name]))) tail := cursor ▸ h.nameNext
  have place := p.follows.reaches.behind tail
  obtain ⟨r, others, value, final⟩ := postfixRest_arguments p.value next
    (arguments_list next (by rfl) argument_path) (place ▸ call) (place ▸ dot)
  unfold postfixed
  refine ⟨_, Except.bind_ok.mpr ⟨p, read, Except.bind_ok.mpr ⟨r, others, rfl⟩⟩, ?_, final.trans place⟩
  rw [value, own, Expr.ofPath, List.foldl_append]
  rfl

/-- A part is read as an operand, whatever follows that belongs to no operand. -/
theorem unary_at (names : ∀ segment ∈ head :: rest, IsName segment)
    (own : ∀ name, part = .call name → IsName name) (h : c.At (part.glyphs (head :: rest)) tail)
    (call : (c.behind tail).kind ≠ .punct .openParen)
    (dot : (c.behind tail).kindPastNewlines ≠ .punct .dot) :
    ∃ p, unary c = .ok p ∧ p.value.unplaced = part.tree head rest ∧ p.cursor = c.behind tail := by
  have operand : Gives (postfixed c) Expr.unplaced (part.tree head rest) tail := by
    cases part with
    | literal text | line => exact literal_at h call dot
    | call name => exact call_at (call_glyphs names (own name rfl) ▸ h) call dot
  obtain ⟨p, read, same, place⟩ := operand
  obtain ⟨first, more, shown, solid, -, plain⟩ := part.glyphs_head (head :: rest)
  rw [shown] at h
  obtain ⟨q, whole, value, cursor⟩ := unary_of_postfixed read (h.kind (TokenKind.ne_newline solid) ▸ plain)
  exact ⟨q, whole, value ▸ same, cursor.trans place⟩

/-- The tokens of further operands. -/
def links (segments : List String) (parts : List DisplayPart) : List Glyph :=
  parts.flatMap fun part => Punct.concat.glyph :: part.glyphs segments

theorem joined_links (segments : List String) (part : DisplayPart) (parts : List DisplayPart) :
    joined segments (part :: parts) = part.glyphs segments ++ links segments parts := by
  induction parts generalizing part with
  | nil => simp [joined, links, List.intercalate]
  | cons second rest ih =>
    rw [joined_cons part (by simp), ih second]
    simp [links, Punct.glyph, Punct.text]

/-- What stands behind an operand belongs to no operand. -/
theorem follow_at {segments : List String} (h : c.At (links segments parts) tail) (ends : Ends (c.behind tail)) :
    c.kind ≠ .punct .openParen ∧ c.kindPastNewlines ≠ .punct .dot ∧ Loose 1 c := by
  cases parts with
  | nil =>
    have place := At.rest h
    rw [← place] at ends
    exact ⟨ends.call, ends.dot, loose_of_none ends.operator⟩
  | cons part rest =>
    have kind : c.kind = .punct .concat := At.markKind h
    have past : c.kindPastNewlines = .punct .concat := At.past h (by simp [Punct.glyph])
    refine ⟨by simp [kind], by simp [past], fun op found => ?_⟩
    rw [kind] at found
    cases found
    decide

/-- The loop that reads `++` takes all further operands. -/
theorem binaryRest_concats (names : ∀ segment ∈ head :: rest, IsName segment)
    (own : ∀ part ∈ parts, ∀ name, part = .call name → IsName name) (left : Expr)
    (h : c.At (links (head :: rest) parts) tail) (ends : Ends (c.behind tail)) :
    ∃ r, binaryRest ⟨1, by decide⟩ left c = .ok r ∧
      r.value.unplaced = .concats left.unplaced (parts.map (tree head rest)) ∧
      r.cursor = c.behind tail := by
  induction parts generalizing c left with
  | nil =>
    have place := At.rest h
    rw [← place] at ends ⊢
    obtain ⟨r, stops, value, cursor⟩ := binaryRest_ends ⟨1, by decide⟩ left (loose_of_none ends.operator)
    exact ⟨r, stops, value ▸ rfl, cursor⟩
  | cons part parts ih =>
    rw [List.forall_mem_cons] at own
    have kind : c.kind = .punct .concat := At.markKind h
    have next : c.next.At (part.glyphs (head :: rest) ++ links (head :: rest) parts) tail := At.markNext h
    obtain ⟨middle, operand, after⟩ := next.append
    obtain ⟨first, more, shown, solid, word, -⟩ := part.glyphs_head (head :: rest)
    have stays : c.next.skipNewlines = c.next := At.skipNewlines (shown ▸ operand) (TokenKind.ne_newline solid)
    have goes : c.next.kind ≠ .keyword .kwIf := At.kind (shown ▸ operand) (TokenKind.ne_newline solid) ▸ word
    have place : (c.next.behind middle).behind tail = c.behind tail := (reaches_next c).behind tail
    obtain ⟨call, dot, loose⟩ := follow_at after (place ▸ ends)
    have right : ∃ q, (if c.next.skipNewlines.kind = .keyword .kwIf then condition c.next.skipNewlines
        else binary ⟨1, by decide⟩ c.next.skipNewlines) = .ok q ∧
          q.value.unplaced = part.tree head rest ∧ q.cursor = c.next.behind middle := by
      obtain ⟨p, read, same, cursor⟩ := unary_at names own.1 operand call dot
      obtain ⟨q, whole, value, cursor'⟩ := binary_of_unary read 1 (by decide) (cursor ▸ loose)
      rw [stays, if_neg goes]
      exact ⟨q, whole, value ▸ same, cursor'.trans cursor⟩
    obtain ⟨q, read, same, stop⟩ := right
    have behind : q.cursor.behind tail = c.behind tail := stop ▸ place
    obtain ⟨r, others, tree, final⟩ := ih own.2 (.binary c.current.span .concat left q.value)
      (stop ▸ after) (behind ▸ ends)
    unfold binaryRest
    split
    · next none =>
      rw [kind] at none
      cases none
    · next op found =>
      rw [kind] at found
      obtain rfl : BinaryOp.concat = op := Option.some.inj found
      refine ⟨_, (if_pos rfl).trans (Except.bind_ok.mpr ⟨q, read, Except.bind_ok.mpr ⟨r, others, rfl⟩⟩),
        ?_, final.trans behind⟩
      rw [tree, Expr.unplaced, same]
      rfl

/-- Joined parts are read as their chain, if nothing continues it. -/
theorem expr_at (names : ∀ segment ∈ head :: rest, IsName segment)
    (own : ∀ other ∈ part :: parts, ∀ name, other = .call name → IsName name)
    (h : c.At (joined (head :: rest) (part :: parts)) tail) (ends : Ends (c.behind tail)) :
    Gives (expr c) Expr.unplaced (.concats (part.tree head rest) (parts.map (tree head rest))) tail := by
  rw [joined_links] at h
  rw [List.forall_mem_cons] at own
  obtain ⟨middle, operand, after⟩ := h.append
  have place : (c.behind middle).behind tail = c.behind tail := rfl
  obtain ⟨call, dot, loose⟩ := follow_at after (place ▸ ends)
  obtain ⟨p, read, same, cursor⟩ := unary_at names own.1 operand call dot
  obtain ⟨q, whole, value, cursor'⟩ := binary_of_unary read 1 (by decide) (cursor ▸ loose)
  have stop : q.cursor = c.behind middle := cursor'.trans cursor
  obtain ⟨r, others, tree, final⟩ := binaryRest_concats names own.2 q.value (stop ▸ after) (stop ▸ ends)
  have final : r.cursor = c.behind tail := final.trans (stop ▸ place)
  have chain : ∃ p, binary ⟨2, by decide⟩ c = .ok p ∧ p.value = r.value ∧ p.cursor = r.cursor := by
    unfold binary
    exact ⟨_, Except.bind_ok.mpr ⟨q, whole, Except.bind_ok.mpr ⟨r, others, rfl⟩⟩, rfl, rfl⟩
  obtain ⟨e, first, own, last⟩ := chain
  obtain ⟨w, done, value', cursor''⟩ :=
    binary_mono first (by rw [last, final]; exact ends.operator) 4 (by decide)
  obtain ⟨opening, more, shown, solid, word, -⟩ := part.glyphs_head (head :: rest)
  have goes : c.kind ≠ .keyword .kwIf := At.kind (shown ▸ operand) (TokenKind.ne_newline solid) ▸ word
  rw [expr_eq, if_neg goes]
  refine ⟨w, done, ?_, cursor''.trans (last.trans final)⟩
  rw [value', own, tree, value, same]

end DisplayPart

/-- The texts of the parts have no line end, if those of the items have none. -/
theorem oneLine_displayParts {items : List DisplayItem} (oneLine : ∀ item ∈ items, item.OneLine) :
    ∀ part ∈ displayParts items, part.OneLine := by
  intro part mem
  rcases mem_displayParts mem with rfl | rfl | ⟨item, listed, own⟩
  · simp [DisplayPart.OneLine]
  · trivial
  · have free := oneLine item listed
    cases item <;> simp only [DisplayItem.parts, List.mem_cons, List.not_mem_nil, or_false] at own
    case identity name =>
      rcases own with rfl | rfl
      · simpa [DisplayPart.OneLine, DisplayItem.OneLine] using free
      · trivial
    all_goals
      subst own
      simpa [DisplayPart.OneLine, DisplayItem.OneLine] using free

/-- The code that shows items is lexed into the tokens of its parts. -/
theorem tokenize_displayCode {items : List DisplayItem} {segments : List String}
    (oneLine : ∀ item ∈ items, item.OneLine)
    (named : ∀ name, .identity name ∈ items → IsWord name.toList) (some : segments ≠ [])
    (words : ∀ segment ∈ segments, IsWord segment.toList) :
    ∃ tokens, tokenize (displayCode items (joinPath segments)) = .ok tokens ∧
      tokens.map Token.glyph = DisplayPart.joined segments (displayParts items) ++ [(.endOfInput, "")] := by
  have whole : Spells false _ _ true := DisplayPart.spells_joined (displayParts_ne_nil items)
    (named_displayParts named) (oneLine_displayParts oneLine) some words
  rw [← displayCode_parts] at whole
  have spelled := whole []
  rw [List.append_nil] at spelled
  exact Fragment.tokenize_of_spell (spelled.trans (by rw [spell, scan]; rfl))

/-- The code that shows items is an expression: the chain of its parts. -/
theorem display_code_reads_back (items : List DisplayItem) (head : String) (rest : List String)
    (oneLine : ∀ item ∈ items, item.OneLine) (named : ∀ name, .identity name ∈ items → IsName name)
    (names : ∀ segment ∈ head :: rest, IsName segment) :
    ∃ tokens tree part parts, tokenize (displayCode items (joinPath (head :: rest))) = .ok tokens ∧
      parseExpr tokens = .ok tree ∧ displayParts items = part :: parts ∧
      tree.unplaced = .concats (part.tree head rest) (parts.map (DisplayPart.tree head rest)) := by
  obtain ⟨tokens, lexed, glyphs⟩ := tokenize_displayCode oneLine
    (fun name mem => (named name mem).1) (by simp) fun segment mem => (names segment mem).1
  obtain ⟨part, parts, shown⟩ := List.exists_cons_of_ne_nil (displayParts_ne_nil items)
  rw [shown] at glyphs
  obtain ⟨front, ending, rfl, fronts, endings⟩ := List.map_eq_append_iff.mp glyphs
  have solid : ∀ token ∈ front, token.kind ≠ .endOfInput := by
    intro token mem
    have listed := List.mem_map_of_mem (f := Token.glyph) mem
    rw [fronts] at listed
    exact (DisplayPart.calm_joined _ _).solid _ listed
  have stops : ∀ token ∈ ending, token.kind = .endOfInput := by
    intro token mem
    have listed := List.mem_map_of_mem (f := Token.glyph) mem
    rw [endings, List.mem_singleton] at listed
    exact congrArg Prod.fst listed
  obtain ⟨tail, final, ends, start, left⟩ := Cursor.ofTokens_solid solid stops
  let c : Cursor := ⟨front ++ tail, final, 0, ends⟩
  have here : c.At (DisplayPart.joined (head :: rest) (part :: parts)) tail := ⟨front, rfl, fronts⟩
  have behind : Cursor.Ends (c.behind tail) ∧ (c.behind tail).skipSeparators.kind = .endOfInput :=
    Cursor.ends_of_stops rfl left
  have calls : ∀ other ∈ part :: parts, ∀ name, other = .call name → IsName name := by
    rintro _ mem name rfl
    exact named name (identity_of_call (shown ▸ mem))
  obtain ⟨p, read, same, cursor⟩ := DisplayPart.expr_at names calls here behind.1
  have stay : c.skipSeparators = c := by
    obtain ⟨first, more, glyph, solid, -⟩ := part.glyphs_head (head :: rest)
    rw [DisplayPart.joined_links, glyph] at here
    exact At.skipSeparators here solid
  refine ⟨_, p.value, part, parts, lexed, ?_, shown, same⟩
  unfold parseExpr
  rw [start, stay]
  exact Except.bind_ok.mpr ⟨p, read, if_pos (cursor ▸ behind.2)⟩

/-- A definition whose name ends in a backslash, and a value. -/
theorem display_code_reads_back_of_two :
    (∀ item ∈ [DisplayItem.definition "class" "a\"\\", .identity "b"], item.OneLine) ∧
    ∃ tokens tree, tokenize (displayCode [.definition "class" "a\"\\", .identity "b"] "cmd0.INSTANCE") =
        .ok tokens ∧
      parseExpr tokens = .ok tree ∧
      tree.unplaced = .binary .anywhere .concat
        (.binary .anywhere .concat
          (.binary .anywhere .concat (.str .anywhere "defined class a\"\\") (.str .anywhere "\n"))
          (.str .anywhere "b = "))
        (.call .anywhere (.name .anywhere "show")
          [.select .anywhere (.select .anywhere (.name .anywhere "cmd0") "INSTANCE") "b"]) := by
  refine ⟨by decide, ?_⟩
  obtain ⟨tokens, tree, part, parts, lexed, parsed, shown, same⟩ :=
    display_code_reads_back [.definition "class" "a\"\\", .identity "b"] "cmd0" ["INSTANCE"] (by decide)
      (by simpa using by decide) (by decide)
  have known : displayParts [.definition "class" "a\"\\", .identity "b"] =
      [.literal "defined class a\"\\", .line, .literal "b = ", .call "b"] := by decide
  obtain ⟨rfl, rfl⟩ := List.cons.inj (known.symm.trans shown)
  exact ⟨tokens, tree, lexed, parsed, same⟩

end ScriptShell
