import ScriptShell.Proofs.Printing.Lexing
import ScriptShell.Proofs.Splitting.Rereading

/-!
The parser in front of printed tokens. A cursor stands *at* a token list when the tokens in front
of a tail are those of the list, apart from their places. Every phrase that was printed is read up
to the tail, if nothing in the tail continues it: no operator, no argument list, and no `.` even
behind newlines.
-/
namespace ScriptShell

open Lexer Printer

namespace Cursor

variable {c : Cursor} {glyph : Glyph} {glyphs others : List Glyph} {tail : List Token}

/-- The cursor stands in front of the given tokens and a tail. -/
def At (c : Cursor) (glyphs : List Glyph) (tail : List Token) : Prop :=
  ∃ own, c.rest = own ++ tail ∧ own.map Token.glyph = glyphs

/-- The cursor in front of a tail. -/
def behind (c : Cursor) (tail : List Token) : Cursor := { c with rest := tail }

/-- Reading leaves only the tokens that are left different. -/
theorem Reaches.behind {d : Cursor} (h : c.Reaches d) (tail : List Token) :
    d.behind tail = c.behind tail := by
  obtain ⟨-, final, depth⟩ := h
  cases d
  cases c
  cases final
  cases depth
  rfl

namespace At

theorem rest (h : c.At [] tail) : c = c.behind tail := by
  obtain ⟨own, split, none⟩ := h
  obtain rfl : own = [] := List.map_eq_nil_iff.mp none
  cases c
  cases split
  rfl

theorem append (h : c.At (glyphs ++ others) tail) :
    ∃ middle, c.At glyphs middle ∧ (c.behind middle).At others tail := by
  obtain ⟨own, split, spelled⟩ := h
  obtain ⟨front, back, rfl, fronts, backs⟩ := List.map_eq_append_iff.mp spelled
  exact ⟨back ++ tail, ⟨front, by rw [split, List.append_assoc], fronts⟩, back, rfl, backs⟩

theorem cons (h : c.At (glyph :: glyphs) tail) :
    ∃ token rest, c.rest = token :: rest ∧ token.glyph = glyph ∧ (c.behind rest).At glyphs tail := by
  obtain ⟨own, split, spelled⟩ := h
  obtain ⟨token, back, rfl, first, backs⟩ := List.map_eq_cons_iff.mp spelled
  exact ⟨token, back ++ tail, split, first, back, rfl, backs⟩

theorem visible (h : c.At (glyph :: glyphs) tail) (solid : glyph.1 ≠ .newline) :
    c.visible = c.rest := by
  obtain ⟨token, rest, split, rfl, -⟩ := h.cons
  unfold Cursor.visible
  split
  · rfl
  · rw [split]
    exact List.dropWhile_cons_of_neg (by simpa [Token.glyph] using solid)

/-- The first token is read. -/
theorem current (h : c.At (glyph :: glyphs) tail) (solid : glyph.1 ≠ .newline) :
    c.current.glyph = glyph := by
  have seen := h.visible solid
  obtain ⟨token, rest, split, own, -⟩ := h.cons
  rw [Cursor.current, seen, split]
  exact own

theorem kind (h : c.At (glyph :: glyphs) tail) (solid : glyph.1 ≠ .newline) :
    c.kind = glyph.1 :=
  congrArg Prod.fst (h.current solid)

theorem lexeme (h : c.At (glyph :: glyphs) tail) (solid : glyph.1 ≠ .newline) :
    c.current.lexeme = glyph.2 :=
  congrArg Prod.snd (h.current solid)

theorem next (h : c.At (glyph :: glyphs) tail) (solid : glyph.1 ≠ .newline) :
    c.next.At glyphs tail := by
  have seen := h.visible solid
  obtain ⟨token, rest, split, -, ⟨own, left, spelled⟩⟩ := h.cons
  refine ⟨own, ?_, spelled⟩
  rw [Cursor.next, seen, split]
  exact left

theorem skipNewlines (h : c.At (glyph :: glyphs) tail) (solid : glyph.1 ≠ .newline) :
    c.skipNewlines = c := by
  obtain ⟨token, rest, split, rfl, -⟩ := h.cons
  unfold Cursor.skipNewlines
  rw [split, List.dropWhile_cons_of_neg (by simpa [Token.glyph] using solid), ← split]

theorem skipSeparators (h : c.At (glyph :: glyphs) tail) (solid : glyph.1.isSeparator = false) :
    c.skipSeparators = c := by
  obtain ⟨token, rest, split, rfl, -⟩ := h.cons
  unfold Cursor.skipSeparators
  rw [split, List.dropWhile_cons_of_neg (by simpa [Token.glyph] using solid), ← split]

theorem past (h : c.At (glyph :: glyphs) tail) (solid : glyph.1 ≠ .newline) :
    c.kindPastNewlines = glyph.1 := by
  rw [Cursor.kindPastNewlines, h.skipNewlines solid]
  obtain ⟨token, rest, split, rfl, -⟩ := h.cons
  rw [split]
  rfl

end At

theorem expect_at {kind : TokenKind} {what : String} {known : kind ≠ .endOfInput}
    (h : c.kind = kind) : ∃ p, c.expect kind what known = .ok p ∧ p.value = c.current ∧
      p.cursor = c.next :=
  ⟨_, dif_pos h, rfl, rfl⟩

namespace At

section Mark

variable {mark : Punct}

theorem markKind (h : c.At (mark.glyph :: glyphs) tail) : c.kind = .punct mark :=
  h.kind (by simp [Punct.glyph])

theorem markNext (h : c.At (mark.glyph :: glyphs) tail) : c.next.At glyphs tail :=
  h.next (by simp [Punct.glyph])

theorem expectMark (h : c.At (mark.glyph :: glyphs) tail) (what : String) :
    ∃ p, c.expectMark mark what = .ok p ∧ p.value = c.current ∧ p.cursor = c.next ∧
      p.cursor.At glyphs tail := by
  obtain ⟨p, read, value, cursor⟩ :
      ∃ p, c.expectMark mark what = .ok p ∧ p.value = c.current ∧ p.cursor = c.next :=
    expect_at h.markKind
  exact ⟨p, read, value, cursor, cursor ▸ h.markNext⟩

end Mark

section Word

variable {word : Keyword}

theorem wordKind (h : c.At (word.glyph :: glyphs) tail) : c.kind = .keyword word :=
  h.kind (by simp [Keyword.glyph])

theorem wordNext (h : c.At (word.glyph :: glyphs) tail) : c.next.At glyphs tail :=
  h.next (by simp [Keyword.glyph])

theorem expectWord (h : c.At (word.glyph :: glyphs) tail) (what : String) :
    ∃ p, c.expectWord word what = .ok p ∧ p.value = c.current ∧ p.cursor.At glyphs tail := by
  obtain ⟨p, read, value, cursor⟩ :
      ∃ p, c.expectWord word what = .ok p ∧ p.value = c.current ∧ p.cursor = c.next :=
    expect_at h.wordKind
  exact ⟨p, read, value, cursor ▸ h.wordNext⟩

end Word

section Name

variable {text : String}

theorem nameKind (h : c.At (named text :: glyphs) tail) : c.kind = .identifier :=
  h.kind (by simp [named])

theorem nameNext (h : c.At (named text :: glyphs) tail) : c.next.At glyphs tail :=
  h.next (by simp [named])

theorem expectName (h : c.At (named text :: glyphs) tail) (what : String) :
    ∃ p, c.expectName what = .ok p ∧ p.value.lexeme = text ∧ p.cursor.At glyphs tail := by
  obtain ⟨p, read, value, cursor⟩ :
      ∃ p, c.expectName what = .ok p ∧ p.value = c.current ∧ p.cursor = c.next :=
    expect_at h.nameKind
  exact ⟨p, read, value ▸ h.lexeme (by simp [named]), cursor ▸ h.nameNext⟩

end Name

end At

/-- Nothing continues an expression here. -/
structure Ends (c : Cursor) : Prop where
  operator : BinaryOp.ofToken? c.kind = none
  call : c.kind ≠ .punct .openParen
  dot : c.kindPastNewlines ≠ .punct .dot

theorem At.ends (h : c.At (glyph :: glyphs) tail) (solid : glyph.1 ≠ .newline)
    (operator : BinaryOp.ofToken? glyph.1 = none) (call : glyph.1 ≠ .punct .openParen)
    (dot : glyph.1 ≠ .punct .dot) : Ends c where
  operator := h.kind solid ▸ operator
  call := h.kind solid ▸ call
  dot := h.past solid ▸ dot

theorem past_of_kind (h : c.kind ≠ .newline) : c.kindPastNewlines = c.kind := by
  rw [kindPastNewlines, kind, current]
  unfold visible
  split
  · next outside =>
    rw [kind, current, visible, if_pos outside] at h
    rw [skipNewlines]
    cases split : c.rest with
    | nil => rfl
    | cons token rest =>
      rw [split] at h
      have solid : token.kind ≠ .newline := h
      simp [solid]
  · rfl

theorem ends_of_closing (h : c.kind = .punct .closeParen) : Ends c := by
  have past : c.kindPastNewlines = .punct .closeParen := (past_of_kind (by simp [h])).trans h
  exact ⟨by rw [h]; rfl, by simp [h], by simp [past]⟩

theorem At.lineKind (h : c.At (line :: glyphs) tail) (outside : c.depth = 0) :
    c.kind = .newline := by
  obtain ⟨token, rest, split, own, -⟩ := h.cons
  rw [kind_of_rest outside split]
  exact congrArg Prod.fst own

/-- At the end of a line nothing continues an expression, if the next line does not start with a
dot. -/
theorem At.endsLine (h : c.At (line :: glyph :: glyphs) tail) (outside : c.depth = 0)
    (solid : glyph.1 ≠ .newline) (dot : glyph.1 ≠ .punct .dot) : Ends c := by
  have kind := h.lineKind outside
  refine ⟨by rw [kind]; rfl, by simp [kind], ?_⟩
  obtain ⟨token, rest, split, own, after⟩ := h.cons
  obtain ⟨next, others, shown, rfl, -⟩ := after.cons
  have first : token.kind = .newline := congrArg Prod.fst own
  have second : next.kind ≠ .newline := solid
  have seen : rest = next :: others := shown
  rw [kindPastNewlines, Cursor.skipNewlines, split, seen]
  simpa [first, second, Token.glyph] using dot

/-- Behind the end of a line the next one starts. -/
theorem At.skipLine (h : c.At (line :: glyph :: glyphs) tail)
    (solid : glyph.1.isSeparator = false) : c.skipSeparators.At (glyph :: glyphs) tail := by
  obtain ⟨token, rest, split, own, after⟩ := h.cons
  obtain ⟨next, others, shown, rfl, left⟩ := after.cons
  have first : token.kind = .newline := congrArg Prod.fst own
  have second : next.kind.isSeparator = false := solid
  have seen : rest = next :: others := shown
  obtain ⟨own', behind, spelled⟩ := left
  refine ⟨next :: own', ?_, by rw [List.map_cons, spelled]⟩
  rw [Cursor.skipSeparators, split, seen]
  have last : others = own' ++ tail := behind
  have newline : TokenKind.newline.isSeparator = true := rfl
  simp [first, second, last, newline]

/-- Behind the end of the last line nothing is left. -/
theorem At.skipLast (h : c.At [line] []) : c.skipSeparators.At [] [] := by
  obtain ⟨token, rest, split, own, after⟩ := h.cons
  have newline : token.kind = .newline := congrArg Prod.fst own
  have none : rest = [] := congrArg Cursor.rest after.rest
  refine ⟨[], ?_, rfl⟩
  rw [Cursor.skipSeparators, split, none]
  simp [newline, TokenKind.isSeparator]

end Cursor

namespace Parser

open Cursor

variable {c : Cursor} {tail : List Token} {glyphs : List Glyph}

/-- What was read in front of a tail, without its places. -/
def Gives {α β : Type} (read : Parse α c) (bare : α → β) (value : β) (tail : List Token) : Prop :=
  ∃ p, read = .ok p ∧ bare p.value = value ∧ p.cursor = c.behind tail

/-- What was read in front of a tail, perhaps from no token, without its places. -/
def Gains {α β : Type} (read : Extend α c) (bare : α → β) (value : β) (tail : List Token) : Prop :=
  ∃ r, read = .ok r ∧ bare r.value = value ∧ r.cursor = c.behind tail

section Types

theorem pathRest_at {what : String} {rest : List String} (h : c.At (further rest) tail)
    (stops : (c.behind tail).kind ≠ .punct .dot) :
    Gains (pathRest what c) id rest tail := by
  induction rest generalizing c with
  | nil =>
    have place := h.rest
    rw [← place] at stops
    unfold pathRest
    exact ⟨_, dif_neg stops, rfl, place⟩
  | cons segment rest ih =>
    obtain ⟨name, read, text, onward⟩ := At.expectName h.markNext what
    have place := ((reaches_next c).trans name.follows.reaches).behind tail
    obtain ⟨others, more, same, final⟩ := ih onward (place ▸ stops)
    unfold pathRest
    rw [dif_pos h.markKind]
    exact ⟨_, Except.bind_ok.mpr ⟨name, read, Except.bind_ok.mpr ⟨others, more, rfl⟩⟩,
      congrArg₂ List.cons text same, final.trans place⟩

theorem typeRef_at {ref : TypeRef} (valid : ref.Valid) (h : c.At ref.glyphs tail)
    (stops : (c.behind tail).kind ≠ .punct .dot) :
    Gives (typeRef c) TypeRef.unplaced ref.unplaced tail := by
  obtain ⟨first, rest, shown⟩ := List.exists_cons_of_ne_nil valid.1
  rw [TypeRef.glyphs, shown] at h
  obtain ⟨name, read, text, onward⟩ := At.expectName h "type name"
  have place := name.follows.reaches.behind tail
  obtain ⟨others, more, same, final⟩ := pathRest_at onward (place ▸ stops)
  unfold typeRef
  refine ⟨_, Except.bind_ok.mpr ⟨name, read, Except.bind_ok.mpr ⟨others, more, rfl⟩⟩, ?_,
    final.trans place⟩
  rw [id_eq] at same
  simp only [TypeRef.unplaced, shown, text, same]

theorem paramList_at {params : List ParamDecl} (valid : ∀ param ∈ params, param.Valid)
    (some : params ≠ []) (h : c.At (listed (params.map ParamDecl.glyphs)) tail)
    (closes : (c.behind tail).kind = .punct .closeParen) :
    Gives (paramList c) (List.map ParamDecl.unplaced) (params.map ParamDecl.unplaced) tail := by
  induction params generalizing c with
  | nil => exact absurd rfl some
  | cons param rest ih =>
    obtain ⟨middle, own, after⟩ := At.append h
    obtain ⟨name, read, text, ahead⟩ := At.expectName own "parameter name"
    obtain ⟨colon, mark, -, -, typed⟩ := ahead.expectMark "':' and a parameter type"
    have front := name.follows.then colon.follows
    have stops : (c.behind middle).kind ≠ .punct .dot := by
      split at after
      · rw [after.rest]
        exact fun dot => by cases closes.symm.trans dot
      · rw [At.markKind after]
        simp
    obtain ⟨type, written, same, final⟩ := typeRef_at (valid param List.mem_cons_self).2 typed
      (front.reaches.behind middle ▸ stops)
    have final : type.cursor = c.behind middle := final.trans (front.reaches.behind middle)
    have known : (⟨name.value.lexeme, type.value⟩ : ParamDecl).unplaced = param.unplaced := by
      simp only [ParamDecl.unplaced, text, same]
    unfold paramList
    cases rest with
    | nil =>
      have last : c.behind middle = c.behind tail := At.rest after
      have none : ¬ type.cursor.kind = .punct .comma := by
        rw [final, last, closes]
        simp
      exact ⟨_, Except.bind_ok.mpr ⟨name, read, Except.bind_ok.mpr ⟨colon, mark,
        Except.bind_ok.mpr ⟨type, written, dif_neg none⟩⟩⟩, congrArg (· :: []) known,
        final.trans last⟩
    | cons second rest =>
      have comma : type.cursor.At
          (Punct.comma.glyph :: listed ((second :: rest).map ParamDecl.glyphs)) tail :=
        final ▸ after
      have place : type.cursor.next.behind tail = c.behind tail := final ▸ rfl
      obtain ⟨others, more, same, final'⟩ := ih
        (fun other mem => valid other (List.mem_cons_of_mem _ mem)) (by simp) comma.markNext
        (place ▸ closes)
      exact ⟨_, Except.bind_ok.mpr ⟨name, read, Except.bind_ok.mpr ⟨colon, mark,
        Except.bind_ok.mpr ⟨type, written, (dif_pos comma.markKind).trans
          (Except.bind_ok.mpr ⟨others, more, rfl⟩)⟩⟩⟩, congrArg₂ List.cons known same,
        final'.trans place⟩

theorem params_at {params : List ParamDecl} (valid : ∀ param ∈ params, param.Valid)
    (h : c.At (ParamDecl.list params) tail) :
    Gives (Parser.params c) (List.map ParamDecl.unplaced) (params.map ParamDecl.unplaced) tail := by
  obtain ⟨opening, first, -, cursor, inside⟩ := At.expectMark h "'('"
  obtain ⟨middle, own, after⟩ := At.append (c := opening.cursor.deeper) inside
  have shut : (opening.cursor.deeper.behind middle).kind = .punct .closeParen := after.markKind
  unfold Parser.params
  cases params with
  | nil =>
    have place : opening.cursor.deeper = opening.cursor.deeper.behind middle := At.rest own
    rw [← place] at shut after
    obtain ⟨closing, last, -, cursor', done⟩ := after.expectMark "')'"
    refine ⟨_, Except.bind_ok.mpr ⟨opening, first, (if_pos shut).trans
      (Except.bind_ok.mpr ⟨closing, last, rfl⟩)⟩, rfl, ?_⟩
    show closing.cursor.shallower = _
    rw [done.rest, closing.follows.reaches.behind, cursor]
    rfl
  | cons param rest =>
    have goes : ¬ opening.cursor.deeper.kind = .punct .closeParen := by
      obtain ⟨more, front, -⟩ := At.append own
      rw [At.nameKind front]
      simp
    obtain ⟨list, inner, same, final⟩ := paramList_at valid (by simp) own shut
    rw [← final] at after
    obtain ⟨closing, last, -, -, done⟩ := after.expectMark "')'"
    refine ⟨_, Except.bind_ok.mpr ⟨opening, first, (if_neg goes).trans
      (Except.bind_ok.mpr ⟨list, inner, Except.bind_ok.mpr ⟨closing, last, rfl⟩⟩)⟩, same, ?_⟩
    show closing.cursor.shallower = _
    rw [done.rest, closing.follows.reaches.behind, final, cursor]
    rfl

theorem ascription_at {ref : Option TypeRef} (valid : ∀ type ∈ ref, type.Valid)
    (h : c.At (TypeRef.ascribed ref) tail) (stops : (c.behind tail).kind = .punct .assign) :
    Gains (ascription c) (Option.map TypeRef.unplaced) (ref.map TypeRef.unplaced) tail := by
  unfold ascription
  cases ref with
  | none =>
    have place : c = c.behind tail := At.rest h
    have none : ¬ c.kind = .punct .colon := by
      rw [place, stops]
      simp
    exact ⟨_, if_neg none, rfl, place⟩
  | some ref =>
    have kind : c.kind = .punct .colon := At.markKind h
    obtain ⟨type, written, same, final⟩ := typeRef_at (valid ref rfl) (At.markNext h)
      (by rw [(reaches_next c).behind, stops]; simp)
    exact ⟨_, (if_pos kind).trans (Except.bind_ok.mpr ⟨type, written, rfl⟩),
      congrArg some same, final.trans ((reaches_next c).behind tail)⟩

end Types

section Operands

/-- An operand that nothing continues is read with no selection and no argument list. -/
theorem postfixRest_ends (operand : Expr) (call : c.kind ≠ .punct .openParen)
    (dot : c.kindPastNewlines ≠ .punct .dot) :
    ∃ r, postfixRest operand c = .ok r ∧ r.value = operand ∧ r.cursor = c := by
  unfold postfixRest
  exact ⟨_, (if_neg dot).trans (if_neg call), rfl, rfl⟩

theorem postfixed_ends {p : Parsed Expr c} (h : primary c = .ok p)
    (call : p.cursor.kind ≠ .punct .openParen) (dot : p.cursor.kindPastNewlines ≠ .punct .dot) :
    ∃ q, postfixed c = .ok q ∧ q.value = p.value ∧ q.cursor = p.cursor := by
  obtain ⟨r, stops, value, cursor⟩ := postfixRest_ends p.value call dot
  unfold postfixed
  exact ⟨_, Except.bind_ok.mpr ⟨p, h, Except.bind_ok.mpr ⟨r, stops, rfl⟩⟩, value, cursor⟩

/-- What follows `p` is no operator of at most the given looseness. -/
def Loose (loose : Nat) (c : Cursor) : Prop :=
  ∀ op, BinaryOp.ofToken? c.kind = some op → loose < op.looseness

theorem Loose.mono {loose tighter : Nat} (h : Loose loose c) (le : tighter ≤ loose) :
    Loose tighter c :=
  fun op found => Nat.lt_of_le_of_lt le (h op found)

theorem loose_of_none {loose : Nat} (h : BinaryOp.ofToken? c.kind = none) : Loose loose c := by
  intro op found
  rw [h] at found
  cases found

theorem binaryRest_ends (tighter : Fin 6) (left : Expr) (h : Loose (tighter.val + 1) c) :
    ∃ r, binaryRest tighter left c = .ok r ∧ r.value = left ∧ r.cursor = c := by
  unfold binaryRest
  split
  · exact ⟨_, rfl, rfl, rfl⟩
  · next op found =>
    have tight : ¬ op.looseness = tighter.val + 1 := Nat.ne_of_gt (h op found)
    exact ⟨_, if_neg tight, rfl, rfl⟩

/-- An operand is read as a whole at every looseness below the operator that follows. -/
theorem binary_of_unary {p : Parsed Expr c} (h : unary c = .ok p) (loose : Nat)
    (bound : loose < 7) (ends : Loose loose p.cursor) :
    ∃ q, binary ⟨loose, bound⟩ c = .ok q ∧ q.value = p.value ∧ q.cursor = p.cursor := by
  induction loose with
  | zero => exact ⟨p, by unfold binary; exact h, rfl, rfl⟩
  | succ loose ih =>
    obtain ⟨q, read, value, cursor⟩ := ih (by omega) (ends.mono (by omega))
    rw [← cursor] at ends
    obtain ⟨r, stops, whole, final⟩ :=
      binaryRest_ends ⟨loose, by omega⟩ q.value ends
    unfold binary
    exact ⟨_, Except.bind_ok.mpr ⟨q, read, Except.bind_ok.mpr ⟨r, stops, rfl⟩⟩,
      whole.trans value, final.trans cursor⟩

/-- What is read at one looseness is read at every higher one, if no operator follows. -/
theorem binary_mono {loose : Nat} {bound : loose < 7} {p : Parsed Expr c}
    (h : binary ⟨loose, bound⟩ c = .ok p) (ends : BinaryOp.ofToken? p.cursor.kind = none)
    (more : Nat) (within : loose + more < 7) :
    ∃ q, binary ⟨loose + more, within⟩ c = .ok q ∧ q.value = p.value ∧ q.cursor = p.cursor := by
  induction more with
  | zero => exact ⟨p, h, rfl, rfl⟩
  | succ more ih =>
    obtain ⟨q, read, value, cursor⟩ := ih (by omega)
    rw [← cursor] at ends
    obtain ⟨r, stops, whole, final⟩ :=
      binaryRest_ends ⟨loose + more, by omega⟩ q.value (loose_of_none ends)
    rw [show binary ⟨loose + (more + 1), within⟩ c = binary ⟨loose + more + 1, within⟩ c from rfl]
    unfold binary
    exact ⟨_, Except.bind_ok.mpr ⟨q, read, Except.bind_ok.mpr ⟨r, stops, rfl⟩⟩,
      whole.trans value, final.trans cursor⟩

theorem unary_of_postfixed {p : Parsed Expr c} (h : postfixed c = .ok p)
    (plain : UnaryOp.ofToken? c.kind = none) :
    ∃ q, unary c = .ok q ∧ q.value = p.value ∧ q.cursor = p.cursor := by
  unfold unary
  split
  · next op found => rw [plain] at found; cases found
  · exact ⟨p, h, rfl, rfl⟩

/-- An operand that no operator follows is an expression. -/
theorem expr_of_unary {p : Parsed Expr c} (h : unary c = .ok p) (word : c.kind ≠ .keyword .kwIf)
    (ends : BinaryOp.ofToken? p.cursor.kind = none) :
    ∃ q, expr c = .ok q ∧ q.value = p.value ∧ q.cursor = p.cursor := by
  rw [expr_eq, if_neg word]
  exact binary_of_unary h 6 (by decide) (loose_of_none ends)

theorem expr_of_postfixed {p : Parsed Expr c} (h : postfixed c = .ok p)
    (word : c.kind ≠ .keyword .kwIf) (plain : UnaryOp.ofToken? c.kind = none)
    (ends : BinaryOp.ofToken? p.cursor.kind = none) :
    ∃ q, expr c = .ok q ∧ q.value = p.value ∧ q.cursor = p.cursor := by
  obtain ⟨q, read, value, cursor⟩ := unary_of_postfixed h plain
  obtain ⟨r, whole, value', cursor'⟩ := expr_of_unary read word (cursor ▸ ends)
  exact ⟨r, whole, value'.trans value, cursor'.trans cursor⟩

theorem expr_of_primary {p : Parsed Expr c} (h : primary c = .ok p)
    (word : c.kind ≠ .keyword .kwIf) (plain : UnaryOp.ofToken? c.kind = none)
    (ends : Ends p.cursor) : ∃ q, expr c = .ok q ∧ q.value = p.value ∧ q.cursor = p.cursor := by
  obtain ⟨q, read, value, cursor⟩ := postfixed_ends h ends.call ends.dot
  obtain ⟨r, whole, value', cursor'⟩ := expr_of_postfixed read word plain (cursor ▸ ends.operator)
  exact ⟨r, whole, value'.trans value, cursor'.trans cursor⟩

end Operands

end Parser

/-- Kinds with which a line starts: those of expressions, and words of definitions. -/
def TokenKind.OpensLine (kind : TokenKind) : Prop :=
  kind.opensExpression = true ∨ kind.opensStatement = true

namespace TokenKind.OpensLine

variable {kind : TokenKind}

theorem ne {other : TokenKind} (h : kind.OpensLine) (expression : other.opensExpression = false)
    (statement : other.opensStatement = false) : kind ≠ other := by
  rintro rfl
  rcases h with opens | opens
  · rw [expression] at opens
    cases opens
  · rw [statement] at opens
    cases opens

theorem ne_newline (h : kind.OpensLine) : kind ≠ .newline := h.ne rfl rfl

theorem ne_dot (h : kind.OpensLine) : kind ≠ .punct .dot := h.ne rfl rfl

theorem ne_else (h : kind.OpensLine) : kind ≠ .keyword .kwElse := h.ne rfl rfl

theorem ne_closing (h : kind.OpensLine) : kind ≠ .punct .closeBrace := h.ne rfl rfl

theorem ne_end (h : kind.OpensLine) : kind ≠ .endOfInput := h.ne rfl rfl

theorem solid (h : kind.OpensLine) : kind.isSeparator = false := by
  have semicolon : kind ≠ .punct .semicolon := h.ne rfl rfl
  simp [isSeparator, h.ne_newline, semicolon]

end TokenKind.OpensLine

namespace Parser

open Cursor

variable {c : Cursor} {tail : List Token} {glyphs : List Glyph}

/-- The first token of an expression opens it, and it is not `if`. -/
theorem glyphs_head (e : Expr) : ∃ first rest, e.glyphs = first :: rest ∧
    first.1.opensExpression = true ∧ first.1 ≠ .keyword .kwIf := by
  cases e with
  | unary span op operand => cases op <;> exact ⟨_, _, rfl, rfl, by decide⟩
  | cond span condition yes no => cases no <;> exact ⟨_, _, rfl, rfl, by decide⟩
  | _ => exact ⟨_, _, rfl, rfl, by simp [Keyword.glyph, Punct.glyph, named]⟩

/-- The printed expression is read wherever nothing continues it. -/
def Readable (e : Expr) : Prop :=
  ∀ {c : Cursor} {tail : List Token}, c.At e.glyphs tail → Ends (c.behind tail) →
    Gives (expr c) Expr.unplaced e.unplaced tail

/-- The printed arguments are read up to the closing parenthesis. -/
def ListReadable (es : List Expr) : Prop :=
  ∀ {c : Cursor} {tail : List Token}, es ≠ [] → c.At (Expr.listGlyphs es) tail →
    (c.behind tail).kind = .punct .closeParen →
    Gives (argumentList c) Expr.unplacedAll (Expr.unplacedAll es) tail

section Forms

theorem grouped_at {e : Expr} (readable : Readable e) (h : c.At (grouped e.glyphs) tail) :
    Gives (primary c) Expr.unplaced e.unplaced tail := by
  have kind : c.kind = .punct .openParen := At.markKind h
  have inside : c.next.deeper.At (e.glyphs ++ [Punct.closeParen.glyph]) tail := At.markNext h
  obtain ⟨middle, own, after⟩ := inside.append
  obtain ⟨inner, read, same, final⟩ := readable own (ends_of_closing after.markKind)
  have goes : c.next.deeper.kind ≠ .punct .closeParen := by
    obtain ⟨first, rest, shown, opens, -⟩ := glyphs_head e
    rw [shown] at own
    rw [own.kind (by intro line; rw [line] at opens; cases opens)]
    intro closes
    rw [closes] at opens
    cases opens
  rw [← final] at after
  obtain ⟨closing, last, -, -, done⟩ := after.expectMark "')'"
  obtain ⟨q, whole, value, cursor⟩ := primary_group kind goes read last
  refine ⟨q, whole, value ▸ same, ?_⟩
  rw [cursor, done.rest, closing.follows.reaches.behind, final]
  rfl

/-- Arguments are read between their parentheses. -/
theorem arguments_list {first : Glyph} {inner : List Glyph} {args : List Expr}
    (h : c.At (grouped (first :: inner)) tail) (opens : first.1.opensExpression = true)
    (reads : ∀ {d : Cursor} {rest : List Token}, d.At (first :: inner) rest →
      (d.behind rest).kind = .punct .closeParen → Gives (argumentList d) Expr.unplacedAll args rest) :
    Gives (arguments c) Expr.unplacedAll args tail := by
  obtain ⟨opening, front, -, cursor, inside⟩ := At.expectMark h "'('"
  obtain ⟨middle, own, after⟩ := At.append (c := opening.cursor.deeper) inside
  have shut : (opening.cursor.deeper.behind middle).kind = .punct .closeParen := after.markKind
  have goes : ¬ opening.cursor.deeper.kind = .punct .closeParen := by
    rw [own.kind (by intro line; rw [line] at opens; cases opens)]
    intro closes
    rw [closes] at opens
    cases opens
  obtain ⟨list, read, same, final⟩ := reads own shut
  rw [← final] at after
  obtain ⟨closing, last, -, -, done⟩ := after.expectMark "')' closing the argument list"
  unfold arguments
  refine ⟨_, Except.bind_ok.mpr ⟨opening, front, (if_neg goes).trans
    (Except.bind_ok.mpr ⟨list, read, Except.bind_ok.mpr ⟨closing, last, rfl⟩⟩)⟩, same, ?_⟩
  show closing.cursor.shallower = _
  rw [done.rest, closing.follows.reaches.behind, final, cursor]
  rfl

theorem arguments_at {args : List Expr} (readable : ListReadable args)
    (h : c.At (grouped (Expr.listGlyphs args)) tail) :
    Gives (arguments c) Expr.unplacedAll (Expr.unplacedAll args) tail := by
  cases args with
  | nil =>
    obtain ⟨opening, first, -, cursor, inside⟩ := At.expectMark h "'('"
    obtain ⟨middle, own, after⟩ := At.append (c := opening.cursor.deeper) inside
    have shut : (opening.cursor.deeper.behind middle).kind = .punct .closeParen := after.markKind
    have place : opening.cursor.deeper = opening.cursor.deeper.behind middle := At.rest own
    rw [← place] at shut after
    obtain ⟨closing, last, -, -, done⟩ := after.expectMark "')' closing the argument list"
    unfold arguments
    refine ⟨_, Except.bind_ok.mpr ⟨opening, first, (if_pos shut).trans
      (Except.bind_ok.mpr ⟨closing, last, rfl⟩)⟩, rfl, ?_⟩
    show closing.cursor.shallower = _
    rw [done.rest, closing.follows.reaches.behind, cursor]
    rfl
  | cons arg rest =>
    obtain ⟨first, inner, shown, opens, -⟩ := glyphs_head arg
    obtain ⟨more, split⟩ : ∃ more, Expr.listGlyphs (arg :: rest) = first :: more := by
      cases rest <;> simp [Expr.listGlyphs, shown]
    rw [split] at h
    exact arguments_list h opens fun inside shut => readable (by simp) (split ▸ inside) shut

theorem atom_readable {e : Expr} {glyph : Glyph} (shown : e.glyphs = [glyph])
    (plain : UnaryOp.ofToken? glyph.1 = none)
    (known : ∀ token : Token, token.glyph = glyph →
      ∃ value, atom? token = some value ∧ value.unplaced = e.unplaced) : Readable e := by
  intro c tail h ends
  obtain ⟨first, rest, split, opens, word⟩ := glyphs_head e
  obtain ⟨rfl, rfl⟩ : glyph = first ∧ [] = rest := by simpa [shown] using split
  rw [shown] at h
  have solid : glyph.1 ≠ .newline := by
    intro line
    rw [line] at opens
    cases opens
  obtain ⟨value, found, same⟩ := known c.current (h.current solid)
  obtain ⟨p, read, own, cursor⟩ := primary_atom found
  have place : p.cursor = c.behind tail :=
    cursor.trans ((h.next solid).rest.trans ((reaches_next c).behind tail))
  have kind := h.kind solid
  obtain ⟨q, whole, value', final⟩ :=
    expr_of_primary read (kind ▸ word) (kind ▸ plain) (place ▸ ends)
  exact ⟨q, whole, by rw [value', own, same], final.trans place⟩

theorem unit_readable (span : Span) : Readable (.unit span) := by
  intro c tail h ends
  have kind : c.kind = .punct .openParen := At.markKind h
  have inside : c.next.deeper.At [Punct.closeParen.glyph] tail := At.markNext h
  obtain ⟨closing, last, -, -, done⟩ := inside.expectMark "')'"
  obtain ⟨p, read, own, cursor⟩ := primary_empty kind inside.markKind last
  have place : p.cursor = c.behind tail := by
    rw [cursor, done.rest, closing.follows.reaches.behind]
    rfl
  obtain ⟨q, whole, value', final⟩ :=
    expr_of_primary read (by simp [kind]) (by rw [kind]; rfl) (place ▸ ends)
  exact ⟨q, whole, by rw [value', own]; rfl, final.trans place⟩

/-- An operand in parentheses is a prefix of what goes on behind it. -/
theorem grouped_front {e : Expr} (readable : Readable e)
    (h : c.At (grouped e.glyphs ++ glyphs) tail) :
    ∃ p, primary c = .ok p ∧ p.value.unplaced = e.unplaced ∧ p.cursor.At glyphs tail := by
  obtain ⟨middle, own, after⟩ := h.append
  obtain ⟨p, read, same, cursor⟩ := grouped_at readable own
  exact ⟨p, read, same, cursor ▸ after⟩

/-- The members that are selected one from the other. -/
theorem postfixRest_path (operand : Expr) {members : List String} (h : c.At (further members) tail)
    (call : (c.behind tail).kind ≠ .punct .openParen)
    (dot : (c.behind tail).kindPastNewlines ≠ .punct .dot) :
    ∃ r, postfixRest operand c = .ok r ∧
      r.value.unplaced = members.foldl (.select .anywhere · ·) operand.unplaced ∧
      r.cursor = c.behind tail := by
  induction members generalizing c operand with
  | nil =>
    have place := At.rest h
    rw [← place] at call dot ⊢
    obtain ⟨r, stops, value, final⟩ := postfixRest_ends operand call dot
    exact ⟨r, stops, value ▸ rfl, final⟩
  | cons member rest ih =>
    have mark : c.kindPastNewlines = .punct .dot := At.past h (by simp [Punct.glyph])
    have stays : c.skipNewlines = c := At.skipNewlines h (by simp [Punct.glyph])
    have again : c.skipNewlines.At (Punct.dot.glyph :: named member :: further rest) tail :=
      stays.symm ▸ h
    obtain ⟨name, own, text, done⟩ := At.expectName again.markNext "member name after '.'"
    have place : name.cursor.behind tail = c.behind tail := by
      rw [name.follows.reaches.behind, (reaches_next _).behind, stays]
    obtain ⟨r, others, value, final⟩ := ih (.select name.value.span operand name.value.lexeme) done
      (place ▸ call) (place ▸ dot)
    unfold postfixRest
    refine ⟨_, (if_pos mark).trans (Except.bind_ok.mpr ⟨name, own,
      Except.bind_ok.mpr ⟨r, others, rfl⟩⟩), ?_, final.trans place⟩
    rw [value, text]
    rfl

theorem postfixRest_arguments (operand : Expr) {args : List Expr}
    (h : c.At (Punct.openParen.glyph :: glyphs) tail)
    (given : Gives (arguments c) Expr.unplacedAll args tail)
    (call : (c.behind tail).kind ≠ .punct .openParen)
    (dot : (c.behind tail).kindPastNewlines ≠ .punct .dot) :
    ∃ r, postfixRest operand c = .ok r ∧
      r.value.unplaced = .call .anywhere operand.unplaced args ∧ r.cursor = c.behind tail := by
  have plain : c.kindPastNewlines ≠ .punct .dot := by
    rw [At.past h (by simp [Punct.glyph])]
    simp [Punct.glyph]
  obtain ⟨list, own, same, place⟩ := given
  obtain ⟨r, stops, value, final⟩ := postfixRest_ends _ (place ▸ call) (place ▸ dot)
  unfold postfixRest
  refine ⟨_, (if_neg plain).trans ((if_pos h.markKind).trans (Except.bind_ok.mpr ⟨list, own,
    Except.bind_ok.mpr ⟨r, stops, rfl⟩⟩)), ?_, final.trans place⟩
  rw [value, ← same]
  rfl

/-- An operand in parentheses with one selection or argument list behind it. -/
theorem postfix_readable {e object : Expr} {rest : List Glyph} (whole : Expr → Expr)
    (shown : e.glyphs = grouped object.glyphs ++ rest) (readable : Readable object)
    (value : e.unplaced = whole object.unplaced)
    (more : ∀ {c : Cursor} {tail : List Token} (operand : Expr), c.At rest tail →
      Ends (c.behind tail) → ∃ r, postfixRest operand c = .ok r ∧
        r.value.unplaced = whole operand.unplaced ∧ r.cursor = c.behind tail) :
    Readable e := by
  intro c tail h ends
  rw [shown] at h
  have kind : c.kind = .punct .openParen := At.markKind h
  obtain ⟨p, read, same, after⟩ := grouped_front readable h
  have place := p.follows.reaches.behind tail
  obtain ⟨r, others, own, final⟩ := more p.value after (place ▸ ends)
  have postfixed : ∃ q, postfixed c = .ok q ∧ q.value = r.value ∧ q.cursor = r.cursor := by
    unfold postfixed
    exact ⟨_, Except.bind_ok.mpr ⟨p, read, Except.bind_ok.mpr ⟨r, others, rfl⟩⟩, rfl, rfl⟩
  obtain ⟨q, first, given, cursor⟩ := postfixed
  have final : q.cursor = c.behind tail := cursor.trans (final.trans place)
  obtain ⟨x, last, same', cursor'⟩ := expr_of_postfixed first (by simp [kind])
    (by rw [kind]; rfl) (final ▸ ends.operator)
  exact ⟨x, last, by rw [same', given, own, same, value], cursor'.trans final⟩

theorem select_readable {span : Span} {object : Expr} {member : String}
    (readable : Readable object) : Readable (.select span object member) :=
  postfix_readable (.select .anywhere · member) rfl readable rfl
    fun operand h ends =>
      have path : Cursor.At _ (further [member]) _ := h
      postfixRest_path operand path ends.call ends.dot

theorem call_readable {span : Span} {callee : Expr} {args : List Expr} (readable : Readable callee)
    (list : ListReadable args) : Readable (.call span callee args) :=
  postfix_readable (.call .anywhere · (Expr.unplacedAll args)) rfl readable rfl
    fun operand h ends =>
      postfixRest_arguments operand h (arguments_at list h) ends.call ends.dot

theorem unary_readable {span : Span} {op : UnaryOp} {operand : Expr}
    (readable : Readable operand) : Readable (.unary span op operand) := by
  intro c tail h ends
  have kind : c.kind = .punct op.mark := At.markKind h
  have known : UnaryOp.ofToken? c.kind = some op := by
    rw [kind]
    cases op <;> rfl
  have inner : c.next.At (grouped operand.glyphs) tail := At.markNext h
  have opens : c.next.kind = .punct .openParen := inner.markKind
  obtain ⟨p, read, same, cursor⟩ := grouped_at readable inner
  have place : p.cursor = c.behind tail := cursor.trans ((reaches_next c).behind tail)
  obtain ⟨q, first, value, cursor⟩ := postfixed_ends read (place ▸ ends.call) (place ▸ ends.dot)
  obtain ⟨r, second, value', cursor'⟩ := unary_of_postfixed first (by rw [opens]; rfl)
  have final : r.cursor = c.behind tail := cursor'.trans (cursor.trans place)
  have whole : ∃ w, unary c = .ok w ∧ w.value.unplaced = (Expr.unary span op operand).unplaced ∧
      w.cursor = c.behind tail := by
    unfold unary
    split
    · next op' found =>
      obtain rfl : op' = op := by rw [known] at found; exact (Option.some.inj found).symm
      refine ⟨_, Except.bind_ok.mpr ⟨r, second, rfl⟩, ?_, final⟩
      exact congrArg (Expr.unary .anywhere op') (by rw [value', value, same])
    · next none => rw [known] at none; cases none
  obtain ⟨w, last, own, behind⟩ := whole
  obtain ⟨x, done, same', at_end⟩ := expr_of_unary last (by simp [kind]) (behind ▸ ends.operator)
  exact ⟨x, done, by rw [same', own], at_end.trans behind⟩

/-- An operand in parentheses is read as a whole at every looseness below the operator behind
it. -/
theorem operand_at {e : Expr} (readable : Readable e) (h : c.At (grouped e.glyphs) tail)
    (call : (c.behind tail).kind ≠ .punct .openParen)
    (dot : (c.behind tail).kindPastNewlines ≠ .punct .dot) {loose : Nat} (bound : loose < 7)
    (stays : Loose loose (c.behind tail)) :
    Gives (binary ⟨loose, bound⟩ c) Expr.unplaced e.unplaced tail := by
  have kind : c.kind = .punct .openParen := At.markKind h
  obtain ⟨p, read, same, place⟩ := grouped_at readable h
  obtain ⟨q, first, value, cursor⟩ := postfixed_ends read (place ▸ call) (place ▸ dot)
  obtain ⟨r, second, value', cursor'⟩ := unary_of_postfixed first (by rw [kind]; rfl)
  have final : r.cursor = c.behind tail := cursor'.trans (cursor.trans place)
  obtain ⟨w, third, value'', cursor''⟩ := binary_of_unary second loose bound (final ▸ stays)
  exact ⟨w, third, by rw [value'', value', value, same], cursor''.trans final⟩

theorem mark_operator (op : BinaryOp) : op.mark ≠ .openParen ∧ op.mark ≠ .dot := by
  cases op <;> decide

theorem binary_readable {span : Span} {op : BinaryOp} {left right : Expr} (first : Readable left)
    (second : Readable right) : Readable (.binary span op left right) := by
  intro c tail h ends
  obtain ⟨tighter, loose⟩ : ∃ tighter, op.looseness = tighter + 1 :=
    Nat.exists_eq_succ_of_ne_zero (Nat.ne_of_gt op.looseness_pos)
  have bound := op.looseness_le
  have kind : c.kind = .punct .openParen := At.markKind h
  -- the left operand, up to the operator
  obtain ⟨middle, front, after⟩ := At.append h
  obtain ⟨call, dot⟩ := mark_operator op
  have operator : BinaryOp.ofToken? (c.behind middle).kind = some op := by
    rw [after.markKind, BinaryOp.ofToken?_mark]
  have stays : Loose tighter (c.behind middle) := by
    intro op' found
    rw [operator] at found
    obtain rfl := Option.some.inj found
    omega
  obtain ⟨l, lefts, known, start⟩ := operand_at first front (by simpa [after.markKind] using call)
    (by simpa [At.past after (by simp [Punct.glyph]), Punct.glyph] using dot)
    (show tighter < 7 by omega) stays
  rw [← start] at after operator
  -- the right operand, up to the tail
  have stands : l.cursor.next.skipNewlines = l.cursor.next :=
    At.skipNewlines after.markNext (by simp [Punct.glyph])
  have behind : l.cursor.next.skipNewlines.behind tail = c.behind tail := by
    rw [stands, (reaches_next _).behind, l.follows.reaches.behind]
  have inner : l.cursor.next.skipNewlines.At (grouped right.glyphs) tail := by
    rw [stands]
    exact after.markNext
  have opens : l.cursor.next.skipNewlines.kind = .punct .openParen := At.markKind inner
  obtain ⟨r, rights, known', final⟩ := operand_at second inner (behind ▸ ends.call)
    (behind ▸ ends.dot) (show tighter < 7 by omega) (loose_of_none (behind ▸ ends.operator))
  have final : r.cursor = c.behind tail := final.trans behind
  have chosen : (if l.cursor.next.skipNewlines.kind = .keyword .kwIf
      then condition l.cursor.next.skipNewlines
      else binary ⟨tighter, by omega⟩ l.cursor.next.skipNewlines) = .ok r :=
    (if_neg (by simp [opens])).trans rights
  -- the operator with both of them, and no further one
  have whole : ∃ w, binaryRest ⟨tighter, by omega⟩ l.value l.cursor = .ok w ∧
      w.value.unplaced = (Expr.binary span op left right).unplaced ∧ w.cursor = c.behind tail := by
    obtain ⟨w, stops, value, last⟩ := binaryRest_ends ⟨tighter, by omega⟩
      (.binary l.cursor.current.span op l.value r.value) (loose_of_none (final ▸ ends.operator))
    unfold binaryRest
    split
    · next none => rw [operator] at none; cases none
    · next op' found =>
      obtain rfl : op' = op := by
        rw [operator] at found
        exact (Option.some.inj found).symm
      refine ⟨_, (if_pos loose).trans (Except.bind_ok.mpr ⟨r, chosen,
        Except.bind_ok.mpr ⟨w, stops, rfl⟩⟩), ?_, last.trans final⟩
      rw [value]
      exact congrArg₂ (Expr.binary .anywhere op') known known'
  obtain ⟨w, others, value, last⟩ := whole
  have step : ∃ p, binary ⟨tighter + 1, by omega⟩ c = .ok p ∧ p.value = w.value ∧
      p.cursor = w.cursor := by
    unfold binary
    exact ⟨_, Except.bind_ok.mpr ⟨l, lefts, Except.bind_ok.mpr ⟨w, others, rfl⟩⟩, rfl, rfl⟩
  obtain ⟨p, read, same, place⟩ := step
  obtain ⟨q, all, same', place'⟩ := binary_mono read (by rw [place, last]; exact ends.operator)
    (5 - tighter) (by omega)
  have six : (⟨tighter + 1 + (5 - tighter), by omega⟩ : Fin 7) = ⟨6, by decide⟩ :=
    Fin.ext (by show tighter + 1 + (5 - tighter) = 6; omega)
  rw [six] at all
  rw [Gives, expr_eq, if_neg (by simp [kind])]
  exact ⟨q, all, by rw [same', same, value], place'.trans (place.trans last)⟩

theorem targetRest_at (target : Expr) {rest : List String} (h : c.At (further rest) tail)
    (stops : (c.behind tail).kind ≠ .punct .dot) :
    Gains (targetRest target c) Expr.unplaced
      (rest.foldl (Expr.select .anywhere · ·) target.unplaced) tail := by
  induction rest generalizing c target with
  | nil =>
    have place := h.rest
    rw [← place] at stops
    unfold targetRest
    exact ⟨_, dif_neg stops, rfl, place⟩
  | cons segment rest ih =>
    obtain ⟨name, read, text, onward⟩ := At.expectName h.markNext "class name"
    have place := ((reaches_next c).trans name.follows.reaches).behind tail
    obtain ⟨others, more, same, final⟩ :=
      ih (.select name.value.span target name.value.lexeme) onward (place ▸ stops)
    unfold targetRest
    rw [dif_pos h.markKind]
    refine ⟨_, Except.bind_ok.mpr ⟨name, read, Except.bind_ok.mpr ⟨others, more, rfl⟩⟩, ?_,
      final.trans place⟩
    rw [same, Expr.unplaced, text]
    rfl

/-- A path is a name with further segments. -/
theorem path_split {target : Expr} (h : target.IsPath) : ∃ first rest,
    target.pathGlyphs = named first :: further rest ∧
    target.unplaced = rest.foldl (Expr.select .anywhere · ·) (.name .anywhere first) := by
  induction target using Expr.pathGlyphs.induct with
  | case1 span own => exact ⟨own, [], rfl, rfl⟩
  | case2 span object member ih =>
    obtain ⟨first, rest, shown, same⟩ := ih h.1
    refine ⟨first, rest ++ [member], ?_, ?_⟩
    · rw [Expr.pathGlyphs, shown, further, further, List.flatMap_append]
      rfl
    · rw [Expr.unplaced, same, List.foldl_append]
      rfl
  | case3 target name select =>
    cases target with
    | name span own => exact absurd rfl (name span own)
    | select span object member => exact absurd rfl (select span object member)
    | _ => exact h.elim

theorem new_readable {span : Span} {target : Expr} {args : List Expr} (path : target.IsPath)
    (readable : ListReadable args) : Readable (.new span target args) := by
  intro c tail h ends
  obtain ⟨first, rest, shown, same⟩ := path_split path
  rw [Expr.glyphs, shown] at h
  have kind : c.kind = .keyword .kwNew := h.wordKind
  obtain ⟨keyword, word, -, onward⟩ := h.expectWord "'new'"
  obtain ⟨name, own, text, onward⟩ := At.expectName onward "class name after 'new'"
  obtain ⟨middle, front, after⟩ := At.append onward
  have opens : (name.cursor.behind middle).kind = .punct .openParen := At.markKind after
  obtain ⟨found, more, whole, place⟩ :=
    targetRest_at (.name name.value.span name.value.lexeme) front (by simp [opens])
  rw [← place] at opens after
  obtain ⟨list, given, values, final⟩ := arguments_at readable after
  have reaches := (keyword.follows.then name.follows).reaches.trans found.reaches
  have final : list.cursor = c.behind tail := final.trans (reaches.behind tail)
  have built : ∃ p, construction c = .ok p ∧
      p.value.unplaced = (Expr.new span target args).unplaced ∧ p.cursor = c.behind tail := by
    unfold construction
    refine ⟨_, Except.bind_ok.mpr ⟨keyword, word, Except.bind_ok.mpr ⟨name, own,
      Except.bind_ok.mpr ⟨found, more, (if_pos opens).trans
        (Except.bind_ok.mpr ⟨list, given, rfl⟩)⟩⟩⟩, ?_, final⟩
    simp only [Expr.unplaced, values, whole, same, text]
  obtain ⟨p, read, value, place⟩ := built
  rw [← primary_construction kind] at read
  obtain ⟨q, last, value', place'⟩ :=
    expr_of_primary read (by simp [kind]) (by rw [kind]; rfl) (place ▸ ends)
  exact ⟨q, last, by rw [value', value], place'.trans place⟩

/-- An expression starts with no newline. -/
theorem glyphs_skip {e : Expr} (h : c.At (e.glyphs ++ glyphs) tail) : c.skipNewlines = c := by
  obtain ⟨first, rest, shown, opens, -⟩ := glyphs_head e
  rw [shown] at h
  exact At.skipNewlines h (by intro line; rw [line] at opens; cases opens)

/-- The condition of a conditional, between its parentheses. -/
theorem test_at {e : Expr} (readable : Readable e) (h : c.At (grouped e.glyphs ++ glyphs) tail)
    (what : String) (closes : String) : ∃ opening test closing,
      c.expectMark .openParen what = .ok opening ∧ expr opening.cursor.deeper = .ok test ∧
      test.cursor.expectMark .closeParen closes = .ok closing ∧
      test.value.unplaced = e.unplaced ∧ closing.cursor.shallower.At glyphs tail ∧
      ∀ tail, closing.cursor.shallower.behind tail = c.behind tail := by
  have shown : grouped e.glyphs ++ glyphs =
      Punct.openParen.glyph :: (e.glyphs ++ Punct.closeParen.glyph :: glyphs) := by
    simp [grouped]
  rw [shown] at h
  obtain ⟨opening, first, -, -, onward⟩ := At.expectMark h what
  obtain ⟨middle, own, after⟩ := At.append (c := opening.cursor.deeper) onward
  obtain ⟨test, inner, same, place⟩ := readable own (ends_of_closing after.markKind)
  rw [← place] at after
  obtain ⟨closing, last, -, -, done⟩ := after.expectMark closes
  refine ⟨opening, test, closing, first, inner, last, same, done, fun tail => ?_⟩
  have deeper : closing.cursor.behind tail = opening.cursor.deeper.behind tail :=
    (test.follows.then closing.follows).reaches.behind tail
  calc closing.cursor.shallower.behind tail
      = (closing.cursor.behind tail).shallower := rfl
    _ = (opening.cursor.deeper.behind tail).shallower := by rw [deeper]
    _ = opening.cursor.behind tail := rfl
    _ = c.behind tail := opening.follows.reaches.behind tail

theorem condition_at {span : Span} {test yes : Expr} {rest : List Token} (first : Readable test)
    (second : Readable yes)
    (h : c.At (Keyword.kwIf.glyph :: (grouped test.glyphs ++ yes.glyphs)) tail)
    (closes : (c.behind tail).At [Punct.closeParen.glyph] rest) :
    Gives (condition c) Expr.unplaced (Expr.cond span test yes none).unplaced tail := by
  obtain ⟨keyword, word, -, onward⟩ := At.expectWord h "'if'"
  obtain ⟨opening, tested, closing, opens, inner, last, same, done, place⟩ :=
    test_at first onward "'(' after 'if'" "')' closing the condition"
  have alone : closing.cursor.shallower.At (yes.glyphs ++ []) tail := by simpa using done
  have skip : closing.cursor.shallower.skipNewlines = closing.cursor.shallower := glyphs_skip alone
  have behind : closing.cursor.shallower.skipNewlines.behind tail = c.behind tail := by
    rw [skip, place, keyword.follows.reaches.behind]
  have start : closing.cursor.shallower.skipNewlines.At yes.glyphs tail := by
    rw [skip]
    exact done
  obtain ⟨answer, read, same', final⟩ := second start (behind ▸ ends_of_closing closes.markKind)
  have final : answer.cursor = c.behind tail := final.trans behind
  have none : ¬ answer.cursor.kindPastNewlines = .keyword .kwElse := by
    rw [final, closes.past (by simp [Punct.glyph])]
    simp [Punct.glyph]
  unfold condition
  refine ⟨_, Except.bind_ok.mpr ⟨keyword, word, Except.bind_ok.mpr ⟨opening, opens,
    Except.bind_ok.mpr ⟨tested, inner, Except.bind_ok.mpr ⟨closing, last,
      Except.bind_ok.mpr ⟨answer, read, if_neg none⟩⟩⟩⟩⟩, ?_, final⟩
  simp only [Expr.unplaced, same, same']

theorem alternative_at {span : Span} {test yes no : Expr} (first : Readable test)
    (second : Readable yes) (third : Readable no)
    (h : c.At (Keyword.kwIf.glyph :: (grouped test.glyphs ++
      (yes.glyphs ++ Keyword.kwElse.glyph :: no.glyphs))) tail)
    (ends : Ends (c.behind tail)) :
    Gives (condition c) Expr.unplaced (Expr.cond span test yes (some no)).unplaced tail := by
  obtain ⟨keyword, word, -, onward⟩ := At.expectWord h "'if'"
  obtain ⟨opening, tested, closing, opens, inner, last, same, done, place⟩ :=
    test_at first onward "'(' after 'if'" "')' closing the condition"
  have skip : closing.cursor.shallower.skipNewlines = closing.cursor.shallower := glyphs_skip done
  have behind (tail : List Token) :
      closing.cursor.shallower.skipNewlines.behind tail = c.behind tail := by
    rw [skip, place, keyword.follows.reaches.behind]
  have start : closing.cursor.shallower.skipNewlines.At
      (yes.glyphs ++ Keyword.kwElse.glyph :: no.glyphs) tail := by
    rw [skip]
    exact done
  obtain ⟨middle, own, after⟩ := At.append start
  have stops := At.ends after (by simp [Keyword.glyph]) rfl (by simp [Keyword.glyph])
    (by simp [Keyword.glyph])
  obtain ⟨answer, read, same', final⟩ := second own stops
  rw [← final] at after
  have marker : answer.cursor.kindPastNewlines = .keyword .kwElse :=
    At.past after (by simp [Keyword.glyph])
  have stays : answer.cursor.skipNewlines = answer.cursor :=
    At.skipNewlines after (by simp [Keyword.glyph])
  have other := At.wordNext after
  have alone : answer.cursor.next.At (no.glyphs ++ []) tail := by simpa using other
  have skip' : answer.cursor.skipNewlines.next.skipNewlines = answer.cursor.next := by
    rw [stays]
    exact glyphs_skip alone
  have start' : answer.cursor.skipNewlines.next.skipNewlines.At no.glyphs tail := by
    rw [skip']
    exact other
  have behind' : answer.cursor.skipNewlines.next.skipNewlines.behind tail = c.behind tail := by
    rw [skip', (reaches_next _).behind, answer.follows.reaches.behind, behind]
  obtain ⟨otherwise, read', same'', final'⟩ := third start' (behind' ▸ ends)
  unfold condition
  refine ⟨_, Except.bind_ok.mpr ⟨keyword, word, Except.bind_ok.mpr ⟨opening, opens,
    Except.bind_ok.mpr ⟨tested, inner, Except.bind_ok.mpr ⟨closing, last,
      Except.bind_ok.mpr ⟨answer, read, (if_pos marker).trans
        (Except.bind_ok.mpr ⟨otherwise, read', rfl⟩)⟩⟩⟩⟩⟩, ?_, final'.trans behind'⟩
  simp only [Expr.unplaced, same, same', same'']

/-- A conditional in its parentheses. -/
theorem conditional_readable {e : Expr} {inner : List Glyph}
    (shown : e.glyphs = grouped (Keyword.kwIf.glyph :: inner))
    (read : ∀ {c : Cursor} {tail rest : List Token}, c.At (Keyword.kwIf.glyph :: inner) tail →
      (c.behind tail).At [Punct.closeParen.glyph] rest →
      Gives (condition c) Expr.unplaced e.unplaced tail) : Readable e := by
  intro c tail h ends
  rw [shown] at h
  have kind : c.kind = .punct .openParen := At.markKind h
  have inside : c.next.deeper.At (Keyword.kwIf.glyph :: inner ++ [Punct.closeParen.glyph]) tail :=
    At.markNext h
  obtain ⟨middle, own, after⟩ := inside.append
  have word : c.next.deeper.kind = .keyword .kwIf := At.wordKind own
  obtain ⟨p, chosen, same, place⟩ := read own after
  have whole : expr c.next.deeper = .ok p := by
    rw [expr_eq, if_pos word]
    exact chosen
  rw [← place] at after
  obtain ⟨closing, last, -, -, done⟩ := after.expectMark "')'"
  obtain ⟨q, primary, value, cursor⟩ := primary_group kind (by simp [word]) whole last
  have final : q.cursor = c.behind tail := by
    rw [cursor, done.rest, closing.follows.reaches.behind, place]
    rfl
  obtain ⟨r, read, value', cursor'⟩ :=
    expr_of_primary primary (by simp [kind]) (by rw [kind]; rfl) (final ▸ ends)
  exact ⟨r, read, by rw [value', value, same], cursor'.trans final⟩

/-- A value is defined by whatever is read as an expression behind its sign. -/
theorem valBinding_with {own : String} (ref : Option TypeRef) {body : List Glyph} {value : Expr}
    (typed : ∀ type ∈ ref, type.Valid)
    (starts : ∃ first rest, body = first :: rest ∧ first.1 ≠ .newline)
    (reads : ∀ {d : Cursor}, d.At body tail → d.behind tail = c.behind tail →
      Gives (expr d) Expr.unplaced value tail)
    (h : c.At (Keyword.kwVal.glyph :: named own ::
      (TypeRef.ascribed ref ++ Punct.assign.glyph :: body)) tail) :
    Gives (valBinding c) ValBinding.unplaced ⟨.anywhere, own, ref.map TypeRef.unplaced, value⟩
      tail := by
  obtain ⟨keyword, word, -, onward⟩ := At.expectWord h "'val'"
  obtain ⟨name, named, text, onward⟩ := At.expectName onward "value name"
  obtain ⟨middle, front, after⟩ := At.append onward
  obtain ⟨type, ascribed, same, place⟩ := ascription_at typed front (At.markKind after)
  rw [← place] at after
  obtain ⟨assign, mark, -, -, onward⟩ := At.expectMark after "'='"
  have skip : assign.cursor.skipNewlines = assign.cursor := by
    obtain ⟨first, rest, rfl, solid⟩ := starts
    exact onward.skipNewlines solid
  have reaches := ((keyword.follows.then name.follows).trans type.reaches).then assign.follows
  have behind : assign.cursor.skipNewlines.behind tail = c.behind tail := by
    rw [skip, reaches.reaches.behind]
  obtain ⟨value, read, same', final⟩ := reads (skip.symm ▸ onward) behind
  unfold valBinding
  refine ⟨_, Except.bind_ok.mpr ⟨keyword, word, Except.bind_ok.mpr ⟨name, named,
    Except.bind_ok.mpr ⟨type, ascribed, Except.bind_ok.mpr ⟨assign, mark,
      Except.bind_ok.mpr ⟨value, read, rfl⟩⟩⟩⟩⟩, ?_, final.trans behind⟩
  simp only [ValBinding.unplaced, text, same, same']

theorem valBinding_at {own : String} {ref : Option TypeRef} {init : Expr}
    (typed : ∀ type ∈ ref, type.Valid) (readable : Readable init)
    (h : c.At (Keyword.kwVal.glyph :: named own ::
      (TypeRef.ascribed ref ++ Punct.assign.glyph :: init.glyphs)) tail)
    (ends : Ends (c.behind tail)) :
    Gives (valBinding c) ValBinding.unplaced
      ⟨.anywhere, own, ref.map TypeRef.unplaced, init.unplaced⟩ tail := by
  refine valBinding_with _ typed ?_ (fun start behind => readable start (behind ▸ ends)) h
  obtain ⟨first, rest, shown, opens, -⟩ := glyphs_head init
  exact ⟨first, rest, shown, fun line => by rw [line] at opens; cases opens⟩

/-- The printed statement is read wherever nothing continues it. -/
def StmtReadable (statement : Stmt) : Prop :=
  ∀ {c : Cursor} {tail : List Token}, c.At statement.glyphs tail → Ends (c.behind tail) →
    Gives (Parser.statement c) Stmt.unplaced statement.unplaced tail

theorem statement_val_readable {span : Span} {own : String} {ref : Option TypeRef} {init : Expr}
    (typed : ∀ type ∈ ref, type.Valid) (readable : Readable init) :
    StmtReadable (.val span own ref init) := by
  intro c tail h ends
  have kind : c.kind = .keyword .kwVal := At.wordKind h
  obtain ⟨val, read, same, place⟩ := valBinding_at typed readable h ends
  simp only [ValBinding.unplaced, ValBinding.mk.injEq, true_and] at same
  unfold Parser.statement
  split
  · refine ⟨_, Except.bind_ok.mpr ⟨val, read, rfl⟩, ?_, place⟩
    simp only [Stmt.unplaced, same]
  all_goals simp_all

theorem statement_expr_readable {e : Expr} (readable : Readable e) :
    StmtReadable (.expr e) := by
  intro c tail h ends
  obtain ⟨first, rest, shown, opens, -⟩ := glyphs_head e
  have kind : c.kind = first.1 := by
    rw [Stmt.glyphs, shown] at h
    exact h.kind (by intro line; rw [line] at opens; cases opens)
  rw [← kind] at opens
  obtain ⟨value, read, same, place⟩ := readable h ends
  unfold Parser.statement
  split
  all_goals first
    | (next word => rw [word] at opens; cases opens)
    | exact ⟨_, Except.bind_ok.mpr ⟨value, read, rfl⟩, congrArg Stmt.expr same, place⟩

theorem statement_head (statement : Stmt) : ∃ first rest, statement.glyphs = first :: rest ∧
    first.1.OpensLine := by
  cases statement with
  | val span own ref init => exact ⟨_, _, rfl, .inr rfl⟩
  | expr e =>
    obtain ⟨first, rest, shown, opens, -⟩ := glyphs_head e
    exact ⟨first, rest, shown, .inl opens⟩

/-- The first token of a list of lines, or the brace behind them. -/
theorem lined_head {phrases : List (List Glyph)}
    (opens : ∀ phrase ∈ phrases, ∃ first rest, phrase = first :: rest ∧ first.1.OpensLine) :
    ∃ first rest, lined phrases ++ [Punct.closeBrace.glyph] = first :: rest ∧
      first.1.isSeparator = false ∧ first.1 ≠ .punct .dot ∧ first.1 ≠ .keyword .kwElse := by
  cases phrases with
  | nil => exact ⟨_, _, rfl, by decide⟩
  | cons phrase more =>
    obtain ⟨first, rest, rfl, starts⟩ := opens phrase List.mem_cons_self
    refine ⟨first, rest ++ line :: (lined more ++ [Punct.closeBrace.glyph]), ?_,
      starts.solid, starts.ne_dot, starts.ne_else⟩
    simp [lined]

theorem statements_lined (body : List Stmt) :
    Stmt.linesGlyphs body = lined (body.map Stmt.glyphs) := by
  induction body with
  | nil => rfl
  | cons first rest ih => simp [Stmt.linesGlyphs, lined, ih]

theorem statements_head (body : List Stmt) :
    ∃ first rest, Stmt.linesGlyphs body ++ [Punct.closeBrace.glyph] = first :: rest ∧
      first.1.isSeparator = false ∧ first.1 ≠ .punct .dot ∧ first.1 ≠ .keyword .kwElse := by
  rw [statements_lined]
  refine lined_head fun phrase mem => ?_
  obtain ⟨statement, -, rfl⟩ := List.mem_map.mp mem
  exact statement_head statement

/-- The printed statements are read up to the closing brace. -/
theorem statements_at {body : List Stmt} (readable : ∀ statement ∈ body, StmtReadable statement)
    (outside : c.depth = 0)
    (h : c.At (Stmt.linesGlyphs body ++ [Punct.closeBrace.glyph]) tail) :
    ∃ r, statements c = .ok r ∧ Stmt.unplacedAll r.value = Stmt.unplacedAll body ∧
      r.cursor.At [Punct.closeBrace.glyph] tail := by
  induction body generalizing c with
  | nil =>
    unfold statements
    exact ⟨_, if_pos (At.markKind h), rfl, h⟩
  | cons statement rest ih =>
    obtain ⟨first, others, shown, opens⟩ := statement_head statement
    have split : Stmt.linesGlyphs (statement :: rest) ++ [Punct.closeBrace.glyph] =
        statement.glyphs ++ line :: (Stmt.linesGlyphs rest ++ [Punct.closeBrace.glyph]) := by
      simp [Stmt.linesGlyphs]
    rw [split] at h
    obtain ⟨middle, own, after⟩ := h.append
    have kind : c.kind = first.1 := by
      rw [shown] at own
      exact own.kind opens.ne_newline
    obtain ⟨next, more, following, solid, dot, -⟩ := statements_head rest
    rw [following] at after
    obtain ⟨p, read, same, place⟩ := readable statement List.mem_cons_self own
      (after.endsLine outside (TokenKind.ne_newline solid) dot)
    have depth : p.cursor.depth = 0 := p.follows.reaches.depth.trans outside
    rw [← place] at after
    have separates : p.cursor.kind = .newline := after.lineKind depth
    have onward := after.skipLine solid
    rw [← following] at onward
    obtain ⟨r, more, values, final⟩ := ih (c := p.cursor.skipSeparators)
      (fun other mem => readable other (List.mem_cons_of_mem _ mem)) depth onward
    unfold statements
    rw [if_neg (kind ▸ opens.ne_closing), if_neg (kind ▸ opens.ne_end)]
    exact ⟨_, Except.bind_ok.mpr ⟨p, read, (if_neg (by simp [separates])).trans
      ((if_pos (by rw [separates]; rfl)).trans (Except.bind_ok.mpr ⟨r, more, rfl⟩))⟩,
      congrArg₂ List.cons same values, final⟩

theorem block_readable {span : Span} {body : List Stmt}
    (readable : ∀ statement ∈ body, StmtReadable statement) : Readable (.block span body) := by
  intro c tail h ends
  have kind : c.kind = .punct .openBrace := At.markKind h
  obtain ⟨opening, first, -, -, onward⟩ := At.expectMark h "'\x7b'"
  obtain ⟨next, more, following, solid, -⟩ := statements_head body
  rw [following] at onward
  have start : (opening.cursor.atDepth 0).skipSeparators.At
      (Stmt.linesGlyphs body ++ [Punct.closeBrace.glyph]) tail := by
    rw [following]
    exact At.skipLine (c := opening.cursor.atDepth 0) onward solid
  obtain ⟨r, inner, same, last⟩ := statements_at readable rfl start
  obtain ⟨closing, shut, -, -, done⟩ :=
    At.expectMark (c := r.cursor.atDepth c.depth) last "'\x7d'"
  have built : ∃ p, block c = .ok p ∧ p.value.unplaced = (Expr.block span body).unplaced ∧
      p.cursor = closing.cursor := by
    unfold block
    exact ⟨_, Except.bind_ok.mpr ⟨opening, first, Except.bind_ok.mpr ⟨r, inner,
      Except.bind_ok.mpr ⟨closing, shut, rfl⟩⟩⟩, congrArg (Expr.block .anywhere) same, rfl⟩
  obtain ⟨p, read, value, place⟩ := built
  have final : p.cursor = c.behind tail := by
    have own : p.cursor = p.cursor.behind tail := place ▸ done.rest
    exact own.trans (p.follows.reaches.behind tail)
  rw [← primary_block kind] at read
  obtain ⟨q, last, value', place'⟩ :=
    expr_of_primary read (by simp [kind]) (by rw [kind]; rfl) (final ▸ ends)
  exact ⟨q, last, by rw [value', value], place'.trans final⟩

theorem list_readable {es : List Expr} (readable : ∀ e ∈ es, Readable e) : ListReadable es := by
  intro c tail some h closes
  induction es generalizing c with
  | nil => exact absurd rfl some
  | cons e rest ih =>
    obtain ⟨middle, own, after⟩ := At.append h
    unfold argumentList
    cases rest with
    | nil =>
      have last : c.behind middle = c.behind tail := At.rest after
      obtain ⟨p, read, same, place⟩ :=
        readable e List.mem_cons_self own (last ▸ ends_of_closing closes)
      have none : ¬ p.cursor.kind = .punct .comma := by
        rw [place, last, closes]
        simp
      exact ⟨_, Except.bind_ok.mpr ⟨p, read, dif_neg none⟩, congrArg (· :: []) same,
        place.trans last⟩
    | cons second rest =>
      have comma : (c.behind middle).At
          (Punct.comma.glyph :: Expr.listGlyphs (second :: rest)) tail := after
      obtain ⟨p, read, same, place⟩ := readable e List.mem_cons_self own
        (comma.ends (by simp [Punct.glyph]) rfl (by simp [Punct.glyph]) (by simp [Punct.glyph]))
      rw [← place] at comma
      have behind : p.cursor.next.behind tail = c.behind tail := by
        rw [(reaches_next _).behind, p.follows.reaches.behind]
      obtain ⟨others, more, values, final⟩ := ih
        (fun other mem => readable other (List.mem_cons_of_mem _ mem)) (by simp) comma.markNext
        (behind ▸ closes)
      exact ⟨_, Except.bind_ok.mpr ⟨p, read, (dif_pos comma.markKind).trans
        (Except.bind_ok.mpr ⟨others, more, rfl⟩)⟩, congrArg₂ List.cons same values,
        final.trans behind⟩

end Forms

mutual

/-- Every valid expression is read back. -/
theorem valid_readable : {e : Expr} → e.Valid → Readable e
  | .int span value, _ => atom_readable rfl rfl fun token own => by
    have kind : token.kind = .number := congrArg Prod.fst own
    have text : token.lexeme = toString value := congrArg Prod.snd own
    refine ⟨_, by rw [atom?, kind], ?_⟩
    rw [text, Nat.toString_eq_ofList_toDigits, String.toList_ofList]
    exact congrArg (Expr.int .anywhere) (digitsValue_toDigits value)
  | .str span value, _ => atom_readable rfl rfl fun token own => by
    have kind : token.kind = .string := congrArg Prod.fst own
    have text : token.lexeme = value := congrArg Prod.snd own
    exact ⟨.str token.span token.lexeme, by rw [atom?, kind], congrArg (Expr.str .anywhere) text⟩
  | .unit span, _ => unit_readable span
  | .this span, _ => atom_readable rfl rfl fun token own => by
    have kind : token.kind = .keyword .kwThis := congrArg Prod.fst own
    exact ⟨.this token.span, by rw [atom?, kind], rfl⟩
  | .name span text, _ => atom_readable rfl rfl fun token own => by
    have kind : token.kind = .identifier := congrArg Prod.fst own
    have known : token.lexeme = text := congrArg Prod.snd own
    exact ⟨.name token.span token.lexeme, by rw [atom?, kind],
      congrArg (Expr.name .anywhere) known⟩
  | .select .., h => select_readable (valid_readable h.1)
  | .call .., h => call_readable (valid_readable h.1) (list_readable (validAll_readable h.2))
  | .new .., h => new_readable h.1 (list_readable (validAll_readable h.2))
  | .binary .., h => binary_readable (valid_readable h.1) (valid_readable h.2)
  | .unary _ _ operand, h => unary_readable (valid_readable (e := operand) h)
  | .cond _ _ _ none, h => conditional_readable rfl fun own closes =>
    condition_at (valid_readable h.1) (valid_readable h.2) own closes
  | .cond _ _ _ (some _), h => conditional_readable rfl fun own closes =>
    alternative_at (valid_readable h.1) (valid_readable h.2.1) (valid_readable h.2.2) own
      (ends_of_closing closes.markKind)
  | .block .., h => block_readable (statements_readable h)

theorem validAll_readable : {es : List Expr} → Expr.ValidAll es → ∀ e ∈ es, Readable e
  | _ :: _, h, _, .head _ => valid_readable h.1
  | _ :: _, h, e, .tail _ mem => validAll_readable h.2 e mem

theorem statement_readable : {statement : Stmt} → statement.Valid → StmtReadable statement
  | .val .., h => statement_val_readable h.2.1 (valid_readable h.2.2)
  | .expr e, h => statement_expr_readable (valid_readable (e := e) h)

theorem statements_readable :
    {body : List Stmt} → Stmt.ValidAll body → ∀ statement ∈ body, StmtReadable statement
  | _ :: _, h, _, .head _ => statement_readable h.1
  | _ :: _, h, statement, .tail _ mem => statements_readable h.2 statement mem

end

end Parser

end ScriptShell
