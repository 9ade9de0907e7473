import ScriptShell.Proofs.Splitting.Places

/-!
What the parser reads does not depend on what stands behind it. A type, an expression or a member
that was read in front of a tail with which statements end is read again, apart from places, at
every cursor in front of the same tokens and another such tail.
-/
namespace ScriptShell

namespace Cursor

/-- What was read up to a tail is read again from `y` up to the other one. -/
def Rereads (tail other : List Token) {α β : Type} {c d : Cursor} (bare : α → β)
    (p : Parsed α c) (y : Parse α d) : Prop :=
  ∃ q, y = .ok q ∧ bare q.value = bare p.value ∧ Alike tail other p.cursor q.cursor

/-- What was read up to a tail, perhaps from no token, is read again from `y` up to the other
one. -/
def Regains (tail other : List Token) {α β : Type} {c d : Cursor} (bare : α → β)
    (r : Extended α c) (y : Extend α d) : Prop :=
  ∃ q, y = .ok q ∧ bare q.value = bare r.value ∧ Alike tail other r.cursor q.cursor

variable {tail other : List Token} {c d : Cursor}

theorem expect_reads {kind : TokenKind} {what : String} {known : kind ≠ .endOfInput}
    {p : Parsed Token c} (h : c.expect kind what known = .ok p) (plain : kind.isSeparator = false)
    (alike : Alike tail other c d) (behind : tail <:+ p.cursor.rest) :
    Rereads tail other Token.glyph p (d.expect kind what known) := by
  obtain ⟨found, value, cursor⟩ := expect_ok h
  have inside : c.Inside tail :=
    inside_of_next (found ▸ known) (found ▸ plain) (cursor ▸ behind)
  have same : d.kind = kind := (alike.kind_eq inside).trans found
  refine ⟨⟨d.current, d.next, follows_next (same ▸ known)⟩, ?_, ?_, ?_⟩
  · rw [expect, dif_pos same]
  · rw [value]
    exact alike.glyph inside
  · rw [cursor]
    exact alike.next inside

theorem expectName_reads {what : String} {p : Parsed Token c} (h : c.expectName what = .ok p)
    (alike : Alike tail other c d) (behind : tail <:+ p.cursor.rest) :
    Rereads tail other Token.glyph p (d.expectName what) :=
  expect_reads h rfl alike behind

theorem expectWord_reads {word : Keyword} {what : String} {p : Parsed Token c}
    (h : c.expectWord word what = .ok p) (alike : Alike tail other c d)
    (behind : tail <:+ p.cursor.rest) :
    Rereads tail other Token.glyph p (d.expectWord word what) :=
  expect_reads h rfl alike behind

theorem expectMark_reads {mark : Punct} {what : String} {p : Parsed Token c}
    (h : c.expectMark mark what = .ok p) (plain : mark ≠ .semicolon) (alike : Alike tail other c d)
    (behind : tail <:+ p.cursor.rest) :
    Rereads tail other Token.glyph p (d.expectMark mark what) :=
  expect_reads h (by simpa [TokenKind.isSeparator] using plain) alike behind

theorem inside_of_mark {mark : Punct} {what : String} {p : Parsed Token c}
    (h : c.expectMark mark what = .ok p) (plain : mark ≠ .semicolon)
    (behind : tail <:+ p.cursor.rest) : c.Inside tail := by
  obtain ⟨found, -, cursor⟩ := expectMark_ok h
  refine inside_of_next (by simp [found]) ?_ (cursor ▸ behind)
  simpa [found, TokenKind.isSeparator] using plain

/-- What was read up to a place where a statement may end stands in front of every tail behind
it. -/
theorem Reads.inside (h : Completes c d) (lt : d.left < c.left) (behind : tail <:+ d.rest) :
    c.Inside tail := by
  obtain ⟨read, took⟩ := h
  have some : read ≠ [] := by
    rintro rfl
    rw [left, left, took.rest] at lt
    simp at lt
  obtain ⟨more, same⟩ := behind
  refine ⟨read ++ more, ?_, read.getLast some, by simp, ?_⟩
  · rw [took.rest, ← same, List.append_assoc]
  · have closes := took.last _ (List.getLast?_eq_some_getLast some)
    simp only [TokenKind.closesStatement, Bool.and_eq_true, Bool.not_eq_true'] at closes
    exact closes.2

end Cursor

namespace Parser

open Cursor

section Types

variable {tail other : List Token}

theorem pathRest_reads {what : String} {c d : Cursor} {r : Extended (List String) c}
    (h : pathRest what c = .ok r) (ahead : r.cursor.Ahead tail) (alike : Alike tail other c d) :
    Regains tail other id r (pathRest what d) := by
  have dot : d.kind = .punct .dot ↔ c.kind = .punct .dot :=
    alike.kind_iff (ahead.of_reaches r.reaches) rfl
  unfold pathRest at h ⊢
  split at h
  · next found =>
    obtain ⟨segment, name, h⟩ := Except.bind_ok.mp h
    have := segment.follows.lt
    have := left_next_le c
    obtain ⟨rest, more, h⟩ := Except.bind_ok.mp h
    cases h
    have behind := (ahead.of_reaches rest.reaches).suffix
    have inside : c.Inside tail :=
      inside_of_next (by simp [found]) (by rw [found]; rfl)
        (behind.trans segment.follows.reaches.rest)
    obtain ⟨twin, again, glyph, onward⟩ := expectName_reads name (alike.next inside) behind
    obtain ⟨others, tailed, same, final⟩ := pathRest_reads more ahead onward
    rw [dif_pos (dot.mpr found)]
    refine ⟨_, Except.bind_ok.mpr ⟨twin, again, Except.bind_ok.mpr ⟨others, tailed, rfl⟩⟩, ?_, final⟩
    exact congrArg₂ List.cons (congrArg Prod.snd glyph) same
  · next none =>
    cases h
    rw [dif_neg (mt dot.mp none)]
    exact ⟨_, rfl, rfl, alike⟩
termination_by c.left
decreasing_by all_goals omega

theorem typeRef_reads {c d : Cursor} {p : Parsed TypeRef c} (h : typeRef c = .ok p)
    (ahead : p.cursor.Ahead tail) (alike : Alike tail other c d) :
    Rereads tail other TypeRef.unplaced p (typeRef d) := by
  unfold typeRef at h ⊢
  obtain ⟨first, name, h⟩ := Except.bind_ok.mp h
  obtain ⟨rest, more, h⟩ := Except.bind_ok.mp h
  cases h
  obtain ⟨twin, again, glyph, onward⟩ :=
    expectName_reads name alike (ahead.of_reaches rest.reaches).suffix
  obtain ⟨others, tailed, same, final⟩ := pathRest_reads more ahead onward
  refine ⟨_, Except.bind_ok.mpr ⟨twin, again, Except.bind_ok.mpr ⟨others, tailed, rfl⟩⟩, ?_, final⟩
  exact congrArg (TypeRef.mk · .anywhere) (congrArg₂ List.cons (congrArg Prod.snd glyph) same)

theorem paramList_reads {c d : Cursor} {p : Parsed (List ParamDecl) c} (h : paramList c = .ok p)
    (inside : p.cursor.Inside tail) (alike : Alike tail other c d) :
    Rereads tail other (List.map ParamDecl.unplaced) p (paramList d) := by
  unfold paramList at h ⊢
  obtain ⟨name, first, h⟩ := Except.bind_ok.mp h
  obtain ⟨colon, mark, h⟩ := Except.bind_ok.mp h
  obtain ⟨type, written, h⟩ := Except.bind_ok.mp h
  have own (reached : type.cursor.Ahead tail) : ∃ name' colon' type',
      d.expectName "parameter name" = .ok name' ∧
      name'.cursor.expectMark .colon "':' and a parameter type" = .ok colon' ∧
      typeRef colon'.cursor = .ok type' ∧ Alike tail other type.cursor type'.cursor ∧
      ParamDecl.unplaced ⟨name'.value.lexeme, type'.value⟩ =
        ParamDecl.unplaced ⟨name.value.lexeme, type.value⟩ := by
    have typed := reached.of_reaches type.follows.reaches
    have named := typed.of_reaches colon.follows.reaches
    obtain ⟨name', named, glyph, onward⟩ := expectName_reads first alike named.suffix
    obtain ⟨colon', marked, -, onward⟩ := expectMark_reads mark (by simp) onward typed.suffix
    obtain ⟨type', written', same, onward⟩ := typeRef_reads written reached onward
    refine ⟨name', colon', type', named, marked, written', onward, ?_⟩
    exact congrArg₂ ParamDecl.mk (congrArg Prod.snd glyph) same
  simp only at h
  split at h
  · next comma =>
    have := name.follows.lt
    have := colon.follows.lt
    have := type.follows.lt
    have := left_next_le type.cursor
    obtain ⟨rest, more, h⟩ := Except.bind_ok.mp h
    cases h
    have behind := inside.of_suffix rest.follows.reaches.rest
    have reached := behind.of_suffix (reaches_next type.cursor).rest
    obtain ⟨name', colon', type', named, marked, written', onward, param⟩ := own reached.ahead
    obtain ⟨rest', more', same, final⟩ := paramList_reads more inside (onward.next reached)
    refine ⟨_, Except.bind_ok.mpr ⟨name', named, Except.bind_ok.mpr ⟨colon', marked,
      Except.bind_ok.mpr ⟨type', written', (dif_pos ((onward.kind_eq reached).trans comma)).trans
        (Except.bind_ok.mpr ⟨rest', more', rfl⟩)⟩⟩⟩, ?_, final⟩
    exact congrArg₂ List.cons param same
  · next stop =>
    cases h
    obtain ⟨name', colon', type', named, marked, written', onward, param⟩ := own inside.ahead
    refine ⟨_, Except.bind_ok.mpr ⟨name', named, Except.bind_ok.mpr ⟨colon', marked,
      Except.bind_ok.mpr ⟨type', written', dif_neg ?_⟩⟩⟩, ?_, onward⟩
    · rwa [onward.kind_eq inside]
    · exact congrArg (· :: []) param
termination_by c.left
decreasing_by all_goals omega

theorem params_reads {c d : Cursor} {p : Parsed (List ParamDecl) c} (h : params c = .ok p)
    (behind : tail <:+ p.cursor.rest) (alike : Alike tail other c d) :
    Rereads tail other (List.map ParamDecl.unplaced) p (params d) := by
  unfold params at h ⊢
  obtain ⟨opening, first, h⟩ := Except.bind_ok.mp h
  split at h
  · next empty =>
    obtain ⟨closing, last, h⟩ := Except.bind_ok.mp h
    cases h
    have inside := inside_of_mark last (by simp) behind
    obtain ⟨opening', opened, -, onward⟩ :=
      expectMark_reads first (by simp) alike inside.ahead.suffix
    obtain ⟨closing', closed, -, final⟩ := expectMark_reads last (by simp) onward.deeper behind
    exact ⟨_, Except.bind_ok.mpr ⟨opening', opened,
      (if_pos ((onward.deeper.kind_eq inside).trans empty)).trans
        (Except.bind_ok.mpr ⟨closing', closed, rfl⟩)⟩, rfl, final.shallower⟩
  · next some =>
    obtain ⟨list, inner, h⟩ := Except.bind_ok.mp h
    obtain ⟨closing, last, h⟩ := Except.bind_ok.mp h
    cases h
    have left := inside_of_mark last (by simp) behind
    have inside := left.of_suffix list.follows.reaches.rest
    obtain ⟨opening', opened, -, onward⟩ :=
      expectMark_reads first (by simp) alike inside.ahead.suffix
    obtain ⟨list', listed, same, before⟩ := paramList_reads inner left onward.deeper
    obtain ⟨closing', closed, -, final⟩ := expectMark_reads last (by simp) before behind
    refine ⟨_, Except.bind_ok.mpr ⟨opening', opened, (if_neg ?_).trans
      (Except.bind_ok.mpr ⟨list', listed, Except.bind_ok.mpr ⟨closing', closed, rfl⟩⟩)⟩, same,
        final.shallower⟩
    rwa [onward.deeper.kind_eq inside]

theorem ascription_reads {c d : Cursor} {r : Extended (Option TypeRef) c}
    (h : ascription c = .ok r) (ahead : r.cursor.Ahead tail) (alike : Alike tail other c d) :
    Regains tail other (Option.map TypeRef.unplaced) r (ascription d) := by
  have colon : d.kind = .punct .colon ↔ c.kind = .punct .colon :=
    alike.kind_iff (ahead.of_reaches r.reaches) rfl
  unfold ascription at h ⊢
  split at h
  · next found =>
    obtain ⟨type, written, h⟩ := Except.bind_ok.mp h
    cases h
    have inside : c.Inside tail := inside_of_next (by simp [found]) (by rw [found]; rfl)
      (ahead.of_reaches type.follows.reaches).suffix
    obtain ⟨twin, again, same, final⟩ := typeRef_reads written ahead (alike.next inside)
    exact ⟨_, (if_pos (colon.mpr found)).trans (Except.bind_ok.mpr ⟨twin, again, rfl⟩),
      congrArg some same, final⟩
  · next none =>
    cases h
    exact ⟨_, if_neg (mt colon.mp none), rfl, alike⟩

theorem targetRest_reads {target twin : Expr} (known : twin.unplaced = target.unplaced)
    {c d : Cursor} {r : Extended Expr c} (h : targetRest target c = .ok r)
    (ahead : r.cursor.Ahead tail) (alike : Alike tail other c d) :
    Regains tail other Expr.unplaced r (targetRest twin d) := by
  have dot : d.kind = .punct .dot ↔ c.kind = .punct .dot :=
    alike.kind_iff (ahead.of_reaches r.reaches) rfl
  unfold targetRest at h ⊢
  split at h
  · next found =>
    obtain ⟨segment, name, h⟩ := Except.bind_ok.mp h
    have := segment.follows.lt
    have := left_next_le c
    obtain ⟨rest, more, h⟩ := Except.bind_ok.mp h
    cases h
    have behind := (ahead.of_reaches rest.reaches).suffix
    have inside : c.Inside tail :=
      inside_of_next (by simp [found]) (by rw [found]; rfl)
        (behind.trans segment.follows.reaches.rest)
    obtain ⟨segment', again, glyph, onward⟩ := expectName_reads name (alike.next inside) behind
    have grown : (Expr.select segment'.value.span twin segment'.value.lexeme).unplaced =
        (Expr.select segment.value.span target segment.value.lexeme).unplaced :=
      congrArg₂ (Expr.select .anywhere) known (congrArg Prod.snd glyph)
    obtain ⟨rest', tailed, same, final⟩ := targetRest_reads grown more ahead onward
    exact ⟨_, (dif_pos (dot.mpr found)).trans (Except.bind_ok.mpr ⟨segment', again,
      Except.bind_ok.mpr ⟨rest', tailed, rfl⟩⟩), same, final⟩
  · next none =>
    cases h
    exact ⟨_, dif_neg (mt dot.mp none), known, alike⟩
termination_by c.left
decreasing_by all_goals omega

end Types

theorem binaryOp_alike {tail other : List Token} {c d : Cursor} (ahead : c.Ahead tail)
    (alike : Alike tail other c d) : BinaryOp.ofToken? d.kind = BinaryOp.ofToken? c.kind := by
  have none {kind : TokenKind} (stop : kind.isStop = true) : BinaryOp.ofToken? kind = none := by
    unfold BinaryOp.ofToken?
    split
    all_goals first | rfl | cases stop
  rcases alike.kinds ahead with same | ⟨left, right⟩
  · rw [same]
  · rw [none left, none right]

/-- A value definition without its places. -/
def ValBinding.unplaced (val : ValBinding) : ValBinding :=
  ⟨.anywhere, val.name, val.ascription.map TypeRef.unplaced, val.init.unplaced⟩

section Primary

variable {c : Cursor}

/-- A literal, a name or `this`, as an expression. -/
def atom? (token : Token) : Option Expr :=
  match token.kind with
  | .number => some (.int token.span (Lexer.digitsValue token.lexeme.toList))
  | .string => some (.str token.span token.lexeme)
  | .identifier => some (.name token.span token.lexeme)
  | .keyword .kwThis => some (.this token.span)
  | _ => none

theorem primary_atom {value : Expr} (h : atom? c.current = some value) :
    ∃ q, primary c = .ok q ∧ q.value = value ∧ q.cursor = c.next := by
  unfold atom? at h
  split at h <;> cases h
  all_goals
    next kind =>
    have kind : c.kind = _ := kind
    unfold primary
    split <;> first
      | exact ⟨_, rfl, rfl, rfl⟩
      | contradiction
      | (next other => rw [kind] at other; cases other)

theorem primary_empty {closing : Parsed Token c.next.deeper} (kind : c.kind = .punct .openParen)
    (empty : c.next.deeper.kind = .punct .closeParen)
    (last : c.next.deeper.expectMark .closeParen "')'" = .ok closing) :
    ∃ q, primary c = .ok q ∧ q.value = .unit c.current.span ∧
      q.cursor = closing.cursor.shallower := by
  unfold primary
  split <;> first
    | contradiction
    | (next other => rw [kind] at other; cases other; done)
    | exact ⟨_, (if_pos empty).trans (Except.bind_ok.mpr ⟨closing, last, rfl⟩), rfl, rfl⟩

theorem primary_group {inner : Parsed Expr c.next.deeper} {closing : Parsed Token inner.cursor}
    (kind : c.kind = .punct .openParen) (some : c.next.deeper.kind ≠ .punct .closeParen)
    (own : expr c.next.deeper = .ok inner)
    (last : inner.cursor.expectMark .closeParen "')'" = .ok closing) :
    ∃ q, primary c = .ok q ∧ q.value = inner.value ∧ q.cursor = closing.cursor.shallower := by
  unfold primary
  split <;> first
    | contradiction
    | (next other => rw [kind] at other; cases other; done)
    | exact ⟨_, (if_neg some).trans (Except.bind_ok.mpr ⟨inner, own, Except.bind_ok.mpr
        ⟨closing, last, rfl⟩⟩), rfl, rfl⟩

theorem primary_block (kind : c.kind = .punct .openBrace) : primary c = block c := by
  unfold primary
  split <;> first
    | rfl
    | contradiction
    | (next other => rw [kind] at other; cases other)

theorem primary_construction (kind : c.kind = .keyword .kwNew) : primary c = construction c := by
  unfold primary
  split <;> first
    | rfl
    | contradiction
    | (next other => rw [kind] at other; cases other)

theorem primary_condition (kind : c.kind = .keyword .kwIf) : primary c = condition c := by
  unfold primary
  split <;> first
    | rfl
    | contradiction
    | (next other => rw [kind] at other; cases other)

end Primary

theorem statement_inside {tail : List Token} {c : Cursor} {p : Parsed Stmt c}
    (h : statement c = .ok p) (behind : tail <:+ p.cursor.rest) : c.Inside tail := by
  unfold statement at h
  split at h
  · obtain ⟨val, own, h⟩ := Except.bind_ok.mp h
    cases h
    exact (valBinding_completes own).inside val.follows.lt behind
  all_goals first | cases h | skip
  obtain ⟨value, own, h⟩ := Except.bind_ok.mp h
  cases h
  exact (expr_phrase own).completes.inside value.follows.lt behind

section Expressions

/-- What `read` reads at a cursor it reads again at every cursor that is alike. -/
def RereadsAt (tail other : List Token) {α β : Type} (bare : α → β)
    (read : (c : Cursor) → Parse α c) (c : Cursor) : Prop :=
  ∀ {d : Cursor} {p : Parsed α c}, read c = .ok p → p.cursor.Ahead tail →
    Alike tail other c d → Rereads tail other bare p (read d)

/-- What `read` adds to an operand at a cursor it adds again at every cursor that is alike. -/
def RegainsAt (tail other : List Token) (read : Expr → (c : Cursor) → Extend Expr c)
    (c : Cursor) : Prop :=
  ∀ {operand twin : Expr} {d : Cursor} {r : Extended Expr c},
    twin.unplaced = operand.unplaced → read operand c = .ok r → r.cursor.Ahead tail →
    Alike tail other c d → Regains tail other Expr.unplaced r (read twin d)

/-- Below a measure everything is read again. The measure is the one that the functions of the
parser decrease. -/
structure Rereading (tail other : List Token) (size : Nat) : Prop where
  expr {c : Cursor} (lt : 32 * c.left + 20 < size) : RereadsAt tail other Expr.unplaced expr c
  condition {c : Cursor} (lt : 32 * c.left < size) :
    RereadsAt tail other Expr.unplaced condition c
  binary {loose : Fin 7} {c : Cursor} (lt : 32 * c.left + 4 + loose.val < size) :
    RereadsAt tail other Expr.unplaced (binary loose) c
  binaryRest {tighter : Fin 6} {c : Cursor} (lt : 32 * c.left < size) :
    RegainsAt tail other (binaryRest tighter) c
  unary {c : Cursor} (lt : 32 * c.left + 3 < size) : RereadsAt tail other Expr.unplaced unary c
  postfixed {c : Cursor} (lt : 32 * c.left + 2 < size) :
    RereadsAt tail other Expr.unplaced postfixed c
  postfixRest {c : Cursor} (lt : 32 * c.left + 1 < size) : RegainsAt tail other postfixRest c
  primary {c : Cursor} (lt : 32 * c.left + 1 < size) :
    RereadsAt tail other Expr.unplaced primary c
  block {c : Cursor} (lt : 32 * c.left < size) : RereadsAt tail other Expr.unplaced block c
  statements {c d : Cursor} {r : Extended (List Stmt) c} (lt : 32 * c.left + 22 < size)
    (h : statements c = .ok r) (inside : r.cursor.Inside tail) (alike : Alike tail other c d) :
    Regains tail other Stmt.unplacedAll r (Parser.statements d)
  statement {c : Cursor} (lt : 32 * c.left + 21 < size) :
    RereadsAt tail other Stmt.unplaced statement c
  valBinding {c : Cursor} (lt : 32 * c.left < size) :
    RereadsAt tail other ValBinding.unplaced valBinding c
  construction {c : Cursor} (lt : 32 * c.left < size) :
    RereadsAt tail other Expr.unplaced construction c
  arguments {c : Cursor} (lt : 32 * c.left < size) :
    RereadsAt tail other Expr.unplacedAll arguments c
  argumentList {c d : Cursor} {p : Parsed (List Expr) c} (lt : 32 * c.left + 21 < size)
    (h : argumentList c = .ok p) (inside : p.cursor.Inside tail) (alike : Alike tail other c d) :
    Rereads tail other Expr.unplacedAll p (Parser.argumentList d)

variable {tail other : List Token} {c : Cursor}

theorem expr_again (below : Rereading tail other (32 * c.left + 20)) :
    RereadsAt tail other Expr.unplaced expr c := by
  intro d p h ahead alike
  have inside := (expr_phrase h).completes.inside p.follows.lt ahead.suffix
  rw [expr_eq] at h ⊢
  rw [alike.kind_eq inside]
  split at h
  · next word =>
    rw [if_pos word]
    exact below.condition (by omega) h ahead alike
  · next word =>
    rw [if_neg word]
    exact below.binary (by omega) h ahead alike

theorem condition_again (below : Rereading tail other (32 * c.left)) :
    RereadsAt tail other Expr.unplaced condition c := by
  intro d p h ahead alike
  unfold condition at h ⊢
  obtain ⟨keyword, word, h⟩ := Except.bind_ok.mp h
  obtain ⟨opening, first, h⟩ := Except.bind_ok.mp h
  have := (keyword.follows.then opening.follows).lt
  obtain ⟨test, tested, h⟩ := Except.bind_ok.mp h
  obtain ⟨closing, last, h⟩ := Except.bind_ok.mp h
  have parens := opening.follows.closed (test.follows.then closing.follows)
  have := ((keyword.follows.then parens).trans
    closing.cursor.shallower.reaches_skipNewlines).lt
  obtain ⟨yes, answered, h⟩ := Except.bind_ok.mp h
  -- the condition and the first branch, which the second one does not touch
  have front (reached : yes.cursor.Ahead tail) : ∃ keyword' opening' test' closing' yes',
      d.expectWord .kwIf "'if'" = .ok keyword' ∧
      keyword'.cursor.expectMark .openParen "'(' after 'if'" = .ok opening' ∧
      expr opening'.cursor.deeper = .ok test' ∧
      test'.cursor.expectMark .closeParen "')' closing the condition" = .ok closing' ∧
      expr closing'.cursor.shallower.skipNewlines = .ok yes' ∧
      test'.value.unplaced = test.value.unplaced ∧ yes'.value.unplaced = yes.value.unplaced ∧
      Alike tail other yes.cursor yes'.cursor := by
    have inner := (expr_phrase answered).completes.inside yes.follows.lt reached.suffix
    have group : closing.cursor.shallower.Inside tail :=
      inner.of_suffix (reaches_skipNewlines _).rest
    have left := inside_of_mark last (by simp) group.ahead.suffix
    have start := left.of_suffix test.follows.reaches.rest
    have before := inside_of_mark first (by simp) start.ahead.suffix
    obtain ⟨keyword', word', -, onward⟩ := expectWord_reads word alike before.ahead.suffix
    obtain ⟨opening', first', -, onward⟩ :=
      expectMark_reads first (by simp) onward start.ahead.suffix
    obtain ⟨test', tested', testing, onward⟩ :=
      below.expr (by simpa only [left_deeper] using by omega) tested left.ahead onward.deeper
    obtain ⟨closing', last', -, onward⟩ :=
      expectMark_reads last (by simp) onward group.ahead.suffix
    obtain ⟨yes', answered', answering, onward⟩ :=
      below.expr (by omega) answered reached (onward.shallower.skipNewlines group)
    exact ⟨keyword', opening', test', closing', yes', word', first', tested', last', answered',
      testing, answering, onward⟩
  simp only at h
  split at h
  · next marker =>
    have kind : yes.cursor.skipNewlines.kind = .keyword .kwElse :=
      (kind_skipNewlines yes.cursor).trans marker
    have behind := follows_next (c := yes.cursor.skipNewlines) (by simp [kind])
    have := yes.follows.lt
    have := left_skipNewlines_le yes.cursor
    have := behind.lt
    have := left_skipNewlines_le yes.cursor.skipNewlines.next
    obtain ⟨no, otherwise, h⟩ := Except.bind_ok.mp h
    cases h
    have inner := (expr_phrase otherwise).completes.inside no.follows.lt ahead.suffix
    have branch : yes.cursor.skipNewlines.next.Inside tail :=
      inner.of_suffix (reaches_skipNewlines _).rest
    have mark : yes.cursor.skipNewlines.Inside tail := branch.of_suffix (reaches_next _).rest
    have reached : yes.cursor.Inside tail := mark.of_suffix (reaches_skipNewlines _).rest
    obtain ⟨keyword', opening', test', closing', yes', word', first', tested', last', answered',
      testing, answering, onward⟩ := front reached.ahead
    obtain ⟨no', otherwise', denying, final⟩ := below.expr (by omega) otherwise ahead
      (((onward.skipNewlines reached).next mark).skipNewlines branch)
    refine ⟨_, Except.bind_ok.mpr ⟨keyword', word', Except.bind_ok.mpr ⟨opening', first',
      Except.bind_ok.mpr ⟨test', tested', Except.bind_ok.mpr ⟨closing', last',
        Except.bind_ok.mpr ⟨yes', answered', (if_pos ?_).trans
          (Except.bind_ok.mpr ⟨no', otherwise', rfl⟩)⟩⟩⟩⟩⟩, ?_, final⟩
    · exact (onward.past_iff (.inl rfl)).mpr marker
    · simp only [Expr.unplaced, testing, answering, denying]
  · next none =>
    cases h
    obtain ⟨keyword', opening', test', closing', yes', word', first', tested', last', answered',
      testing, answering, onward⟩ := front ahead
    refine ⟨_, Except.bind_ok.mpr ⟨keyword', word', Except.bind_ok.mpr ⟨opening', first',
      Except.bind_ok.mpr ⟨test', tested', Except.bind_ok.mpr ⟨closing', last',
        Except.bind_ok.mpr ⟨yes', answered', if_neg ?_⟩⟩⟩⟩⟩, ?_, onward⟩
    · exact mt (onward.past_iff (.inl rfl)).mp none
    · simp only [Expr.unplaced, testing, answering]

theorem binary_again {loose : Fin 7} (below : Rereading tail other (32 * c.left + 4 + loose.val)) :
    RereadsAt tail other Expr.unplaced (binary loose) c := by
  intro d p h ahead alike
  unfold binary at h ⊢
  split at h
  · exact below.unary (by omega) h ahead alike
  · obtain ⟨left, first, h⟩ := Except.bind_ok.mp h
    have := left.follows.lt
    obtain ⟨whole, more, h⟩ := Except.bind_ok.mp h
    cases h
    obtain ⟨left', first', known, onward⟩ :=
      below.binary (by dsimp only; omega) first (ahead.of_reaches whole.reaches) alike
    obtain ⟨whole', more', same, final⟩ := below.binaryRest (by omega) known more ahead onward
    exact ⟨_, Except.bind_ok.mpr ⟨left', first', Except.bind_ok.mpr ⟨whole', more', rfl⟩⟩, same,
      final⟩

theorem binaryRest_again {tighter : Fin 6} (below : Rereading tail other (32 * c.left)) :
    RegainsAt tail other (binaryRest tighter) c := by
  intro left twin d r known h ahead alike
  have op_eq := binaryOp_alike (ahead.of_reaches r.reaches) alike
  unfold binaryRest at h ⊢
  split at h
  · next none =>
    cases h
    split
    · exact ⟨_, rfl, known, alike⟩
    · next op found => rw [op_eq, none] at found; cases found
  · next op found =>
    split
    · next none => rw [op_eq, found] at none; cases none
    next op' found' =>
    obtain rfl : op' = op := by rw [op_eq, found] at found'; exact (Option.some.inj found').symm
    split at h
    · next loose =>
      have behind := follows_next (c := c) (by intro stop; simp [stop, BinaryOp.ofToken?] at found)
      have := behind.lt
      have := left_skipNewlines_le c.next
      obtain ⟨right, operand, h⟩ := Except.bind_ok.mp h
      have := right.follows.lt
      obtain ⟨whole, more, h⟩ := Except.bind_ok.mp h
      cases h
      have reached := ahead.of_reaches whole.reaches
      have phrase : c.next.skipNewlines.Phrase right.cursor := by
        split at operand
        · exact condition_phrase operand
        · exact binary_phrase operand
      have inner := phrase.completes.inside right.follows.lt reached.suffix
      have start : c.next.Inside tail := inner.of_suffix (reaches_skipNewlines _).rest
      have inside := start.of_suffix (reaches_next c).rest
      have onward := (alike.next inside).skipNewlines start
      have again : Rereads tail other Expr.unplaced right
          (if d.next.skipNewlines.kind = .keyword .kwIf then condition d.next.skipNewlines
            else binary ⟨tighter.val, by omega⟩ d.next.skipNewlines) := by
        rw [onward.kind_eq inner]
        split at operand
        · next word =>
          rw [if_pos word]
          exact below.condition (by omega) operand reached onward
        · next word =>
          rw [if_neg word]
          exact below.binary (by omega) operand reached onward
      obtain ⟨right', operand', same, onward⟩ := again
      have grown : (Expr.binary d.current.span op' twin right'.value).unplaced =
          (Expr.binary c.current.span op' left right.value).unplaced :=
        congrArg₂ (Expr.binary .anywhere op') known same
      obtain ⟨whole', more', same, final⟩ := below.binaryRest (by omega) grown more ahead onward
      exact ⟨_, (if_pos loose).trans (Except.bind_ok.mpr ⟨right', operand',
        Except.bind_ok.mpr ⟨whole', more', rfl⟩⟩), same, final⟩
    · next tight =>
      cases h
      exact ⟨_, if_neg tight, known, alike⟩

theorem unary_again (below : Rereading tail other (32 * c.left + 3)) :
    RereadsAt tail other Expr.unplaced unary c := by
  intro d p h ahead alike
  have inside := (unary_phrase h).completes.inside p.follows.lt ahead.suffix
  have same := alike.kind_eq inside
  unfold unary at h ⊢
  split at h
  · next op found =>
    split
    · next op' found' =>
      obtain rfl : op' = op := by rw [same, found] at found'; exact (Option.some.inj found').symm
      have behind := follows_next (c := c) (by intro stop; simp [stop, UnaryOp.ofToken?] at found)
      have := behind.lt
      obtain ⟨operand, rest, h⟩ := Except.bind_ok.mp h
      cases h
      obtain ⟨operand', rest', known, final⟩ := below.unary (by omega) rest ahead (alike.next inside)
      exact ⟨_, Except.bind_ok.mpr ⟨operand', rest', rfl⟩,
        congrArg (Expr.unary .anywhere op') known, final⟩
    · next none => rw [same, found] at none; cases none
  · next none =>
    split
    · next op found => rw [same, none] at found; cases found
    · exact below.postfixed (by omega) h ahead alike

theorem postfixed_again (below : Rereading tail other (32 * c.left + 2)) :
    RereadsAt tail other Expr.unplaced postfixed c := by
  intro d p h ahead alike
  unfold postfixed at h ⊢
  obtain ⟨operand, first, h⟩ := Except.bind_ok.mp h
  have := operand.follows.lt
  obtain ⟨whole, more, h⟩ := Except.bind_ok.mp h
  cases h
  obtain ⟨operand', first', known, onward⟩ :=
    below.primary (by omega) first (ahead.of_reaches whole.reaches) alike
  obtain ⟨whole', more', same, final⟩ := below.postfixRest (by omega) known more ahead onward
  exact ⟨_, Except.bind_ok.mpr ⟨operand', first', Except.bind_ok.mpr ⟨whole', more', rfl⟩⟩, same,
    final⟩

theorem postfixRest_again (below : Rereading tail other (32 * c.left + 1)) :
    RegainsAt tail other postfixRest c := by
  intro operand twin d r known h ahead alike
  have start := ahead.of_reaches r.reaches
  have dot : d.kindPastNewlines = .punct .dot ↔ c.kindPastNewlines = .punct .dot :=
    alike.past_iff (.inr rfl)
  unfold postfixRest at h ⊢
  split at h
  · next found =>
    have kind : c.skipNewlines.kind = .punct .dot := (kind_skipNewlines c).trans found
    have behind := follows_next (c := c.skipNewlines) (by simp [kind])
    obtain ⟨name, named, h⟩ := Except.bind_ok.mp h
    have := behind.lt
    have := left_skipNewlines_le c
    have := name.follows.lt
    obtain ⟨whole, more, h⟩ := Except.bind_ok.mp h
    cases h
    have reached := (ahead.of_reaches whole.reaches).suffix
    have mark : c.skipNewlines.Inside tail :=
      inside_of_next (by simp [kind]) (by rw [kind]; rfl) (reached.trans name.follows.reaches.rest)
    have inside : c.Inside tail := mark.of_suffix (reaches_skipNewlines _).rest
    obtain ⟨name', named', glyph, onward⟩ :=
      expectName_reads named ((alike.skipNewlines inside).next mark) reached
    have grown : (Expr.select name'.value.span twin name'.value.lexeme).unplaced =
        (Expr.select name.value.span operand name.value.lexeme).unplaced :=
      congrArg₂ (Expr.select .anywhere) known (congrArg Prod.snd glyph)
    obtain ⟨whole', more', same, final⟩ := below.postfixRest (by omega) grown more ahead onward
    exact ⟨_, (if_pos (dot.mpr found)).trans (Except.bind_ok.mpr ⟨name', named',
      Except.bind_ok.mpr ⟨whole', more', rfl⟩⟩), same, final⟩
  · next plain =>
    have opens : d.kind = .punct .openParen ↔ c.kind = .punct .openParen :=
      alike.kind_iff start rfl
    rw [if_neg (mt dot.mp plain)]
    split at h
    · next found =>
      obtain ⟨args, list, h⟩ := Except.bind_ok.mp h
      have := args.follows.lt
      obtain ⟨whole, more, h⟩ := Except.bind_ok.mp h
      cases h
      obtain ⟨args', list', values, onward⟩ :=
        below.arguments (by omega) list (ahead.of_reaches whole.reaches) alike
      have grown : (Expr.call d.current.span twin args'.value).unplaced =
          (Expr.call c.current.span operand args.value).unplaced :=
        congrArg₂ (Expr.call .anywhere) known values
      obtain ⟨whole', more', same, final⟩ := below.postfixRest (by omega) grown more ahead onward
      exact ⟨_, (if_pos (opens.mpr found)).trans (Except.bind_ok.mpr ⟨args', list',
        Except.bind_ok.mpr ⟨whole', more', rfl⟩⟩), same, final⟩
    · next none =>
      cases h
      exact ⟨_, if_neg (mt opens.mp none), known, alike⟩

theorem primary_again (below : Rereading tail other (32 * c.left + 1)) :
    RereadsAt tail other Expr.unplaced primary c := by
  intro d p h ahead alike
  have inside := (primary_phrase h).completes.inside p.follows.lt ahead.suffix
  have same := alike.kind_eq inside
  have text := alike.lexeme_eq inside
  have onward := alike.next inside
  have atom {p : Parsed Expr c} {twin : Expr} (place : p.cursor = c.next)
      (found : atom? d.current = some twin) (known : twin.unplaced = p.value.unplaced) :
      Rereads tail other Expr.unplaced p (primary d) := by
    obtain ⟨q, read, value, cursor⟩ := primary_atom found
    exact ⟨q, read, value ▸ known, cursor ▸ place ▸ onward⟩
  unfold primary at h
  split at h
  · next kind =>
    cases h
    refine atom rfl (by rw [atom?, show d.current.kind = _ from same.trans kind]) ?_
    simp only [Expr.unplaced, text]
  · next kind =>
    cases h
    refine atom rfl (by rw [atom?, show d.current.kind = _ from same.trans kind]) ?_
    simp only [Expr.unplaced, text]
  · next kind =>
    cases h
    refine atom rfl (by rw [atom?, show d.current.kind = _ from same.trans kind]) ?_
    simp only [Expr.unplaced, text]
  · next kind =>
    cases h
    have found : atom? d.current = some (.this d.current.span) := by
      rw [atom?, show d.current.kind = _ from same.trans kind]
    exact atom rfl found rfl
  · next kind =>
    have := (follows_next (c := c) (by simp [kind])).lt
    simp only at h
    split at h
    · next empty =>
      obtain ⟨closing, last, h⟩ := Except.bind_ok.mp h
      cases h
      have left := inside_of_mark last (by simp) ahead.suffix
      obtain ⟨closing', closed, -, final⟩ :=
        expectMark_reads last (by simp) onward.deeper ahead.suffix
      obtain ⟨q, read, value, cursor⟩ :=
        primary_empty (same.trans kind) ((onward.deeper.kind_eq left).trans empty) closed
      exact ⟨q, read, value ▸ rfl, cursor ▸ final.shallower⟩
    · next some =>
      obtain ⟨inner, own, h⟩ := Except.bind_ok.mp h
      obtain ⟨closing, last, h⟩ := Except.bind_ok.mp h
      cases h
      have left := inside_of_mark last (by simp) ahead.suffix
      have start := left.of_suffix inner.follows.reaches.rest
      obtain ⟨inner', own', known, before⟩ :=
        below.expr (by simpa only [left_deeper] using by omega) own left.ahead onward.deeper
      obtain ⟨closing', closed, -, final⟩ := expectMark_reads last (by simp) before ahead.suffix
      obtain ⟨q, read, value, cursor⟩ := primary_group (same.trans kind)
        (by rwa [onward.deeper.kind_eq start]) own' closed
      exact ⟨q, read, value ▸ known, cursor ▸ final.shallower⟩
  · next kind =>
    rw [primary_block (same.trans kind)]
    exact below.block (by omega) h ahead alike
  · next kind =>
    rw [primary_construction (same.trans kind)]
    exact below.construction (by omega) h ahead alike
  · next kind =>
    rw [primary_condition (same.trans kind)]
    exact below.condition (by omega) h ahead alike
  · cases h
  · cases h

theorem block_again (below : Rereading tail other (32 * c.left)) :
    RereadsAt tail other Expr.unplaced block c := by
  intro d p h ahead alike
  unfold block at h ⊢
  obtain ⟨opening, first, h⟩ := Except.bind_ok.mp h
  have := opening.follows.lt
  have : (opening.cursor.atDepth 0).skipSeparators.left ≤ opening.cursor.left :=
    left_skipSeparators_le _
  obtain ⟨body, inner, h⟩ := Except.bind_ok.mp h
  obtain ⟨closing, last, h⟩ := Except.bind_ok.mp h
  cases h
  have brace : (body.cursor.atDepth c.depth).Inside tail :=
    inside_of_mark last (by simp) ahead.suffix
  have start : (opening.cursor.atDepth 0).skipSeparators.Inside tail :=
    brace.of_suffix body.reaches.rest
  have before : (opening.cursor.atDepth 0).Inside tail :=
    start.of_suffix (reaches_skipSeparators _).rest
  obtain ⟨opening', first', -, onward⟩ := expectMark_reads first (by simp) alike before.ahead.suffix
  obtain ⟨body', inner', same, onward⟩ :=
    below.statements (by omega) inner brace ((onward.atDepth rfl).skipSeparators before)
  obtain ⟨closing', last', -, final⟩ :=
    expectMark_reads last (by simp) (onward.atDepth alike.depth) ahead.suffix
  exact ⟨_, Except.bind_ok.mpr ⟨opening', first', Except.bind_ok.mpr ⟨body', inner',
    Except.bind_ok.mpr ⟨closing', last', rfl⟩⟩⟩, congrArg (Expr.block .anywhere) same, final⟩

theorem statements_again {d : Cursor} {r : Extended (List Stmt) c}
    (below : Rereading tail other (32 * c.left + 22)) (h : statements c = .ok r)
    (inside : r.cursor.Inside tail) (alike : Alike tail other c d) :
    Regains tail other Stmt.unplacedAll r (statements d) := by
  have same := alike.kind_eq (inside.of_suffix r.reaches.rest)
  unfold statements at h ⊢
  rw [same]
  split at h
  · next closes =>
    cases h
    exact ⟨_, if_pos closes, rfl, alike⟩
  · next opens =>
    rw [if_neg opens]
    split at h
    · cases h
    · next goes =>
      rw [if_neg goes]
      obtain ⟨first, own, h⟩ := Except.bind_ok.mp h
      have reached : first.cursor.Inside tail := by
        split at h
        · cases h
          exact inside
        · split at h
          · obtain ⟨rest, more, h⟩ := Except.bind_ok.mp h
            cases h
            exact inside.of_suffix (rest.reaches.rest.trans (reaches_skipSeparators _).rest)
          · cases h
      obtain ⟨first', own', known, onward⟩ := below.statement (by omega) own reached.ahead alike
      have kinds := onward.kind_eq reached
      split at h
      · next closes =>
        cases h
        exact ⟨_, Except.bind_ok.mpr ⟨first', own', if_pos (kinds.trans closes)⟩,
          congrArg (· :: []) known, onward⟩
      · next more =>
        split at h
        · next separates =>
          have := first.follows.lt
          have := left_skipSeparators_le first.cursor
          obtain ⟨rest, others, h⟩ := Except.bind_ok.mp h
          cases h
          obtain ⟨rest', others', values, final⟩ :=
            below.statements (by omega) others inside (onward.skipSeparators reached)
          exact ⟨_, Except.bind_ok.mpr ⟨first', own', (if_neg (kinds ▸ more)).trans
            ((if_pos (kinds ▸ separates)).trans (Except.bind_ok.mpr ⟨rest', others', rfl⟩))⟩,
            congrArg₂ List.cons known values, final⟩
        · cases h

theorem statement_again (below : Rereading tail other (32 * c.left + 21)) :
    RereadsAt tail other Stmt.unplaced statement c := by
  intro d p h ahead alike
  have same := alike.kind_eq (statement_inside h ahead.suffix)
  unfold statement at h ⊢
  split at h
  all_goals split <;> try (exfalso; simp_all; done)
  · obtain ⟨val, own, h⟩ := Except.bind_ok.mp h
    cases h
    obtain ⟨val', own', known, final⟩ := below.valBinding (by omega) own ahead alike
    refine ⟨_, Except.bind_ok.mpr ⟨val', own', rfl⟩, ?_, final⟩
    simp only [ValBinding.unplaced, ValBinding.mk.injEq, true_and] at known
    simp only [Stmt.unplaced, known]
  obtain ⟨value, own, h⟩ := Except.bind_ok.mp h
  cases h
  obtain ⟨value', own', known, final⟩ := below.expr (by omega) own ahead alike
  exact ⟨_, Except.bind_ok.mpr ⟨value', own', rfl⟩, congrArg Stmt.expr known, final⟩

theorem valBinding_again (below : Rereading tail other (32 * c.left)) :
    RereadsAt tail other ValBinding.unplaced valBinding c := by
  intro d p h ahead alike
  unfold valBinding at h ⊢
  obtain ⟨keyword, word, h⟩ := Except.bind_ok.mp h
  obtain ⟨name, named, h⟩ := Except.bind_ok.mp h
  obtain ⟨type, ascribed, h⟩ := Except.bind_ok.mp h
  obtain ⟨assign, mark, h⟩ := Except.bind_ok.mp h
  have front := ((keyword.follows.then name.follows).trans type.reaches).then assign.follows
  have := (front.trans assign.cursor.reaches_skipNewlines).lt
  obtain ⟨init, value, h⟩ := Except.bind_ok.mp h
  cases h
  have inner := (expr_phrase value).completes.inside init.follows.lt ahead.suffix
  have behind : assign.cursor.Inside tail := inner.of_suffix (reaches_skipNewlines _).rest
  have typed := inside_of_mark mark (by simp) behind.ahead.suffix
  have start := typed.of_suffix type.reaches.rest
  obtain ⟨keyword', word', -, onward⟩ :=
    expectWord_reads word alike (start.of_suffix name.follows.reaches.rest).ahead.suffix
  obtain ⟨name', named', glyph, onward⟩ := expectName_reads named onward start.ahead.suffix
  obtain ⟨type', ascribed', written, onward⟩ :=
    ascription_reads ascribed typed.ahead onward
  obtain ⟨assign', mark', -, onward⟩ := expectMark_reads mark (by simp) onward behind.ahead.suffix
  obtain ⟨init', value', same, final⟩ :=
    below.expr (by omega) value ahead (onward.skipNewlines behind)
  refine ⟨_, Except.bind_ok.mpr ⟨keyword', word', Except.bind_ok.mpr ⟨name', named',
    Except.bind_ok.mpr ⟨type', ascribed', Except.bind_ok.mpr ⟨assign', mark',
      Except.bind_ok.mpr ⟨init', value', rfl⟩⟩⟩⟩⟩, ?_, final⟩
  have text : name'.value.lexeme = name.value.lexeme := congrArg Prod.snd glyph
  simp only [ValBinding.unplaced, text, written, same]

theorem construction_again (below : Rereading tail other (32 * c.left)) :
    RereadsAt tail other Expr.unplaced construction c := by
  intro d p h ahead alike
  unfold construction at h ⊢
  obtain ⟨keyword, word, h⟩ := Except.bind_ok.mp h
  obtain ⟨first, named, h⟩ := Except.bind_ok.mp h
  obtain ⟨target, path, h⟩ := Except.bind_ok.mp h
  have front (reached : target.cursor.Ahead tail) : ∃ keyword' first' target',
      d.expectWord .kwNew "'new'" = .ok keyword' ∧
      keyword'.cursor.expectName "class name after 'new'" = .ok first' ∧
      targetRest (.name first'.value.span first'.value.lexeme) first'.cursor = .ok target' ∧
      target'.value.unplaced = target.value.unplaced ∧
      Alike tail other target.cursor target'.cursor := by
    have start := reached.of_reaches target.reaches
    obtain ⟨keyword', word', -, onward⟩ :=
      expectWord_reads word alike (start.of_reaches first.follows.reaches).suffix
    obtain ⟨first', named', glyph, onward⟩ := expectName_reads named onward start.suffix
    have known : (Expr.name first'.value.span first'.value.lexeme).unplaced =
        (Expr.name first.value.span first.value.lexeme).unplaced :=
      congrArg (Expr.name .anywhere) (congrArg Prod.snd glyph)
    obtain ⟨target', path', same, onward⟩ := targetRest_reads known path reached onward
    exact ⟨keyword', first', target', word', named', path', same, onward⟩
  simp only at h
  split at h
  · next opens =>
    have := ((keyword.follows.then first.follows).trans target.reaches).lt
    obtain ⟨args, list, h⟩ := Except.bind_ok.mp h
    cases h
    have inside := (arguments_completes list).inside args.follows.lt ahead.suffix
    obtain ⟨keyword', first', target', word', named', path', known, onward⟩ := front inside.ahead
    obtain ⟨args', list', values, final⟩ := below.arguments (by omega) list ahead onward
    exact ⟨_, Except.bind_ok.mpr ⟨keyword', word', Except.bind_ok.mpr ⟨first', named',
      Except.bind_ok.mpr ⟨target', path', (if_pos ((onward.kind_eq inside).trans opens)).trans
        (Except.bind_ok.mpr ⟨args', list', rfl⟩)⟩⟩⟩, congrArg₂ (Expr.new .anywhere) known values,
      final⟩
  · next plain =>
    cases h
    obtain ⟨keyword', first', target', word', named', path', known, onward⟩ := front ahead
    have opens : target'.cursor.kind = .punct .openParen ↔ target.cursor.kind = .punct .openParen :=
      onward.kind_iff ahead rfl
    exact ⟨_, Except.bind_ok.mpr ⟨keyword', word', Except.bind_ok.mpr ⟨first', named',
      Except.bind_ok.mpr ⟨target', path', if_neg (mt opens.mp plain)⟩⟩⟩,
      congrArg (Expr.new .anywhere · []) known, onward⟩

theorem arguments_again (below : Rereading tail other (32 * c.left)) :
    RereadsAt tail other Expr.unplacedAll arguments c := by
  intro d p h ahead alike
  unfold arguments at h ⊢
  obtain ⟨opening, first, h⟩ := Except.bind_ok.mp h
  have := opening.follows.lt
  split at h
  · next empty =>
    obtain ⟨closing, last, h⟩ := Except.bind_ok.mp h
    cases h
    have inside := inside_of_mark last (by simp) ahead.suffix
    obtain ⟨opening', opened, -, onward⟩ :=
      expectMark_reads first (by simp) alike inside.ahead.suffix
    obtain ⟨closing', closed, -, final⟩ :=
      expectMark_reads last (by simp) onward.deeper ahead.suffix
    exact ⟨_, Except.bind_ok.mpr ⟨opening', opened,
      (if_pos ((onward.deeper.kind_eq inside).trans empty)).trans
        (Except.bind_ok.mpr ⟨closing', closed, rfl⟩)⟩, rfl, final.shallower⟩
  · next some =>
    obtain ⟨list, inner, h⟩ := Except.bind_ok.mp h
    obtain ⟨closing, last, h⟩ := Except.bind_ok.mp h
    cases h
    have left := inside_of_mark last (by simp) ahead.suffix
    have inside := left.of_suffix list.follows.reaches.rest
    obtain ⟨opening', opened, -, onward⟩ :=
      expectMark_reads first (by simp) alike inside.ahead.suffix
    obtain ⟨list', listed, same, before⟩ :=
      below.argumentList (by simpa only [left_deeper] using by omega) inner left onward.deeper
    obtain ⟨closing', closed, -, final⟩ := expectMark_reads last (by simp) before ahead.suffix
    refine ⟨_, Except.bind_ok.mpr ⟨opening', opened, (if_neg ?_).trans
      (Except.bind_ok.mpr ⟨list', listed, Except.bind_ok.mpr ⟨closing', closed, rfl⟩⟩)⟩, same,
        final.shallower⟩
    rwa [onward.deeper.kind_eq inside]

theorem argumentList_again {d : Cursor} {p : Parsed (List Expr) c}
    (below : Rereading tail other (32 * c.left + 21)) (h : argumentList c = .ok p)
    (inside : p.cursor.Inside tail) (alike : Alike tail other c d) :
    Rereads tail other Expr.unplacedAll p (argumentList d) := by
  unfold argumentList at h ⊢
  obtain ⟨first, own, h⟩ := Except.bind_ok.mp h
  split at h
  · next comma =>
    have := first.follows.lt
    have := left_next_le first.cursor
    obtain ⟨rest, more, h⟩ := Except.bind_ok.mp h
    cases h
    have reached := (inside.of_suffix rest.follows.reaches.rest).of_suffix
      (reaches_next first.cursor).rest
    obtain ⟨first', own', known, onward⟩ := below.expr (by omega) own reached.ahead alike
    obtain ⟨rest', more', values, final⟩ :=
      below.argumentList (by omega) more inside (onward.next reached)
    exact ⟨_, Except.bind_ok.mpr ⟨first', own',
      (dif_pos ((onward.kind_eq reached).trans comma)).trans
        (Except.bind_ok.mpr ⟨rest', more', rfl⟩)⟩, congrArg₂ List.cons known values, final⟩
  · next stop =>
    cases h
    obtain ⟨first', own', known, onward⟩ := below.expr (by omega) own inside.ahead alike
    refine ⟨_, Except.bind_ok.mpr ⟨first', own', dif_neg ?_⟩, congrArg (· :: []) known, onward⟩
    rwa [onward.kind_eq inside]

/-- Everything is read again at every cursor that is alike. -/
theorem rereading (tail other : List Token) (size : Nat) : Rereading tail other size := by
  induction size using Nat.strong_induction_on with
  | _ size below =>
    exact {
      expr := fun lt => expr_again (below _ lt)
      condition := fun lt => condition_again (below _ lt)
      binary := fun lt => binary_again (below _ lt)
      binaryRest := fun lt => binaryRest_again (below _ lt)
      unary := fun lt => unary_again (below _ lt)
      postfixed := fun lt => postfixed_again (below _ lt)
      postfixRest := fun lt => postfixRest_again (below _ lt)
      primary := fun lt => primary_again (below _ lt)
      block := fun lt => block_again (below _ lt)
      statements := fun lt => statements_again (below _ lt)
      statement := fun lt => statement_again (below _ lt)
      valBinding := fun lt => valBinding_again (below _ lt)
      construction := fun lt => construction_again (below _ lt)
      arguments := fun lt => arguments_again (below _ lt)
      argumentList := fun lt => argumentList_again (below _ lt) }

theorem expr_reads {c : Cursor} : RereadsAt tail other Expr.unplaced expr c :=
  (rereading tail other _).expr (Nat.lt_succ_self _)

theorem valBinding_reads {c : Cursor} : RereadsAt tail other ValBinding.unplaced valBinding c :=
  (rereading tail other _).valBinding (Nat.lt_succ_self _)

end Expressions

end Parser

end ScriptShell
