import ScriptShell.Proofs.Containment.Bodies
import ScriptShell.Proofs.Containment.Pieces

/-!
Places do not matter to the parser. Syntax without its places is what two texts have in common
that are laid out differently. Two cursors are *alike* when they stand in front of the same
tokens, apart from places, up to two tails with which a statement may end; everything the parser
asks at one of them has the same answer at the other one.
-/
namespace ScriptShell

/-- The place that stands for all others. -/
def Span.anywhere : Span := ⟨0, 0, 0, 0, 0⟩

def TypeRef.unplaced (ref : TypeRef) : TypeRef := { ref with span := .anywhere }

def ParamDecl.unplaced (param : ParamDecl) : ParamDecl := { param with type := param.type.unplaced }

def Import.unplaced (decl : Import) : Import := { decl with span := .anywhere }

mutual

/-- An expression without its places. -/
def Expr.unplaced : Expr → Expr
  | .int _ value => .int .anywhere value
  | .str _ value => .str .anywhere value
  | .unit _ => .unit .anywhere
  | .this _ => .this .anywhere
  | .name _ name => .name .anywhere name
  | .select _ object member => .select .anywhere object.unplaced member
  | .call _ callee args => .call .anywhere callee.unplaced (Expr.unplacedAll args)
  | .new _ target args => .new .anywhere target.unplaced (Expr.unplacedAll args)
  | .binary _ op left right => .binary .anywhere op left.unplaced right.unplaced
  | .unary _ op operand => .unary .anywhere op operand.unplaced
  | .cond _ condition yes none => .cond .anywhere condition.unplaced yes.unplaced none
  | .cond _ condition yes (some no) =>
    .cond .anywhere condition.unplaced yes.unplaced (some no.unplaced)
  | .block _ body => .block .anywhere (Stmt.unplacedAll body)

def Expr.unplacedAll : List Expr → List Expr
  | [] => []
  | first :: rest => first.unplaced :: Expr.unplacedAll rest

def Stmt.unplaced : Stmt → Stmt
  | .val _ name ascription init =>
    .val .anywhere name (ascription.map TypeRef.unplaced) init.unplaced
  | .expr value => .expr value.unplaced

def Stmt.unplacedAll : List Stmt → List Stmt
  | [] => []
  | first :: rest => first.unplaced :: Stmt.unplacedAll rest

end

def ValDecl.unplaced (decl : ValDecl) : ValDecl :=
  { decl with
    span := .anywhere, ascription := decl.ascription.map TypeRef.unplaced,
    init := decl.init.unplaced }

def DefDecl.unplaced (decl : DefDecl) : DefDecl :=
  { decl with
    span := .anywhere, params := decl.params.map ParamDecl.unplaced,
    result := decl.result.map TypeRef.unplaced, body := decl.body.unplaced }

def ForeignDecl.unplaced (decl : ForeignDecl) : ForeignDecl :=
  { decl with
    span := .anywhere, params := decl.params.map ParamDecl.unplaced,
    result := decl.result.unplaced }

mutual

/-- A member without its places. -/
def Member.unplaced : Member → Member
  | .imports decl => .imports decl.unplaced
  | .val decl => .val decl.unplaced
  | .func decl => .func decl.unplaced
  | .foreign decl => .foreign decl.unplaced
  | .container decl => .container decl.unplaced
  | .expr _ value => .expr .anywhere value.unplaced

def Member.unplacedAll : List Member → List Member
  | [] => []
  | first :: rest => first.unplaced :: Member.unplacedAll rest

/-- A module or class without its places. -/
def Container.unplaced : Container → Container
  | .mk _ kind name exported params members =>
    .mk .anywhere kind name exported (params.map ParamDecl.unplaced) (Member.unplacedAll members)

end

theorem Member.unplacedAll_eq (members : List Member) :
    unplacedAll members = members.map unplaced := by
  induction members with
  | nil => rfl
  | cons first rest ih => rw [unplacedAll, ih]; rfl

/-- Kinds with which no statement goes on: separators, a closing brace, and the end. -/
def TokenKind.isStop (kind : TokenKind) : Bool :=
  kind.isSeparator || kind = .punct .closeBrace || kind = .endOfInput

/-- What may stand behind a statement: nothing, or a separator or closing brace, and behind
newlines neither `else` nor `.`. -/
structure Stops (tail : List Token) : Prop where
  head : ∀ token ∈ tail.head?, token.kind.isStop = true
  resumes : Fragment.resumes tail = false

namespace Cursor

variable {tail other : List Token} {c d e : Cursor}

/-- A token that is no separator is still to come in front of the tail. -/
def Inside (tail : List Token) (c : Cursor) : Prop :=
  ∃ own, c.rest = own ++ tail ∧ ∃ token ∈ own, token.kind.isSeparator = false

/-- The cursor stands in front of the tail, inside parentheses with something before it. -/
structure Ahead (tail : List Token) (c : Cursor) : Prop where
  suffix : tail <:+ c.rest
  inside : c.depth ≠ 0 → c.Inside tail

/-- Two cursors in front of the same tokens, up to two tails that may stand behind a statement. -/
structure Alike (tail other : List Token) (c d : Cursor) : Prop where
  stops : Stops tail
  ends : Stops other
  depth : d.depth = c.depth
  rest : ∃ own twin, c.rest = own ++ tail ∧ d.rest = twin ++ other ∧
    twin.map Token.glyph = own.map Token.glyph

theorem Alike.suffix (h : Alike tail other c d) : tail <:+ c.rest := by
  obtain ⟨own, twin, split, -, -⟩ := h.rest
  exact ⟨own, split.symm⟩

/-- Where a token is read that is no separator, it stands in front of every tail behind it. -/
theorem inside_of_next (some : c.kind ≠ .endOfInput) (plain : c.kind.isSeparator = false)
    (behind : tail <:+ c.next.rest) : c.Inside tail := by
  obtain ⟨lines, -, -, split⟩ := rest_next some
  obtain ⟨more, same⟩ := behind
  refine ⟨lines ++ c.current :: more, ?_, c.current, by simp, plain⟩
  rw [split, ← same]
  simp

theorem Inside.of_suffix (h : d.Inside tail) (reaches : d.rest <:+ c.rest) : c.Inside tail := by
  obtain ⟨own, split, token, mem, plain⟩ := h
  obtain ⟨more, same⟩ := reaches
  exact ⟨more ++ own, by rw [← same, split, List.append_assoc], token, by simp [mem], plain⟩

theorem Inside.ahead (h : c.Inside tail) : c.Ahead tail where
  suffix := by
    obtain ⟨own, split, -⟩ := h
    exact ⟨own, split.symm⟩
  inside _ := h

theorem Ahead.of_reaches (h : d.Ahead tail) (reaches : c.Reaches d) : c.Ahead tail where
  suffix := h.suffix.trans reaches.rest
  inside deep := (h.inside (reaches.depth ▸ deep)).of_suffix reaches.rest

/-- The newlines in front of tokens and of others that are the same apart from places. -/
theorem dropWhile_alike {own twin : List Token} {p : TokenKind → Bool}
    (same : twin.map Token.glyph = own.map Token.glyph)
    (some : ∃ token ∈ own, p token.kind = false) :
    ∃ first others second rest, (∀ back, (own ++ back).dropWhile (p ·.kind) = first :: others ++ back) ∧
      (∀ back, (twin ++ back).dropWhile (p ·.kind) = second :: rest ++ back) ∧
      p first.kind = false ∧ (second :: rest).map Token.glyph = (first :: others).map Token.glyph := by
  induction own generalizing twin with
  | nil => simp at some
  | cons token own ih =>
    obtain ⟨mate, twin, rfl, glyph, tails⟩ := List.map_eq_cons_iff.mp same
    have kind : mate.kind = token.kind := congrArg Prod.fst glyph
    cases skips : p token.kind with
    | true =>
      have others : ∃ token ∈ own, p token.kind = false := by simpa [skips] using some
      obtain ⟨first, more, second, rest, left, right, found⟩ := ih tails others
      refine ⟨first, more, second, rest, ?_, ?_, found⟩
      · intro back
        rw [List.cons_append, List.dropWhile_cons, if_pos skips, left]
      · intro back
        rw [List.cons_append, List.dropWhile_cons, if_pos (by rwa [kind]), right]
    | false =>
      refine ⟨token, own, mate, twin, ?_, ?_, skips, same⟩
      · intro back
        rw [List.cons_append, List.dropWhile_cons, if_neg (by simp [skips])]
      · intro back
        rw [List.cons_append, List.dropWhile_cons, if_neg (by simp [kind, skips])]

namespace Alike

theorem own_of_inside (h : Alike tail other c d) (inside : c.Inside tail) :
    ∃ own twin, c.rest = own ++ tail ∧ d.rest = twin ++ other ∧
      twin.map Token.glyph = own.map Token.glyph ∧ ∃ token ∈ own, token.kind.isSeparator = false := by
  obtain ⟨own, twin, split, left, same⟩ := h.rest
  obtain ⟨more, again, some⟩ := inside
  obtain rfl : own = more := List.append_cancel_right (split.symm.trans again)
  exact ⟨own, twin, split, left, same, some⟩

/-- What is seen at two cursors that are alike, in front of the tails. -/
theorem visible (h : Alike tail other c d) (inside : c.Inside tail) :
    ∃ first others second rest, c.visible = first :: others ++ tail ∧
      d.visible = second :: rest ++ other ∧
      (second :: rest).map Token.glyph = (first :: others).map Token.glyph := by
  obtain ⟨own, twin, split, left, same, token, mem, plain⟩ := h.own_of_inside inside
  unfold Cursor.visible
  rw [h.depth, split, left]
  split
  · obtain ⟨first, others, rfl⟩ := List.exists_cons_of_ne_nil (List.ne_nil_of_mem mem)
    obtain ⟨second, rest, rfl, -⟩ := List.map_eq_cons_iff.mp same
    exact ⟨first, others, second, rest, rfl, rfl, same⟩
  · have some : ∃ token ∈ own, decide (token.kind = .newline) = false := by
      refine ⟨token, mem, decide_eq_false fun newline => ?_⟩
      rw [newline] at plain
      cases plain
    obtain ⟨first, others, second, rest, own, twin, -, same⟩ :=
      dropWhile_alike (p := fun kind => decide (kind = .newline)) same some
    exact ⟨first, others, second, rest, own tail, twin other, same⟩

/-- Cursors that are alike see the same token. -/
theorem glyph (h : Alike tail other c d) (inside : c.Inside tail) :
    d.current.glyph = c.current.glyph := by
  obtain ⟨first, others, second, rest, own, twin, same⟩ := h.visible inside
  unfold current
  rw [own, twin]
  exact (List.cons.inj same).1

theorem kind_eq (h : Alike tail other c d) (inside : c.Inside tail) : d.kind = c.kind :=
  congrArg Prod.fst (h.glyph inside)

theorem lexeme_eq (h : Alike tail other c d) (inside : c.Inside tail) :
    d.current.lexeme = c.current.lexeme :=
  congrArg Prod.snd (h.glyph inside)

theorem next (h : Alike tail other c d) (inside : c.Inside tail) :
    Alike tail other c.next d.next := by
  obtain ⟨first, others, second, rest, own, twin, same⟩ := h.visible inside
  refine ⟨h.stops, h.ends, h.depth, others, rest, ?_, ?_, (List.cons.inj same).2⟩
  · unfold Cursor.next
    rw [own]
    rfl
  · unfold Cursor.next
    rw [twin]
    rfl

theorem skipNewlines (h : Alike tail other c d) (inside : c.Inside tail) :
    Alike tail other c.skipNewlines d.skipNewlines := by
  obtain ⟨own, twin, split, left, same, token, mem, plain⟩ := h.own_of_inside inside
  have some : ∃ token ∈ own, decide (token.kind = .newline) = false := by
    refine ⟨token, mem, decide_eq_false fun newline => ?_⟩
    rw [newline] at plain
    cases plain
  obtain ⟨first, others, second, rest, own, twin, -, same⟩ :=
    dropWhile_alike (p := fun kind => decide (kind = .newline)) same some
  refine ⟨h.stops, h.ends, h.depth, first :: others, second :: rest, ?_, ?_, same⟩
  · unfold Cursor.skipNewlines
    rw [split]
    exact own tail
  · unfold Cursor.skipNewlines
    rw [left]
    exact twin other

theorem skipSeparators (h : Alike tail other c d) (inside : c.Inside tail) :
    Alike tail other c.skipSeparators d.skipSeparators := by
  obtain ⟨own, twin, split, left, same, some⟩ := h.own_of_inside inside
  obtain ⟨first, others, second, rest, own, twin, -, same⟩ :=
    dropWhile_alike (p := TokenKind.isSeparator) same some
  refine ⟨h.stops, h.ends, h.depth, first :: others, second :: rest, ?_, ?_, same⟩
  · unfold Cursor.skipSeparators
    rw [split]
    exact own tail
  · unfold Cursor.skipSeparators
    rw [left]
    exact twin other

theorem deeper (h : Alike tail other c d) : Alike tail other c.deeper d.deeper :=
  ⟨h.stops, h.ends, congrArg (· + 1) h.depth, h.rest⟩

theorem shallower (h : Alike tail other c d) : Alike tail other c.shallower d.shallower :=
  ⟨h.stops, h.ends, congrArg (· - 1) h.depth, h.rest⟩

theorem atDepth (h : Alike tail other c d) {depth twin : Nat} (same : twin = depth) :
    Alike tail other (c.atDepth depth) (d.atDepth twin) :=
  ⟨h.stops, h.ends, same, h.rest⟩

end Alike

theorem isStop_of_head {tail : List Token} (stops : Stops tail) (outside : c.depth = 0)
    (split : c.rest = tail) : c.kind.isStop = true := by
  unfold kind current Cursor.visible
  rw [if_pos outside, split]
  cases tail with
  | nil =>
    rw [List.headD_nil, c.ends]
    rfl
  | cons token rest => exact stops.head token rfl

theorem isStop_of_separators {own : List Token} (stops : Stops tail) (outside : c.depth = 0)
    (split : c.rest = own ++ tail) (separates : ∀ token ∈ own, token.kind.isSeparator = true) :
    c.kind.isStop = true := by
  cases own with
  | nil => exact isStop_of_head stops outside split
  | cons token own =>
    have first : c.kind = token.kind := by
      unfold kind current Cursor.visible
      rw [if_pos outside, split]
      rfl
    rw [first, TokenKind.isStop, separates token (by simp)]
    rfl

namespace Alike

/-- Cursors that are alike see tokens of the same kind, or both see the end of a statement. -/
theorem kinds (h : Alike tail other c d) (ahead : c.Ahead tail) :
    d.kind = c.kind ∨ (c.kind.isStop = true ∧ d.kind.isStop = true) := by
  by_cases inside : c.Inside tail
  · exact .inl (h.kind_eq inside)
  · right
    have outside : c.depth = 0 := by
      by_contra deep
      exact inside (ahead.inside deep)
    obtain ⟨own, twin, split, left, same⟩ := h.rest
    have separates : ∀ token ∈ own, token.kind.isSeparator = true := by
      intro token mem
      by_contra plain
      exact inside ⟨own, split, token, mem, by simpa using plain⟩
    refine ⟨isStop_of_separators h.stops outside split separates,
      isStop_of_separators h.ends (h.depth.trans outside) left ?_⟩
    intro token mem
    have among : token.glyph ∈ own.map Token.glyph := same ▸ List.mem_map_of_mem mem
    obtain ⟨mate, found, glyph⟩ := List.mem_map.mp among
    have kind : mate.kind = token.kind := congrArg Prod.fst glyph
    rw [← kind]
    exact separates mate found

theorem kind_iff (h : Alike tail other c d) (ahead : c.Ahead tail) {kind : TokenKind}
    (goes : kind.isStop = false) : d.kind = kind ↔ c.kind = kind := by
  rcases h.kinds ahead with same | ⟨left, right⟩
  · rw [same]
  · constructor
    · rintro rfl
      rw [right] at goes
      cases goes
    · rintro rfl
      rw [left] at goes
      cases goes

end Alike

/-- Behind newlines `else` or `.` comes next. -/
theorem resumes_rest (c : Cursor) : Fragment.resumes c.rest =
    (c.kindPastNewlines = .keyword .kwElse || c.kindPastNewlines = .punct .dot) := by
  unfold Fragment.resumes kindPastNewlines Cursor.skipNewlines
  cases c.rest.dropWhile (·.kind = .newline) with
  | nil => simp [c.ends]
  | cons token rest => rfl

namespace Alike

/-- Cursors that are alike see `else` and `.` behind newlines in the same cases. -/
theorem past_iff (h : Alike tail other c d) {kind : TokenKind}
    (resumes : kind = .keyword .kwElse ∨ kind = .punct .dot) :
    d.kindPastNewlines = kind ↔ c.kindPastNewlines = kind := by
  obtain ⟨own, twin, split, left, same⟩ := h.rest
  by_cases some : ∃ token ∈ own, decide (token.kind = .newline) = false
  · obtain ⟨first, others, second, rest, own, twin, -, same⟩ :=
      dropWhile_alike (p := fun kind => decide (kind = .newline)) same some
    have kinds : second.kind = first.kind := congrArg Prod.fst (List.cons.inj same).1
    unfold kindPastNewlines Cursor.skipNewlines
    rw [split, left, own tail, twin other]
    simp [kinds]
  · -- the tokens in front of the tails are newlines, and the tails do not resume
    have newlines : ∀ token ∈ own, token.kind = .newline := by simpa using some
    have mates : ∀ token ∈ twin, token.kind = .newline := by
      intro token mem
      have among : token.glyph ∈ own.map Token.glyph := same ▸ List.mem_map_of_mem mem
      obtain ⟨mate, found, glyph⟩ := List.mem_map.mp among
      have kind : mate.kind = token.kind := congrArg Prod.fst glyph
      rw [← kind]
      exact newlines mate found
    have first : Fragment.resumes c.rest = false := by
      rw [split, Fragment.resumes_append, if_pos (by simpa using newlines)]
      exact h.stops.resumes
    have second : Fragment.resumes d.rest = false := by
      rw [left, Fragment.resumes_append, if_pos (by simpa using mates)]
      exact h.ends.resumes
    rw [resumes_rest] at first second
    simp only [Bool.or_eq_false_iff, decide_eq_false_iff_not] at first second
    rcases resumes with rfl | rfl
    · exact iff_of_false second.1 first.1
    · exact iff_of_false second.2 first.2

end Alike

end Cursor

end ScriptShell
