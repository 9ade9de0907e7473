import ScriptShell.Proofs.Containment.Bodies
import ScriptShell.Proofs.Lexing.Numbers
import ScriptShell.Proofs.Lexing.Placement
import ScriptShell.Proofs.Splitting.Rereading

/-!
Integer literals from the text to the tree. The lexer takes a run of digits for a number exactly if the number
is a word, so that every number token has a word to be read as, and an integer literal of a tree is the value
of a number token and holds what is written at its place.
-/
namespace ScriptShell

mutual

/-- The integer literals of an expression with their spans. -/
def Expr.literals : Expr → List (Span × Nat)
  | .int span value => [(span, value)]
  | .str .. | .unit _ | .this _ | .name .. => []
  | .select _ object _ => object.literals
  | .call _ callee args => callee.literals ++ Expr.literalsAll args
  | .new _ target args => target.literals ++ Expr.literalsAll args
  | .binary _ _ left right => left.literals ++ right.literals
  | .unary _ _ operand => operand.literals
  | .cond _ condition yes none => condition.literals ++ yes.literals
  | .cond _ condition yes (some no) => condition.literals ++ yes.literals ++ no.literals
  | .block _ body => Stmt.literalsAll body

def Expr.literalsAll : List Expr → List (Span × Nat)
  | [] => []
  | first :: rest => first.literals ++ Expr.literalsAll rest

/-- The integer literals of a statement. -/
def Stmt.literals : Stmt → List (Span × Nat)
  | .val _ _ _ init => init.literals
  | .expr value => value.literals

def Stmt.literalsAll : List Stmt → List (Span × Nat)
  | [] => []
  | first :: rest => first.literals ++ Stmt.literalsAll rest

end

mutual

/-- The integer literals of a member, those of its own members included. -/
def Member.literals : Member → List (Span × Nat)
  | .imports _ | .foreign _ => []
  | .val decl => decl.init.literals
  | .func decl => decl.body.literals
  | .container decl => decl.literals
  | .expr _ value => value.literals

def Member.literalsAll : List Member → List (Span × Nat)
  | [] => []
  | first :: rest => first.literals ++ Member.literalsAll rest

/-- The integer literals of a module or class. -/
def Container.literals : Container → List (Span × Nat)
  | .mk _ _ _ _ _ members => Member.literalsAll members

end

/-- The integer literals of a unit. -/
def Program.literals (program : Program) : List (Span × Nat) := program.items.flatMap Container.literals

/-- The integer literals of a part of a unit. -/
def Parser.TopLevel.literals : Parser.TopLevel → List (Span × Nat)
  | .imports _ => []
  | .item decl => decl.literals

variable {tokens : List Token} {literals others : List (Span × Nat)}

/-- The literals are values of number tokens. -/
def FromNumbers (tokens : List Token) (literals : List (Span × Nat)) : Prop :=
  ∀ literal ∈ literals, ∃ token ∈ tokens, token.kind = .number ∧
    literal = (token.span, Lexer.digitsValue token.lexeme.toList)

@[simp]
theorem fromNumbers_nil : FromNumbers tokens [] := fun _ among => by cases among

@[simp]
theorem fromNumbers_append :
    FromNumbers tokens (literals ++ others) ↔ FromNumbers tokens literals ∧ FromNumbers tokens others := by
  simp [FromNumbers, or_imp, forall_and]

/-- A cursor has read a front part of the tokens. -/
def Cursor.Within (c : Cursor) (tokens : List Token) : Prop := c.rest <:+ tokens

namespace Cursor

variable {c d : Cursor}

theorem Within.reaches (within : c.Within tokens) (way : c.Reaches d) : d.Within tokens := way.rest.trans within

theorem Within.follows (within : c.Within tokens) (way : c.Follows d) : d.Within tokens :=
  within.reaches way.reaches

theorem Within.deeper (within : c.Within tokens) : c.deeper.Within tokens := within

theorem Within.atDepth (within : c.Within tokens) (depth : Nat) : (c.atDepth depth).Within tokens := within

/-- The token read next is one of the tokens, unless the input ends. -/
theorem current_mem (within : c.Within tokens) (some : c.kind ≠ .endOfInput) : c.current ∈ tokens := by
  refine within.subset (c.visible_suffix.subset ?_)
  unfold kind current at some
  unfold current
  cases seen : c.visible with
  | nil => simp [seen, c.ends] at some
  | cons token rest => simp

end Cursor

namespace Parser

open Cursor

/-- A path holds no literals of its own. -/
theorem targetRest_literals {target : Expr} {c : Cursor} {r : Extended Expr c} (h : targetRest target c = .ok r) :
    r.value.literals = target.literals := by
  unfold targetRest at h
  split at h
  · next dot =>
    obtain ⟨segment, name, h⟩ := Except.bind_ok.mp h
    have := segment.follows.lt
    have := left_next_le c
    obtain ⟨rest, more, h⟩ := Except.bind_ok.mp h
    cases h
    exact (targetRest_literals more).trans (by rw [Expr.literals])
  · cases h
    rfl
termination_by c.left
decreasing_by all_goals omega

mutual

theorem expr_literals {c : Cursor} {p : Parsed Expr c} (within : c.Within tokens) (h : expr c = .ok p) :
    FromNumbers tokens p.value.literals := by
  rw [expr_eq] at h
  split at h
  · exact condition_literals within h
  · exact binary_literals within h
termination_by 32 * c.left + 20
decreasing_by all_goals omega

theorem condition_literals {c : Cursor} {p : Parsed Expr c} (within : c.Within tokens) (h : condition c = .ok p) :
    FromNumbers tokens p.value.literals := by
  unfold condition at h
  obtain ⟨keyword, word, h⟩ := Except.bind_ok.mp h
  obtain ⟨opening, first, h⟩ := Except.bind_ok.mp h
  have start := keyword.follows.then opening.follows
  have : opening.cursor.deeper.left < c.left := start.lt
  obtain ⟨test, tested, h⟩ := Except.bind_ok.mp h
  obtain ⟨closing, last, h⟩ := Except.bind_ok.mp h
  have inner := (start.closed (test.follows.then closing.follows)).trans
    closing.cursor.shallower.reaches_skipNewlines
  have := inner.lt
  obtain ⟨yes, answered, h⟩ := Except.bind_ok.mp h
  have tests : FromNumbers tokens test.value.literals := expr_literals (within.follows start).deeper tested
  have answers : FromNumbers tokens yes.value.literals := expr_literals (within.follows inner) answered
  simp only at h
  split at h
  · have before := yes.cursor.reaches_skipNewlines.trans yes.cursor.skipNewlines.reaches_next
    have marker := before.trans yes.cursor.skipNewlines.next.reaches_skipNewlines
    have further := (inner.then yes.follows).trans marker
    have := further.lt
    obtain ⟨no, other, h⟩ := Except.bind_ok.mp h
    cases h
    simpa [Expr.literals] using ⟨tests, answers, expr_literals (within.follows further) other⟩
  · cases h
    simpa [Expr.literals] using ⟨tests, answers⟩
termination_by 32 * c.left
decreasing_by all_goals omega

theorem binary_literals {loose : Fin 7} {c : Cursor} {p : Parsed Expr c} (within : c.Within tokens)
    (h : binary loose c = .ok p) : FromNumbers tokens p.value.literals := by
  unfold binary at h
  split at h
  · exact unary_literals within h
  · obtain ⟨left, first, h⟩ := Except.bind_ok.mp h
    have := left.follows.lt
    obtain ⟨whole, more, h⟩ := Except.bind_ok.mp h
    cases h
    show FromNumbers tokens whole.value.literals
    exact binaryRest_literals (within.follows left.follows) (binary_literals within first) more
termination_by 32 * c.left + 4 + loose.val
decreasing_by all_goals subst_vars; dsimp only; omega

theorem binaryRest_literals {tighter : Fin 6} {left : Expr} {c : Cursor} {r : Extended Expr c}
    (within : c.Within tokens) (own : FromNumbers tokens left.literals) (h : binaryRest tighter left c = .ok r) :
    FromNumbers tokens r.value.literals := by
  unfold binaryRest at h
  split at h
  · cases h
    exact own
  · next op found =>
    split at h
    · have mark := follows_next (c := c) (by intro stop; simp [stop, BinaryOp.ofToken?] at found)
      have start := mark.trans c.next.reaches_skipNewlines
      have := start.lt
      obtain ⟨right, operand, h⟩ := Except.bind_ok.mp h
      have := (start.then right.follows).lt
      obtain ⟨whole, more, h⟩ := Except.bind_ok.mp h
      cases h
      have further : FromNumbers tokens right.value.literals := by
        split at operand
        · exact condition_literals (within.follows start) operand
        · exact binary_literals (within.follows start) operand
      show FromNumbers tokens whole.value.literals
      exact binaryRest_literals (within.follows (start.then right.follows))
        (by simpa [Expr.literals] using ⟨own, further⟩) more
    · cases h
      exact own
termination_by 32 * c.left
decreasing_by all_goals omega

theorem unary_literals {c : Cursor} {p : Parsed Expr c} (within : c.Within tokens) (h : unary c = .ok p) :
    FromNumbers tokens p.value.literals := by
  unfold unary at h
  split at h
  · next op found =>
    have mark := follows_next (c := c) (by intro stop; simp [stop, UnaryOp.ofToken?] at found)
    have := mark.lt
    obtain ⟨operand, rest, h⟩ := Except.bind_ok.mp h
    cases h
    simpa only [Expr.literals] using unary_literals (within.follows mark) rest
  · exact postfixed_literals within h
termination_by 32 * c.left + 3
decreasing_by all_goals omega

theorem postfixed_literals {c : Cursor} {p : Parsed Expr c} (within : c.Within tokens) (h : postfixed c = .ok p) :
    FromNumbers tokens p.value.literals := by
  unfold postfixed at h
  obtain ⟨operand, first, h⟩ := Except.bind_ok.mp h
  have := operand.follows.lt
  obtain ⟨whole, more, h⟩ := Except.bind_ok.mp h
  cases h
  show FromNumbers tokens whole.value.literals
  exact postfixRest_literals (within.follows operand.follows) (primary_literals within first) more
termination_by 32 * c.left + 2
decreasing_by all_goals omega

theorem postfixRest_literals {operand : Expr} {c : Cursor} {r : Extended Expr c} (within : c.Within tokens)
    (own : FromNumbers tokens operand.literals) (h : postfixRest operand c = .ok r) :
    FromNumbers tokens r.value.literals := by
  unfold postfixRest at h
  split at h
  · have dot := c.reaches_skipNewlines.trans c.skipNewlines.reaches_next
    obtain ⟨name, named, h⟩ := Except.bind_ok.mp h
    have := (dot.follows name.follows).lt
    obtain ⟨whole, more, h⟩ := Except.bind_ok.mp h
    cases h
    show FromNumbers tokens whole.value.literals
    refine postfixRest_literals (within.follows (dot.follows name.follows)) ?_ more
    simpa only [Expr.literals] using own
  · split at h
    · obtain ⟨args, list, h⟩ := Except.bind_ok.mp h
      have := args.follows.lt
      obtain ⟨whole, more, h⟩ := Except.bind_ok.mp h
      cases h
      show FromNumbers tokens whole.value.literals
      exact postfixRest_literals (within.follows args.follows)
        (by simpa [Expr.literals] using ⟨own, arguments_literals within list⟩) more
    · cases h
      exact own
termination_by 32 * c.left + 1
decreasing_by all_goals omega

theorem primary_literals {c : Cursor} {p : Parsed Expr c} (within : c.Within tokens) (h : primary c = .ok p) :
    FromNumbers tokens p.value.literals := by
  unfold primary at h
  split at h
  · next kind =>
    cases h
    intro literal among
    rw [Expr.literals, List.mem_singleton] at among
    exact ⟨c.current, current_mem within (by simp [kind]), kind, among⟩
  · cases h; simp [Expr.literals]
  · cases h; simp [Expr.literals]
  · cases h; simp [Expr.literals]
  · next kind =>
    have opening := follows_next (c := c) (by simp [kind])
    have : c.next.deeper.left < c.left := opening.lt
    simp only at h
    split at h
    · obtain ⟨closing, last, h⟩ := Except.bind_ok.mp h
      cases h
      simp [Expr.literals]
    · obtain ⟨inner, own, h⟩ := Except.bind_ok.mp h
      obtain ⟨closing, last, h⟩ := Except.bind_ok.mp h
      cases h
      show FromNumbers tokens inner.value.literals
      exact expr_literals (within.follows opening).deeper own
  · exact block_literals within h
  · exact construction_literals within h
  · exact condition_literals within h
  · cases h
  · cases h
termination_by 32 * c.left + 1
decreasing_by all_goals omega

theorem block_literals {c : Cursor} {p : Parsed Expr c} (within : c.Within tokens) (h : block c = .ok p) :
    FromNumbers tokens p.value.literals := by
  unfold block at h
  obtain ⟨opening, first, h⟩ := Except.bind_ok.mp h
  have := opening.follows.lt
  have : (opening.cursor.atDepth 0).skipSeparators.left ≤ opening.cursor.left := left_skipSeparators_le _
  obtain ⟨body, inner, h⟩ := Except.bind_ok.mp h
  obtain ⟨closing, last, h⟩ := Except.bind_ok.mp h
  cases h
  have enclosed := ((within.follows opening.follows).atDepth 0).reaches (reaches_skipSeparators _)
  simpa only [Expr.literals] using statements_literals enclosed inner
termination_by 32 * c.left
decreasing_by all_goals omega

theorem statements_literals {c : Cursor} {r : Extended (List Stmt) c} (within : c.Within tokens)
    (h : statements c = .ok r) : FromNumbers tokens (Stmt.literalsAll r.value) := by
  unfold statements at h
  split at h
  · cases h
    simp [Stmt.literalsAll]
  · split at h
    · cases h
    · obtain ⟨first, own, h⟩ := Except.bind_ok.mp h
      have read : FromNumbers tokens first.value.literals := statement_literals within own
      split at h
      · cases h
        simpa [Stmt.literalsAll] using read
      · split at h
        · have follows := first.follows.trans first.cursor.reaches_skipSeparators
          have := follows.lt
          obtain ⟨rest, more, h⟩ := Except.bind_ok.mp h
          cases h
          simpa [Stmt.literalsAll] using ⟨read, statements_literals (within.follows follows) more⟩
        · cases h
termination_by 32 * c.left + 22
decreasing_by all_goals omega

theorem statement_literals {c : Cursor} {p : Parsed Stmt c} (within : c.Within tokens) (h : statement c = .ok p) :
    FromNumbers tokens p.value.literals := by
  unfold statement at h
  split at h
  · obtain ⟨val, own, h⟩ := Except.bind_ok.mp h
    cases h
    simpa only [Stmt.literals] using valBinding_literals within own
  all_goals first | cases h | skip
  obtain ⟨value, own, h⟩ := Except.bind_ok.mp h
  cases h
  simpa only [Stmt.literals] using expr_literals within own
termination_by 32 * c.left + 21
decreasing_by all_goals omega

theorem valBinding_literals {c : Cursor} {p : Parsed ValBinding c} (within : c.Within tokens)
    (h : valBinding c = .ok p) : FromNumbers tokens p.value.init.literals := by
  unfold valBinding at h
  obtain ⟨keyword, word, h⟩ := Except.bind_ok.mp h
  obtain ⟨name, named, h⟩ := Except.bind_ok.mp h
  obtain ⟨type, ascribed, h⟩ := Except.bind_ok.mp h
  obtain ⟨assign, mark, h⟩ := Except.bind_ok.mp h
  have head := ((keyword.follows.then name.follows).trans type.reaches).then assign.follows
  have start := head.trans assign.cursor.reaches_skipNewlines
  have := start.lt
  obtain ⟨init, value, h⟩ := Except.bind_ok.mp h
  cases h
  exact expr_literals (within.follows start) value
termination_by 32 * c.left
decreasing_by all_goals omega

theorem construction_literals {c : Cursor} {p : Parsed Expr c} (within : c.Within tokens)
    (h : construction c = .ok p) : FromNumbers tokens p.value.literals := by
  unfold construction at h
  obtain ⟨keyword, word, h⟩ := Except.bind_ok.mp h
  obtain ⟨first, named, h⟩ := Except.bind_ok.mp h
  obtain ⟨target, path, h⟩ := Except.bind_ok.mp h
  have head := (keyword.follows.then first.follows).trans target.reaches
  have bare : target.value.literals = [] := by rw [targetRest_literals path, Expr.literals]
  simp only at h
  split at h
  · have := head.lt
    obtain ⟨args, list, h⟩ := Except.bind_ok.mp h
    cases h
    simpa [Expr.literals, bare] using arguments_literals (within.follows head) list
  · cases h
    simp [Expr.literals, Expr.literalsAll, bare]
termination_by 32 * c.left
decreasing_by all_goals omega

theorem arguments_literals {c : Cursor} {p : Parsed (List Expr) c} (within : c.Within tokens)
    (h : arguments c = .ok p) : FromNumbers tokens (Expr.literalsAll p.value) := by
  unfold arguments at h
  obtain ⟨opening, first, h⟩ := Except.bind_ok.mp h
  have : opening.cursor.deeper.left < c.left := opening.follows.lt
  simp only at h
  split at h
  · obtain ⟨closing, last, h⟩ := Except.bind_ok.mp h
    cases h
    simp [Expr.literalsAll]
  · obtain ⟨list, inner, h⟩ := Except.bind_ok.mp h
    obtain ⟨closing, last, h⟩ := Except.bind_ok.mp h
    cases h
    show FromNumbers tokens (Expr.literalsAll list.value)
    exact argumentList_literals (within.follows opening.follows).deeper inner
termination_by 32 * c.left
decreasing_by all_goals omega

theorem argumentList_literals {c : Cursor} {p : Parsed (List Expr) c} (within : c.Within tokens)
    (h : argumentList c = .ok p) : FromNumbers tokens (Expr.literalsAll p.value) := by
  unfold argumentList at h
  obtain ⟨first, own, h⟩ := Except.bind_ok.mp h
  have read : FromNumbers tokens first.value.literals := expr_literals within own
  simp only at h
  split at h
  · next comma =>
    have follows := first.follows.then (follows_next (c := first.cursor) (by simp [comma]))
    have := follows.lt
    obtain ⟨rest, more, h⟩ := Except.bind_ok.mp h
    cases h
    simpa [Expr.literalsAll] using ⟨read, argumentList_literals (within.follows follows) more⟩
  · cases h
    simpa [Expr.literalsAll] using read
termination_by 32 * c.left + 21
decreasing_by all_goals omega

end

theorem defDecl_literals {implicit : Bool} {c : Cursor} {p : Parsed DefDecl c} (within : c.Within tokens)
    (h : defDecl implicit c = .ok p) : FromNumbers tokens p.value.body.literals := by
  unfold defDecl at h
  obtain ⟨keyword, word, h⟩ := Except.bind_ok.mp h
  obtain ⟨name, named, h⟩ := Except.bind_ok.mp h
  obtain ⟨own, list, h⟩ := Except.bind_ok.mp h
  obtain ⟨result, type, h⟩ := Except.bind_ok.mp h
  obtain ⟨assign, mark, h⟩ := Except.bind_ok.mp h
  obtain ⟨body, value, h⟩ := Except.bind_ok.mp h
  cases h
  have head := (((keyword.follows.then name.follows).trans own.reaches).trans result.reaches).then assign.follows
  exact expr_literals (within.follows (head.trans assign.cursor.reaches_skipNewlines)) value

mutual

theorem container_literals {exported : Bool} {kind : ContainerKind} {c : Cursor} {p : Parsed Container c}
    (within : c.Within tokens) (h : container exported kind c = .ok p) : FromNumbers tokens p.value.literals := by
  unfold container at h
  obtain ⟨keyword, word, h⟩ := Except.bind_ok.mp h
  obtain ⟨name, named, h⟩ := Except.bind_ok.mp h
  obtain ⟨own, params, h⟩ := Except.bind_ok.mp h
  simp only at h
  split at h
  · obtain ⟨opening, brace, h⟩ := Except.bind_ok.mp h
    have start := ((keyword.follows.then name.follows).trans own.reaches).then opening.follows
    have := start.lt
    have : (opening.cursor.atDepth 0).skipSeparators.left ≤ opening.cursor.left := left_skipSeparators_le _
    obtain ⟨body, inner, h⟩ := Except.bind_ok.mp h
    obtain ⟨closing, last, h⟩ := Except.bind_ok.mp h
    cases h
    have enclosed := ((within.follows start).atDepth 0).reaches (reaches_skipSeparators _)
    simpa only [Container.literals] using members_literals enclosed inner
  · split at h
    · cases h
    · cases h
      simp [Container.literals, Member.literalsAll]
termination_by 4 * c.left
decreasing_by all_goals omega

theorem members_literals {c : Cursor} {r : Extended (List Member) c} (within : c.Within tokens)
    (h : members c = .ok r) : FromNumbers tokens (Member.literalsAll r.value) := by
  unfold members at h
  split at h
  · cases h
    simp [Member.literalsAll]
  · split at h
    · cases h
    · obtain ⟨first, own, h⟩ := Except.bind_ok.mp h
      have read : FromNumbers tokens first.value.literals := member_literals within own
      split at h
      · cases h
        simpa [Member.literalsAll] using read
      · split at h
        · have follows := first.follows.trans first.cursor.reaches_skipSeparators
          have := follows.lt
          obtain ⟨rest, more, h⟩ := Except.bind_ok.mp h
          cases h
          simpa [Member.literalsAll] using ⟨read, members_literals (within.follows follows) more⟩
        · cases h
termination_by 4 * c.left + 2
decreasing_by all_goals omega

theorem member_literals {c : Cursor} {p : Parsed Member c} (within : c.Within tokens) (h : member c = .ok p) :
    FromNumbers tokens p.value.literals := by
  have := (modifiers {} c).reaches.le
  have within := within.reaches (modifiers {} c).reaches
  have way := member_at h
  generalize p.value = value, p.cursor = d at way
  cases way with
  | imports word read | foreign outside read => simp [Member.literals]
  | val word bare read named ascribed defined =>
    simpa only [Member.literals, defined] using valBinding_literals within read
  | func word bare read => simpa only [Member.literals] using defDecl_literals within read
  | container word bare read => simpa only [Member.literals] using container_literals within read
  | expr bare read => simpa only [Member.literals] using expr_literals within read
termination_by 4 * c.left + 1
decreasing_by all_goals omega

end

theorem topLevel_literals {c : Cursor} {p : Parsed TopLevel c} (within : c.Within tokens)
    (h : topLevel c = .ok p) :
    FromNumbers tokens p.value.literals := by
  unfold topLevel at h
  split at h
  · obtain ⟨decl, own, h⟩ := Except.bind_ok.mp h
    cases h
    simp [TopLevel.literals]
  · have start : (if (c.kind == .keyword .kwExport) = true then c.next else c).Within tokens := by
      split
      · exact within.reaches c.reaches_next
      · exact within
    simp only at h
    split at h
    · obtain ⟨decl, own, h⟩ := Except.bind_ok.mp h
      cases h
      simpa only [TopLevel.literals] using container_literals start own
    · obtain ⟨decl, own, h⟩ := Except.bind_ok.mp h
      cases h
      simpa only [TopLevel.literals] using container_literals start own
    · cases h

theorem topLevels_literals {c : Cursor} {parts : List TopLevel} (within : c.Within tokens)
    (h : topLevels c = .ok parts) : FromNumbers tokens (parts.flatMap TopLevel.literals) := by
  unfold topLevels at h
  split at h
  · cases h
    simp
  · obtain ⟨first, own, h⟩ := Except.bind_ok.mp h
    have read : FromNumbers tokens first.value.literals := topLevel_literals within own
    split at h
    · have follows := first.follows.trans first.cursor.reaches_skipSeparators
      have := follows.lt
      obtain ⟨rest, more, h⟩ := Except.bind_ok.mp h
      cases h
      simpa using ⟨read, topLevels_literals (within.follows follows) more⟩
    · cases h
termination_by c.left
decreasing_by all_goals omega

end Parser

theorem FromNumbers.mono {others : List Token} (read : FromNumbers others literals) (fewer : others ⊆ tokens) :
    FromNumbers tokens literals := fun literal among =>
  let ⟨token, listed, own⟩ := read literal among
  ⟨token, fewer listed, own⟩

/-- A cursor at the start of a token list has nothing to read but its tokens. -/
theorem Cursor.rest_ofTokens (tokens : List Token) : (Cursor.ofTokens tokens).rest ⊆ tokens := by
  unfold Cursor.ofTokens
  split
  · simp
  · split
    · exact List.dropLast_subset tokens
    · simp

theorem parseProgram_literals {program : Program} (h : parseProgram tokens = .ok program) :
    FromNumbers tokens program.literals := by
  unfold parseProgram at h
  obtain ⟨parts, read, h⟩ := Except.bind_ok.mp h
  cases h
  have within : (Cursor.ofTokens tokens).skipSeparators.Within (Cursor.ofTokens tokens).rest :=
    List.dropWhile_suffix _
  intro literal among
  obtain ⟨decl, listed, own⟩ := List.mem_flatMap.mp among
  obtain ⟨part, held, item⟩ := List.mem_filterMap.mp listed
  refine ((Parser.topLevels_literals within read).mono (Cursor.rest_ofTokens tokens)) literal ?_
  refine List.mem_flatMap.mpr ⟨part, held, ?_⟩
  cases part with
  | imports _ => cases item
  | item _ =>
    cases item
    exact own

theorem parseExpr_literals {value : Expr} (h : parseExpr tokens = .ok value) :
    FromNumbers tokens value.literals := by
  unfold parseExpr at h
  obtain ⟨read, own, h⟩ := Except.bind_ok.mp h
  have within : (Cursor.ofTokens tokens).skipSeparators.Within (Cursor.ofTokens tokens).rest :=
    List.dropWhile_suffix _
  simp only at h
  split at h <;> cases h
  exact (Parser.expr_literals within own).mono (Cursor.rest_ofTokens tokens)

namespace Lexer

/-- A lexeme that is a number is a numeral. -/
theorem lexeme_numeral {first : Char} {rest : List Char} {found : Lexeme} (read : lexeme first rest = .ok found)
    (kind : found.kind = .number) : Numeral found.text.toList := by
  unfold lexeme at read
  split at read
  · split at read <;> cases read
    cases kind
  · split at read
    · cases read
      dsimp only [word] at kind
      cases known : Keyword.ofText? (String.ofList (first :: rest.takeWhile Ascii.isWord)) <;>
        (rw [known] at kind; cases kind)
    · split at read
      next digit => exact number_numeral digit read
      next =>
        obtain ⟨mark, own⟩ := operator_kind read
        rw [own] at kind
        cases kind

/-- What is lexed as a number is a numeral. -/
theorem Lexed.numeral {place : Position} {breakable : Bool} {text : List Char}
    (lexed : Lexed place breakable text tokens) :
    ∀ token ∈ tokens, token.kind = .number → Numeral token.lexeme.toList := by
  induction lexed with
  | nil =>
    intro token among number
    obtain rfl := List.mem_singleton.mp among
    cases number
  | line others ih =>
    rintro token (_ | ⟨_, among⟩) number
    · cases number
    · exact ih token among number
  | emptyLine others ih | blank space others ih | comment slash within stops others ih => exact ih
  | lexeme opens kind length same others ih =>
    rintro token (_ | ⟨_, among⟩) number
    · exact lexeme_numeral (same _ fun _ next => .inr next) number
    · exact ih token among number

end Lexer

open Lexer

/-- The word that a number token is read as, which is what is written under it. -/
structure Token.Reads (token : Token) (source : String) (word : Int64) : Prop where
  converted : toWord? token.lexeme.toList = some word
  written : word.toInt = decimal (token.span.covered source.toList)
  node : ∀ c : Cursor, c.current = token →
    ∃ p, Parser.primary c = .ok p ∧ p.value = .int token.span word.toInt.toNat

/-- An integer literal that holds what is written at its place, a number that is a word. -/
structure LiteralHolds (source : String) (tokens : List Token) (literal : Span × Nat) : Prop where
  token : ∃ token ∈ tokens, token.kind = .number ∧ token.span = literal.1
  written : literal.2 = decimal (literal.1.covered source.toList)
  word : literal.2 ≤ 2 ^ 63 - 1

variable {source : String}

theorem token_reads (lexed : tokenize source = .ok tokens) {token : Token} (among : token ∈ tokens)
    (number : token.kind = .number) : ∃ word, token.Reads source word := by
  obtain ⟨word, converted, value⟩ := (Lexed.numeral (lexed_of_tokenize lexed) token among number).hasWord
  have spelled := ((tokenize_placed lexed).stands token among).spelled
  rw [number] at spelled
  have under : token.lexeme.toList = token.span.covered source.toList := spelled
  refine ⟨word, converted, under ▸ value, ?_⟩
  rintro c rfl
  obtain ⟨p, read, node, -⟩ := Parser.primary_atom (c := c) (by rw [Parser.atom?, number])
  refine ⟨p, read, node.trans ?_⟩
  rw [value, digitsValue_eq_decimal, Int.toNat_natCast]

theorem FromNumbers.holds (lexed : tokenize source = .ok tokens) (read : FromNumbers tokens literals) :
    ∀ literal ∈ literals, LiteralHolds source tokens literal := by
  intro literal among
  obtain ⟨token, listed, number, rfl⟩ := read literal among
  have numeral := Lexed.numeral (lexed_of_tokenize lexed) token listed number
  have spelled := ((tokenize_placed lexed).stands token listed).spelled
  rw [number] at spelled
  have under : token.lexeme.toList = token.span.covered source.toList := spelled
  refine ⟨⟨token, listed, number, rfl⟩, ?_, ?_⟩
  · rw [digitsValue_eq_decimal, under]
  · exact digitsValue_eq_decimal _ ▸ numeral.small

/-- Integer literals hold the number written. A run of digits is lexed exactly if no letter or `_` follows it
and it has at most nineteen digits of a number that is a word; every number token has a word that it is read
as, the number under it; and the integer literals of a tree are the numbers written at their places. -/
theorem integer_literals_exact :
    (∀ (first : Char) (run rest : List Char), (∀ c ∈ first :: run, c.isDigit = true) →
      (∀ c ∈ rest.head?, c.isDigit = false) →
      ((∃ found, number first (run ++ rest) = .ok found) ↔ (∀ c ∈ rest.head?, c.isAlpha = false ∧ c ≠ '_') ∧
        (first :: run).length ≤ 19 ∧ decimal (first :: run) ≤ 2 ^ 63 - 1)) ∧
    ∀ source tokens, tokenize source = .ok tokens →
      (∀ token ∈ tokens, token.kind = .number → ∃ word, token.Reads source word) ∧
      (∀ program, parseProgram tokens = .ok program →
        ∀ literal ∈ program.literals, LiteralHolds source tokens literal) ∧
      (∀ value, parseExpr tokens = .ok value →
        ∀ literal ∈ value.literals, LiteralHolds source tokens literal) := by
  constructor
  · intro first run rest digits stops
    constructor
    · rintro ⟨found, read⟩
      obtain ⟨free, numeral, -⟩ := (number_eq_ok_iff digits stops).mp read
      exact ⟨free, numeral.few, numeral.small⟩
    · rintro ⟨free, few, small⟩
      have numeral : Numeral (first :: run) := ⟨List.cons_ne_nil _ _, digits, few, small⟩
      exact ⟨_, (number_eq_ok_iff digits stops).mpr ⟨free, numeral, rfl⟩⟩
  · intro source tokens lexed
    exact ⟨fun token among number => token_reads lexed among number,
      fun program parsed => (parseProgram_literals parsed).holds lexed,
      fun value parsed => (parseExpr_literals parsed).holds lexed⟩

/-- The numbers in a source that is an expression. -/
def numbersIn (source : String) : List Nat :=
  match tokenize source with
  | .ok tokens =>
    match parseExpr tokens with
    | .ok value => value.literals.map Prod.snd
    | .error _ => []
  | .error _ => []

/-- Zeros in front of a number make no difference. -/
theorem integer_literals_exact_of_zeros : ∃ tokens value, tokenize "1 + 0042" = .ok tokens ∧
    parseExpr tokens = .ok value ∧ value.literals.map Prod.snd = [1, 42] ∧
      ∀ literal ∈ value.literals, LiteralHolds "1 + 0042" tokens literal := by
  have run : numbersIn "1 + 0042" = [1, 42] := by decide +kernel
  unfold numbersIn at run
  split at run
  next tokens lexed =>
    split at run
    next value parsed =>
      exact ⟨tokens, value, lexed, parsed, run, (integer_literals_exact.2 _ _ lexed).2.2 _ parsed⟩
    next => cases run
  next => cases run

end ScriptShell
