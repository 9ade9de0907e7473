import ScriptShell.Proofs.Containment.Phrases

/-!
How the parser moves. A cursor stands at an index of a token vector that ends the input. Reading a
construct there either moves the index forward inside the vector and keeps the depth, or fails at a
token of the vector from that index on.

That a reading moves on is part of its type. Where it fails is proved function by function: a
reading blames only what lies ahead of it, and what lies ahead of a cursor behind it does too.
-/
namespace ScriptShell

namespace Cursor

variable {c d e : Cursor}

/-- The tokens from a cursor to the end of the input. -/
def ahead (c : Cursor) : List Token := c.rest ++ [c.final]

/-- What lies ahead of the second cursor lies ahead of the first one, whatever their depths. -/
def Onward (c d : Cursor) : Prop := d.ahead <:+ c.ahead

theorem Reaches.onward (h : c.Reaches d) : c.Onward d := by
  obtain ⟨⟨front, split⟩, final, -⟩ := h
  exact ⟨front, by rw [ahead, ahead, ← split, final, List.append_assoc]⟩

theorem Follows.onward (h : c.Follows d) : c.Onward d := h.reaches.onward

theorem Onward.refl (c : Cursor) : c.Onward c := List.suffix_refl _

theorem Onward.trans (h : c.Onward d) (k : d.Onward e) : c.Onward e := List.IsSuffix.trans k h

theorem current_ahead (c : Cursor) : c.current ∈ c.ahead := by
  rw [current, ahead, List.mem_append, List.mem_singleton]
  cases seen : c.visible with
  | nil => exact .inr rfl
  | cons token rest => exact .inl (c.visible_suffix.subset (by simp [seen]))

/-- If the reading fails, it does so at a token that lies ahead. -/
structure Blames {α : Type} (c : Cursor) (read : Except SyntaxError α) : Prop where
  located : ∀ error, read = .error error → ∃ token ∈ c.ahead, error = token.fail error.cause

namespace Blames

variable {α β : Type} {read : Except SyntaxError α} {rest : α → Except SyntaxError β}

theorem ok (value : α) : c.Blames (.ok value) :=
  ⟨fun _ failed => by cases failed⟩

theorem token {token : Token} {cause : SyntaxCause} (h : token ∈ c.ahead) :
    c.Blames (.error (token.fail cause) : Except SyntaxError α) := by
  refine ⟨fun error failed => ?_⟩
  cases failed
  exact ⟨token, h, rfl⟩

theorem fail {cause : SyntaxCause} (h : c.Onward d) :
    c.Blames (.error (d.fail cause) : Except SyntaxError α) :=
  token (h.subset d.current_ahead)

theorem onward (h : d.Blames read) (k : c.Onward d) : c.Blames read := by
  refine ⟨fun error failed => ?_⟩
  obtain ⟨token, mem, own⟩ := h.located error failed
  exact ⟨token, k.subset mem, own⟩

/-- One reading after another. -/
theorem bind (h : c.Blames read) (k : ∀ value, read = .ok value → c.Blames (rest value)) :
    c.Blames (read >>= rest) := by
  refine ⟨fun error failed => ?_⟩
  cases done : read with
  | error earlier =>
    rw [done] at failed
    cases failed
    exact h.located error done
  | ok value =>
    rw [done] at failed
    exact (k value done).located error failed

end Blames

theorem expect_blames (kind : TokenKind) (what : String) (c : Cursor)
    (known : kind ≠ .endOfInput) : c.Blames (c.expect kind what known) := by
  unfold expect
  split
  · exact .ok _
  · exact .fail (.refl c)

theorem expectName_blames (what : String) (c : Cursor) : c.Blames (c.expectName what) :=
  expect_blames ..

theorem expectMark_blames (mark : Punct) (what : String) (c : Cursor) :
    c.Blames (c.expectMark mark what) :=
  expect_blames ..

theorem expectWord_blames (word : Keyword) (what : String) (c : Cursor) :
    c.Blames (c.expectWord word what) :=
  expect_blames ..

end Cursor

namespace Parser

open Cursor

theorem pathRest_blames (what : String) (c : Cursor) : c.Blames (pathRest what c) := by
  unfold pathRest
  split
  · next dot =>
    have step := follows_next (c := c) (by simp [dot])
    refine .bind ((expectName_blames ..).onward step.onward) fun segment _ => ?_
    have follows := step.then segment.follows
    have := follows.lt
    exact .bind ((pathRest_blames what segment.cursor).onward follows.onward) fun _ _ => .ok _
  · exact .ok _
termination_by c.left
decreasing_by all_goals omega

theorem typeRef_blames (c : Cursor) : c.Blames (typeRef c) :=
  .bind (expectName_blames ..) fun first _ =>
    .bind ((pathRest_blames ..).onward first.follows.onward) fun _ _ => .ok _

theorem paramList_blames (c : Cursor) : c.Blames (paramList c) := by
  unfold paramList
  refine .bind (expectName_blames ..) fun name _ => ?_
  refine .bind ((expectMark_blames ..).onward name.follows.onward) fun colon _ => ?_
  have typed := name.follows.then colon.follows
  refine .bind ((typeRef_blames _).onward typed.onward) fun type _ => ?_
  have follows := typed.then type.follows
  dsimp only
  split
  · next comma =>
    have more := follows.then (follows_next (c := type.cursor) (by simp [comma]))
    have := more.lt
    exact .bind ((paramList_blames type.cursor.next).onward more.onward) fun _ _ => .ok _
  · exact .ok _
termination_by c.left
decreasing_by all_goals omega

theorem params_blames (c : Cursor) : c.Blames (params c) := by
  refine .bind (expectMark_blames ..) fun opening _ => ?_
  have inside : c.Onward opening.cursor.deeper := opening.follows.onward
  split
  · exact .bind ((expectMark_blames ..).onward inside) fun _ _ => .ok _
  · refine .bind ((paramList_blames _).onward inside) fun list _ => ?_
    exact .bind ((expectMark_blames ..).onward (inside.trans list.follows.onward)) fun _ _ => .ok _

theorem ascription_blames (c : Cursor) : c.Blames (ascription c) := by
  unfold ascription
  split
  · exact .bind ((typeRef_blames _).onward c.reaches_next.onward) fun _ _ => .ok _
  · exact .ok _

theorem targetRest_blames (target : Expr) (c : Cursor) : c.Blames (targetRest target c) := by
  unfold targetRest
  split
  · next dot =>
    have step := follows_next (c := c) (by simp [dot])
    refine .bind ((expectName_blames ..).onward step.onward) fun segment _ => ?_
    have follows := step.then segment.follows
    have := follows.lt
    exact .bind ((targetRest_blames _ segment.cursor).onward follows.onward) fun _ _ => .ok _
  · exact .ok _
termination_by c.left
decreasing_by all_goals omega

mutual

theorem expr_blames (c : Cursor) : c.Blames (expr c) := by
  rw [expr_eq]
  split
  · exact condition_blames c
  · exact binary_blames _ c
termination_by 32 * c.left + 20
decreasing_by all_goals omega

theorem condition_blames (c : Cursor) : c.Blames (condition c) := by
  unfold condition
  refine .bind (expectWord_blames ..) fun keyword _ => ?_
  refine .bind ((expectMark_blames ..).onward keyword.follows.onward) fun opening _ => ?_
  have start := keyword.follows.then opening.follows
  have : opening.cursor.deeper.left < c.left := start.lt
  have inside : c.Onward opening.cursor.deeper := start.onward
  refine .bind ((expr_blames opening.cursor.deeper).onward inside) fun test _ => ?_
  refine .bind ((expectMark_blames ..).onward (inside.trans test.follows.onward))
    fun closing _ => ?_
  have head := start.closed (test.follows.then closing.follows)
  have inner := head.trans closing.cursor.shallower.reaches_skipNewlines
  have := inner.lt
  refine .bind ((expr_blames closing.cursor.shallower.skipNewlines).onward inner.onward)
    fun yes _ => ?_
  have body := inner.then yes.follows
  dsimp only
  split
  · have before := yes.cursor.reaches_skipNewlines.trans yes.cursor.skipNewlines.reaches_next
    have marker := before.trans yes.cursor.skipNewlines.next.reaches_skipNewlines
    have := (body.trans marker).lt
    exact .bind ((expr_blames yes.cursor.skipNewlines.next.skipNewlines).onward
      (body.trans marker).onward) fun _ _ => .ok _
  · exact .ok _
termination_by 32 * c.left
decreasing_by all_goals omega

theorem binary_blames (loose : Fin 7) (c : Cursor) : c.Blames (binary loose c) := by
  unfold binary
  split
  · exact unary_blames c
  · next tighter bound =>
    refine .bind (binary_blames ⟨tighter, by omega⟩ c) fun left _ => ?_
    have := left.follows.lt
    exact .bind ((binaryRest_blames ⟨tighter, by omega⟩ left.value left.cursor).onward
      left.follows.onward) fun _ _ => .ok _
termination_by 32 * c.left + 4 + loose.val
decreasing_by all_goals subst_vars; dsimp only; omega

theorem binaryRest_blames (tighter : Fin 6) (left : Expr) (c : Cursor) :
    c.Blames (binaryRest tighter left c) := by
  unfold binaryRest
  split
  · exact .ok _
  · next op found =>
    split
    · have mark := follows_next (c := c) (by intro stop; simp [stop, BinaryOp.ofToken?] at found)
      have start := mark.trans c.next.reaches_skipNewlines
      have := start.lt
      have operand : c.next.skipNewlines.Blames (if c.next.skipNewlines.kind = .keyword .kwIf
          then condition c.next.skipNewlines
          else binary ⟨tighter.val, by omega⟩ c.next.skipNewlines) := by
        split
        · exact condition_blames _
        · exact binary_blames _ _
      refine .bind (operand.onward start.onward) fun right _ => ?_
      have follows := start.then right.follows
      have := follows.lt
      exact .bind ((binaryRest_blames tighter _ right.cursor).onward follows.onward)
        fun _ _ => .ok _
    · exact .ok _
termination_by 32 * c.left
decreasing_by all_goals omega

theorem unary_blames (c : Cursor) : c.Blames (unary c) := by
  unfold unary
  split
  · next op found =>
    have mark := follows_next (c := c) (by intro stop; simp [stop, UnaryOp.ofToken?] at found)
    have := mark.lt
    exact .bind ((unary_blames c.next).onward mark.onward) fun _ _ => .ok _
  · exact postfixed_blames c
termination_by 32 * c.left + 3
decreasing_by all_goals omega

theorem postfixed_blames (c : Cursor) : c.Blames (postfixed c) := by
  unfold postfixed
  refine .bind (primary_blames c) fun operand _ => ?_
  have := operand.follows.lt
  exact .bind ((postfixRest_blames operand.value operand.cursor).onward operand.follows.onward)
    fun _ _ => .ok _
termination_by 32 * c.left + 2
decreasing_by all_goals omega

theorem postfixRest_blames (operand : Expr) (c : Cursor) : c.Blames (postfixRest operand c) := by
  unfold postfixRest
  split
  · have dot := c.reaches_skipNewlines.trans c.skipNewlines.reaches_next
    refine .bind ((expectName_blames ..).onward dot.onward) fun name _ => ?_
    have follows := dot.follows name.follows
    have := follows.lt
    exact .bind ((postfixRest_blames _ name.cursor).onward follows.onward) fun _ _ => .ok _
  · split
    · refine .bind (arguments_blames c) fun args _ => ?_
      have := args.follows.lt
      exact .bind ((postfixRest_blames _ args.cursor).onward args.follows.onward) fun _ _ => .ok _
    · exact .ok _
termination_by 32 * c.left + 1
decreasing_by all_goals omega

theorem primary_blames (c : Cursor) : c.Blames (primary c) := by
  unfold primary
  split
  all_goals first | exact .ok _ | skip
  · next paren =>
    have opening := follows_next (c := c) (by simp [paren])
    have : c.next.deeper.left < c.left := opening.lt
    have inside : c.Onward c.next.deeper := opening.onward
    dsimp only
    split
    · exact .bind ((expectMark_blames ..).onward inside) fun _ _ => .ok _
    · refine .bind ((expr_blames c.next.deeper).onward inside) fun inner _ => ?_
      exact .bind ((expectMark_blames ..).onward (inside.trans inner.follows.onward))
        fun _ _ => .ok _
  · exact block_blames c
  · exact construction_blames c
  · exact condition_blames c
  · exact .fail (.refl c)
  · exact .fail (.refl c)
termination_by 32 * c.left + 1
decreasing_by all_goals omega

theorem block_blames (c : Cursor) : c.Blames (block c) := by
  unfold block
  refine .bind (expectMark_blames ..) fun opening _ => ?_
  have := opening.follows.lt
  have : (opening.cursor.atDepth 0).skipSeparators.left ≤ opening.cursor.left :=
    left_skipSeparators_le _
  have inside : c.Onward (opening.cursor.atDepth 0).skipSeparators :=
    opening.follows.onward.trans (opening.cursor.atDepth 0).reaches_skipSeparators.onward
  refine .bind ((statements_blames _).onward inside) fun body _ => ?_
  have behind : c.Onward (body.cursor.atDepth c.depth) := inside.trans body.reaches.onward
  exact .bind ((expectMark_blames ..).onward behind) fun _ _ => .ok _
termination_by 32 * c.left
decreasing_by all_goals omega

theorem statements_blames (c : Cursor) : c.Blames (statements c) := by
  unfold statements
  split
  · exact .ok _
  · split
    · exact .fail (.refl c)
    · refine .bind (statement_blames c) fun first _ => ?_
      split
      · exact .ok _
      · split
        · have follows := first.follows.trans first.cursor.reaches_skipSeparators
          have := follows.lt
          exact .bind ((statements_blames first.cursor.skipSeparators).onward follows.onward)
            fun _ _ => .ok _
        · exact .fail first.follows.onward
termination_by 32 * c.left + 22
decreasing_by all_goals omega

theorem statement_blames (c : Cursor) : c.Blames (statement c) := by
  unfold statement
  split
  · exact .bind (valBinding_blames c) fun _ _ => .ok _
  all_goals first | exact .fail (.refl c) | skip
  exact .bind (expr_blames c) fun _ _ => .ok _
termination_by 32 * c.left + 21
decreasing_by all_goals omega

theorem valBinding_blames (c : Cursor) : c.Blames (valBinding c) := by
  unfold valBinding
  refine .bind (expectWord_blames ..) fun keyword _ => ?_
  refine .bind ((expectName_blames ..).onward keyword.follows.onward) fun name _ => ?_
  have named := keyword.follows.then name.follows
  refine .bind ((ascription_blames _).onward named.onward) fun type _ => ?_
  have typed := named.trans type.reaches
  refine .bind ((expectMark_blames ..).onward typed.onward) fun assign _ => ?_
  have start := (typed.then assign.follows).trans assign.cursor.reaches_skipNewlines
  have := start.lt
  exact .bind ((expr_blames assign.cursor.skipNewlines).onward start.onward) fun _ _ => .ok _
termination_by 32 * c.left
decreasing_by all_goals omega

theorem construction_blames (c : Cursor) : c.Blames (construction c) := by
  unfold construction
  refine .bind (expectWord_blames ..) fun keyword _ => ?_
  refine .bind ((expectName_blames ..).onward keyword.follows.onward) fun first _ => ?_
  have named := keyword.follows.then first.follows
  refine .bind ((targetRest_blames ..).onward named.onward) fun target _ => ?_
  have head := named.trans target.reaches
  dsimp only
  split
  · have := head.lt
    exact .bind ((arguments_blames target.cursor).onward head.onward) fun _ _ => .ok _
  · exact .ok _
termination_by 32 * c.left
decreasing_by all_goals omega

theorem arguments_blames (c : Cursor) : c.Blames (arguments c) := by
  unfold arguments
  refine .bind (expectMark_blames ..) fun opening _ => ?_
  have : opening.cursor.deeper.left < c.left := opening.follows.lt
  have inside : c.Onward opening.cursor.deeper := opening.follows.onward
  dsimp only
  split
  · exact .bind ((expectMark_blames ..).onward inside) fun _ _ => .ok _
  · refine .bind ((argumentList_blames opening.cursor.deeper).onward inside) fun list _ => ?_
    exact .bind ((expectMark_blames ..).onward (inside.trans list.follows.onward)) fun _ _ => .ok _
termination_by 32 * c.left
decreasing_by all_goals omega

theorem argumentList_blames (c : Cursor) : c.Blames (argumentList c) := by
  unfold argumentList
  refine .bind (expr_blames c) fun first _ => ?_
  dsimp only
  split
  · next comma =>
    have follows := first.follows.then (follows_next (c := first.cursor) (by simp [comma]))
    have := follows.lt
    exact .bind ((argumentList_blames first.cursor.next).onward follows.onward) fun _ _ => .ok _
  · exact .ok _
termination_by 32 * c.left + 21
decreasing_by all_goals omega

end

section Imports

theorem selector_blames (name : String) (c : Cursor) : c.Blames (selector name c) := by
  unfold selector
  split
  · exact .ok _
  · split
    · have arrow := c.reaches_next.trans c.next.reaches_skipNewlines
      exact .bind ((expectName_blames ..).onward arrow.onward) fun _ _ => .ok _
    · exact .ok _

theorem selectorList_blames (c : Cursor) : c.Blames (selectorList c) := by
  unfold selectorList
  refine .bind (expectName_blames ..) fun name _ => ?_
  have named := name.follows.trans name.cursor.reaches_skipNewlines
  refine .bind ((selector_blames ..).onward named.onward) fun own _ => ?_
  have follows := (named.trans own.reaches).trans own.cursor.reaches_skipNewlines
  dsimp only
  split
  · have comma := own.cursor.skipNewlines.reaches_next
    have more := follows.trans (comma.trans own.cursor.skipNewlines.next.reaches_skipNewlines)
    have := more.lt
    exact .bind ((selectorList_blames own.cursor.skipNewlines.next.skipNewlines).onward more.onward)
      fun _ _ => .ok _
  · exact .ok _
termination_by c.left
decreasing_by all_goals omega

theorem importRest_blames (c : Cursor) : c.Blames (importRest c) := by
  unfold importRest
  split
  · have dot := c.reaches_next
    dsimp only
    split
    · have start := (dot.trans c.next.reaches_next).trans c.next.next.reaches_skipNewlines
      refine .bind ((selectorList_blames _).onward start.onward) fun list _ => ?_
      have front := start.trans list.follows.reaches
      exact .bind ((expectMark_blames ..).onward front.onward) fun _ _ => .ok _
    · refine .bind ((expectName_blames ..).onward dot.onward) fun segment _ => ?_
      have follows := dot.follows segment.follows
      split
      · exact .ok _
      · have := follows.lt
        exact .bind ((importRest_blames segment.cursor).onward follows.onward) fun _ _ => .ok _
  · exact .ok _
termination_by c.left
decreasing_by all_goals omega

theorem importDecl_blames (c : Cursor) : c.Blames (importDecl c) := by
  unfold importDecl
  refine .bind (expectWord_blames ..) fun keyword word => ?_
  -- what is no import is reported at its keyword
  have start : keyword.value ∈ c.ahead := by
    rw [(expectWord_ok word).2.1]
    exact c.current_ahead
  refine .bind ((expectName_blames ..).onward keyword.follows.onward) fun first _ => ?_
  dsimp only
  split
  · exact .token start
  · have named := keyword.follows.then first.follows
    refine .bind ((importRest_blames _).onward named.onward) fun rest _ => ?_
    split
    · exact .ok _
    · split
      · exact .token start
      · exact .ok _

end Imports

section Members

theorem foreignDecl_blames (c : Cursor) : c.Blames (foreignDecl c) := by
  unfold foreignDecl
  refine .bind (expectWord_blames ..) fun keyword _ => ?_
  refine .bind ((expectName_blames ..).onward keyword.follows.onward) fun name _ => ?_
  have named := keyword.follows.then name.follows
  refine .bind ((params_blames _).onward named.onward) fun list _ => ?_
  have listed := named.then list.follows
  refine .bind ((expectMark_blames ..).onward listed.onward) fun colon _ => ?_
  exact .bind ((typeRef_blames _).onward (listed.then colon.follows).onward) fun _ _ => .ok _

theorem optionalParams_blames (c : Cursor) : c.Blames (optionalParams c) := by
  unfold optionalParams
  split
  · exact .bind (params_blames c) fun _ _ => .ok _
  · exact .ok _

theorem defDecl_blames (implicit : Bool) (c : Cursor) : c.Blames (defDecl implicit c) := by
  unfold defDecl
  refine .bind (expectWord_blames ..) fun keyword _ => ?_
  refine .bind ((expectName_blames ..).onward keyword.follows.onward) fun name _ => ?_
  have named := keyword.follows.then name.follows
  refine .bind ((optionalParams_blames _).onward named.onward) fun list _ => ?_
  have listed := named.trans list.reaches
  refine .bind ((ascription_blames _).onward listed.onward) fun result _ => ?_
  have typed := listed.trans result.reaches
  refine .bind ((expectMark_blames ..).onward typed.onward) fun assign _ => ?_
  have start := (typed.then assign.follows).trans assign.cursor.reaches_skipNewlines
  exact .bind ((expr_blames _).onward start.onward) fun _ _ => .ok _

mutual

theorem container_blames (exported : Bool) (kind : ContainerKind) (c : Cursor) :
    c.Blames (container exported kind c) := by
  unfold container
  refine .bind (by cases kind <;> exact expectWord_blames ..) fun keyword _ => ?_
  refine .bind ((expectName_blames ..).onward keyword.follows.onward) fun name _ => ?_
  have head := keyword.follows.then name.follows
  refine .bind ?_ fun own _ => ?_
  · split
    · exact .bind ((optionalParams_blames _).onward head.onward) fun _ _ => .ok _
    · exact .ok _
  have start := head.trans own.reaches
  dsimp only
  split
  · refine .bind ((expectMark_blames ..).onward start.onward) fun opening _ => ?_
    have inner := start.then opening.follows
    have := inner.lt
    have : (opening.cursor.atDepth 0).skipSeparators.left ≤ opening.cursor.left :=
      left_skipSeparators_le _
    have inside : c.Onward (opening.cursor.atDepth 0).skipSeparators :=
      inner.onward.trans (opening.cursor.atDepth 0).reaches_skipSeparators.onward
    refine .bind ((members_blames _).onward inside) fun body _ => ?_
    have behind : c.Onward (body.cursor.atDepth c.depth) := inside.trans body.reaches.onward
    exact .bind ((expectMark_blames ..).onward behind) fun _ _ => .ok _
  · split
    · exact .fail start.onward
    · exact .ok _
termination_by 4 * c.left
decreasing_by all_goals omega

theorem members_blames (c : Cursor) : c.Blames (members c) := by
  unfold members
  split
  · exact .ok _
  · split
    · exact .fail (.refl c)
    · refine .bind (member_blames c) fun first _ => ?_
      split
      · exact .ok _
      · split
        · have follows := first.follows.trans first.cursor.reaches_skipSeparators
          have := follows.lt
          exact .bind ((members_blames first.cursor.skipSeparators).onward follows.onward)
            fun _ _ => .ok _
        · exact .fail first.follows.onward
termination_by 4 * c.left + 2
decreasing_by all_goals omega

theorem member_blames (c : Cursor) : c.Blames (member c) := by
  unfold member
  split
  · exact .bind (importDecl_blames c) fun _ _ => .ok _
  · split
    · exact .fail (.refl c)
    · obtain ⟨own, start, reaches⟩ := modifiers {} c
      have := reaches.le
      have front := reaches.onward
      dsimp only
      split
      · split
        · exact .fail (.refl c)
        · split
          · exact .fail (.refl c)
          · exact .bind ((valBinding_blames start).onward front) fun _ _ => .ok _
      · split
        · exact .fail (.refl c)
        · split
          · split
            · exact .fail (.refl c)
            · exact .bind ((foreignDecl_blames start).onward front) fun _ _ => .ok _
          · exact .bind ((defDecl_blames _ start).onward front) fun _ _ => .ok _
      · split
        · exact .bind ((container_blames false .classKind start).onward front) fun _ _ => .ok _
        · exact .fail (.refl c)
      · split
        · exact .bind ((container_blames false .moduleKind start).onward front) fun _ _ => .ok _
        · exact .fail (.refl c)
      · split
        · exact .bind ((expr_blames start).onward front) fun _ _ => .ok _
        · exact .fail front
termination_by 4 * c.left + 1
decreasing_by all_goals omega

end

theorem topLevel_blames (c : Cursor) : c.Blames (topLevel c) := by
  unfold topLevel
  split
  · exact .bind (importDecl_blames c) fun _ _ => .ok _
  · have front : c.Onward (if (c.kind == .keyword .kwExport) = true then c.next else c) := by
      split
      · exact c.reaches_next.onward
      · exact .refl c
    dsimp only
    split
    · exact .bind ((container_blames ..).onward front) fun _ _ => .ok _
    · exact .bind ((container_blames ..).onward front) fun _ _ => .ok _
    · exact .fail front

theorem topLevels_blames (c : Cursor) : c.Blames (topLevels c) := by
  unfold topLevels
  split
  · exact .ok _
  · refine .bind (topLevel_blames c) fun first _ => ?_
    split
    · have follows := first.follows.trans first.cursor.reaches_skipSeparators
      have := follows.lt
      exact .bind ((topLevels_blames first.cursor.skipSeparators).onward follows.onward)
        fun _ _ => .ok _
    · exact .fail first.follows.onward
termination_by c.left
decreasing_by all_goals omega

end Members

end Parser

/-- The constructs of the grammar. -/
inductive Production : Type → Type where
  | typeRef : Production TypeRef
  | params : Production (List ParamDecl)
  | expr : Production Expr
  | condition : Production Expr
  | binary (loose : Fin 7) : Production Expr
  | unary : Production Expr
  | postfixed : Production Expr
  | primary : Production Expr
  | block : Production Expr
  | statement : Production Stmt
  | valBinding : Production Parser.ValBinding
  | construction : Production Expr
  | arguments : Production (List Expr)
  | importDecl : Production Import
  | foreignDecl : Production ForeignDecl
  | defDecl (implicit : Bool) : Production DefDecl
  | container (exported : Bool) (kind : ContainerKind) : Production Container
  | member : Production Member
  | topLevel : Production Parser.TopLevel

namespace Production

variable {α : Type}

/-- The parse function of a construct. -/
def read : Production α → (c : Cursor) → Parse α c
  | .typeRef => Parser.typeRef
  | .params => Parser.params
  | .expr => Parser.expr
  | .condition => Parser.condition
  | .binary loose => Parser.binary loose
  | .unary => Parser.unary
  | .postfixed => Parser.postfixed
  | .primary => Parser.primary
  | .block => Parser.block
  | .statement => Parser.statement
  | .valBinding => Parser.valBinding
  | .construction => Parser.construction
  | .arguments => Parser.arguments
  | .importDecl => Parser.importDecl
  | .foreignDecl => Parser.foreignDecl
  | .defDecl implicit => Parser.defDecl implicit
  | .container exported kind => Parser.container exported kind
  | .member => Parser.member
  | .topLevel => Parser.topLevel

end Production

/-- The token vector the parser runs over: an end of the input is put behind tokens that lack
one. -/
def Token.ended (tokens : List Token) : List Token :=
  if tokens.getLast?.any (·.kind = .endOfInput) then tokens else tokens ++ [.noEnd]

namespace Cursor

variable {vector : List Token} {i j : Nat} {c d : Cursor}

theorem ofTokens_ahead (tokens : List Token) : (ofTokens tokens).ahead = Token.ended tokens := by
  unfold ofTokens Token.ended
  split
  · next none =>
    obtain rfl := List.getLast?_eq_none_iff.mp none
    rfl
  · next last found =>
    split
    · next ends =>
      rw [found, if_pos (by simpa using ends)]
      exact List.dropLast_append_getLast? last found
    · next goes =>
      rw [found, if_neg (by simpa using goes)]
      rfl

/-- A cursor at an index of a token vector. -/
def Stands (vector : List Token) (i : Nat) (c : Cursor) : Prop := vector.drop i = c.ahead

theorem Stands.lt (h : c.Stands vector i) : i < vector.length := by
  have length := congrArg List.length h
  simp only [ahead, List.length_drop, List.length_append, List.length_singleton] at length
  omega

theorem Stands.onward (h : c.Stands vector i) (k : c.Onward d) :
    ∃ j, i ≤ j ∧ d.Stands vector j := by
  obtain ⟨front, split⟩ := k
  refine ⟨i + front.length, Nat.le_add_right .., ?_⟩
  rw [Stands, ← List.drop_drop, h, ← split]
  simp

theorem Stands.follows (h : c.Stands vector i) (k : c.Follows d) :
    ∃ j, i < j ∧ d.Stands vector j := by
  obtain ⟨j, le, stands⟩ := h.onward k.onward
  refine ⟨j, Nat.lt_of_le_of_ne le ?_, stands⟩
  rintro rfl
  have same : c.ahead.length = d.ahead.length := congrArg List.length (h.symm.trans stands)
  have lt := k.lt
  simp only [ahead, List.length_append, List.length_singleton, left] at same lt
  omega

/-- Newlines in front of the token read next are passed over inside parentheses only. -/
theorem current_head (c : Cursor) :
    (if c.depth = 0 then c.ahead else c.ahead.dropWhile (·.kind = .newline)).head? =
      some c.current := by
  have solid : ¬ (c.final.kind = .newline) := by simp [c.ends]
  have seen : (if c.depth = 0 then c.ahead else c.ahead.dropWhile (·.kind = .newline)) =
      c.visible ++ [c.final] := by
    unfold visible ahead
    split
    · rfl
    · rw [List.dropWhile_append, List.dropWhile_cons_of_neg (by simpa using solid)]
      split <;> simp_all
  rw [seen, current]
  cases c.visible <;> rfl

end Cursor

/-- A tree, or an error at a token of the vector. -/
def Answers {α : Type} (vector : List Token) (read : Except SyntaxError α) : Prop :=
  (∃ tree, read = .ok tree) ∨ ∃ token ∈ vector, ∃ cause, read = .error (token.fail cause)

/-- What a reading does to the index. -/
inductive Moves {α : Type} (vector : List Token) (i : Nat) {c : Cursor} (read : Parse α c) : Prop
  /-- The index moves forward inside the vector. The depth is as it was, and decides alone whether
  newlines are passed over from there on. -/
  | done (p : Parsed α c) (j : Nat) (value : read = .ok p) (forward : i < j)
      (inside : j < vector.length) (stands : p.cursor.Stands vector j)
      (depth : p.cursor.depth = c.depth)
      (seen : (if c.depth = 0 then vector.drop j
        else (vector.drop j).dropWhile (·.kind = .newline)).head? = some p.cursor.current)
  /-- The reading fails at a token of the vector that lies ahead. -/
  | failed (j : Nat) (token : Token) (cause : SyntaxCause) (ahead : i ≤ j)
      (inside : vector[j]? = some token) (error : read = .error (token.fail cause))

theorem Cursor.Blames.answers {α : Type} {c : Cursor} {vector : List Token}
    {read : Except SyntaxError α} (h : c.Blames read) (whole : c.ahead = vector) :
    Answers vector read := by
  cases result : read with
  | ok tree => exact .inl ⟨tree, rfl⟩
  | error error =>
    obtain ⟨token, mem, own⟩ := h.located error result
    exact .inr ⟨token, whole ▸ mem, error.cause, congrArg _ own⟩

theorem Cursor.Blames.moves {α : Type} {c : Cursor} {vector : List Token} {i : Nat}
    {read : Parse α c} (h : c.Blames read) (start : c.Stands vector i) : Moves vector i read := by
  cases result : read with
  | ok p =>
    obtain ⟨j, lt, stands⟩ := start.follows p.follows
    have depth := p.follows.reaches.depth
    refine .done p j rfl lt stands.lt stands depth ?_
    rw [← depth, stands]
    exact p.cursor.current_head
  | error error =>
    obtain ⟨token, mem, own⟩ := h.located error result
    rw [← start] at mem
    obtain ⟨k, found⟩ := List.getElem?_of_mem mem
    exact .failed (i + k) token error.cause (Nat.le_add_right ..)
      (by rwa [List.getElem?_drop] at found) (congrArg _ own)

theorem parseProgram_blames (tokens : List Token) :
    (Cursor.ofTokens tokens).Blames (parseProgram tokens) :=
  .bind ((Parser.topLevels_blames _).onward (Cursor.reaches_skipSeparators _).onward)
    fun _ _ => .ok _

end ScriptShell
