import ScriptShell.Proofs.Containment.Bodies

/-!
The names that a tree looks up and the tokens it is read from. A name is looked up where it stands
as an expression, or first in a path: of a type, of a class to construct, or of an import. Behind a
dot stands a member, and the parser passes a dot only together with the token behind it. So every
name that is looked up is an identifier of the tokens read that follows no dot.
-/
namespace ScriptShell

open Fragment

/-- The name that a written type looks up. -/
def TypeRef.lookups (ref : TypeRef) : List String := ref.path.head?.toList

def ParamDecl.lookups (param : ParamDecl) : List String := param.type.lookups

mutual

/-- The names that an expression looks up. -/
def Expr.lookups : Expr → List String
  | .int .. | .str .. | .unit _ | .this _ => []
  | .name _ name => [name]
  | .select _ object _ => object.lookups
  | .call _ callee args => callee.lookups ++ Expr.lookupsAll args
  | .new _ target args => target.lookups ++ Expr.lookupsAll args
  | .binary _ _ left right => left.lookups ++ right.lookups
  | .unary _ _ operand => operand.lookups
  | .cond _ condition yes none => condition.lookups ++ yes.lookups
  | .cond _ condition yes (some no) => condition.lookups ++ yes.lookups ++ no.lookups
  | .block _ body => Stmt.lookupsAll body

def Expr.lookupsAll : List Expr → List String
  | [] => []
  | first :: rest => first.lookups ++ Expr.lookupsAll rest

/-- The names that a statement looks up. -/
def Stmt.lookups : Stmt → List String
  | .val _ _ ascription init => ascription.toList.flatMap TypeRef.lookups ++ init.lookups
  | .expr value => value.lookups

def Stmt.lookupsAll : List Stmt → List String
  | [] => []
  | first :: rest => first.lookups ++ Stmt.lookupsAll rest

end

def ValDecl.lookups (decl : ValDecl) : List String :=
  decl.ascription.toList.flatMap TypeRef.lookups ++ decl.init.lookups

def DefDecl.lookups (decl : DefDecl) : List String :=
  decl.params.flatMap ParamDecl.lookups ++ decl.result.toList.flatMap TypeRef.lookups ++
    decl.body.lookups

def ForeignDecl.lookups (decl : ForeignDecl) : List String :=
  decl.params.flatMap ParamDecl.lookups ++ decl.result.lookups

mutual

/-- The names that a member looks up, those of its own members included. -/
def Member.lookups : Member → List String
  | .imports decl => [decl.head]
  | .val decl => decl.lookups
  | .func decl => decl.lookups
  | .foreign decl => decl.lookups
  | .container decl => decl.lookups
  | .expr _ value => value.lookups

def Member.lookupsAll : List Member → List String
  | [] => []
  | first :: rest => first.lookups ++ Member.lookupsAll rest

/-- The names that a module or class looks up. -/
def Container.lookups : Container → List String
  | .mk _ _ _ _ params members => params.flatMap ParamDecl.lookups ++ Member.lookupsAll members

end

namespace Fragment

theorem identifiers_append {front : List Token} (back : List Token) (dot : Bool)
    (stops : ∀ last ∈ front.getLast?, last.kind ≠ .punct .dot) (some : front = [] → dot = false) :
    identifiers dot (front ++ back) = identifiers dot front ++ identifiers false back := by
  induction front generalizing dot with
  | nil => rw [some rfl]; rfl
  | cons token rest ih =>
    have last : rest = [] → decide (token.kind = .punct .dot) = false := by
      rintro rfl
      simpa using stops token rfl
    have others : ∀ last ∈ rest.getLast?, last.kind ≠ .punct .dot := by
      intro last mem
      refine stops last ?_
      cases rest with
      | nil => cases mem
      | cons second rest => simpa [List.getLast?_cons_cons] using mem
    rw [List.cons_append, identifiers, identifiers, ih _ others last, List.append_assoc]

end Fragment

namespace Cursor

variable {c d e : Cursor} {names others : List String}

/-- The tokens between two cursors mention the names, and the last of them is no dot. -/
def Mentions (c d : Cursor) (names : List String) : Prop :=
  ∃ read, c.rest = read ++ d.rest ∧ (∀ last ∈ read.getLast?, last.kind ≠ .punct .dot) ∧
    names ⊆ identifiers false read

namespace Mentions

theorem refl (c : Cursor) : c.Mentions c [] := ⟨[], rfl, by simp, List.nil_subset _⟩

theorem trans (h : c.Mentions d names) (k : d.Mentions e others) :
    c.Mentions e (names ++ others) := by
  obtain ⟨first, split, stops, own⟩ := h
  obtain ⟨second, more, ends, further⟩ := k
  refine ⟨first ++ second, by rw [split, more, List.append_assoc], ?_, ?_⟩
  · intro last mem
    rw [List.getLast?_append] at mem
    cases tail : second.getLast? with
    | none => exact stops last (by simpa [tail] using mem)
    | some other => exact ends last (by simpa [tail] using mem)
  · rw [identifiers_append second false stops fun _ => rfl]
    exact List.append_subset.mpr ⟨List.Subset.trans own (List.subset_append_left ..),
      List.Subset.trans further (List.subset_append_right ..)⟩

theorem mono (h : c.Mentions d names) (fewer : others ⊆ names) : c.Mentions d others := by
  obtain ⟨read, split, stops, own⟩ := h
  exact ⟨read, split, stops, List.Subset.trans fewer own⟩

/-- Nothing more is looked up. -/
theorem past (h : c.Mentions d names) (k : d.Mentions e []) : c.Mentions e names :=
  (h.trans k).mono (by simp)

/-- Nothing was looked up before. -/
theorem after (h : d.Mentions e names) (k : c.Mentions d []) : c.Mentions e names :=
  k.trans h

end Mentions

theorem identifiers_lines {lines : List Token} (newlines : ∀ line ∈ lines, line.kind = .newline)
    (rest : List Token) : identifiers false (lines ++ rest) = identifiers false rest := by
  induction lines with
  | nil => rfl
  | cons line lines ih =>
    have kind := newlines line List.mem_cons_self
    rw [List.cons_append, identifiers, kind]
    exact ih fun other mem => newlines other (List.mem_cons_of_mem _ mem)

/-- A token that is no dot is read. -/
theorem mentions_next (some : c.kind ≠ .endOfInput) (solid : c.kind ≠ .punct .dot) :
    c.Mentions c.next [] := by
  obtain ⟨lines, -, -, split⟩ := rest_next some
  refine ⟨lines ++ [c.current], by simpa using split, ?_, List.nil_subset _⟩
  intro last mem
  obtain rfl : c.current = last := by simpa using mem
  exact solid

/-- A name is read. -/
theorem mentions_name (kind : c.kind = .identifier) : c.Mentions c.next [c.current.lexeme] := by
  obtain ⟨lines, newlines, -, split⟩ := rest_next (c := c) (by simp [kind])
  have own : c.current.kind = .identifier := kind
  refine ⟨lines ++ [c.current], by simpa using split, ?_, ?_⟩
  · intro last mem
    obtain rfl : c.current = last := by simpa using mem
    simp [own]
  · rw [identifiers_lines newlines]
    simp [identifiers, own]

/-- A dot is read, and the token behind it. -/
theorem mentions_dot (dot : c.kind = .punct .dot) (some : c.next.kind ≠ .endOfInput)
    (solid : c.next.kind ≠ .punct .dot) : c.Mentions c.next.next [] := by
  obtain ⟨lines, -, -, split⟩ := rest_next (c := c) (by simp [dot])
  obtain ⟨more, -, -, behind⟩ := rest_next some
  refine ⟨(lines ++ [c.current]) ++ (more ++ [c.next.current]), by simp [split, behind], ?_,
    List.nil_subset _⟩
  intro last mem
  obtain rfl : c.next.current = last := by
    rw [← List.append_assoc, List.getLast?_concat] at mem
    simpa using mem
  exact solid

theorem mentions_skipNewlines (c : Cursor) : c.Mentions c.skipNewlines [] := by
  refine ⟨c.rest.takeWhile (·.kind = .newline), List.takeWhile_append_dropWhile.symm, ?_,
    List.nil_subset _⟩
  intro last mem
  have newline := List.mem_takeWhile_imp (List.mem_of_getLast? mem)
  simp_all

theorem mentions_skipSeparators (c : Cursor) : c.Mentions c.skipSeparators [] := by
  refine ⟨c.rest.takeWhile (·.kind.isSeparator), List.takeWhile_append_dropWhile.symm, ?_,
    List.nil_subset _⟩
  intro last mem dot
  have separates := List.mem_takeWhile_imp (List.mem_of_getLast? mem)
  rw [dot] at separates
  cases separates

section Expected

theorem expectName_mentions {what : String} {p : Parsed Token c} (h : c.expectName what = .ok p) :
    c.Mentions p.cursor [p.value.lexeme] := by
  obtain ⟨kind, value, cursor⟩ := expectName_ok h
  rw [value, cursor]
  exact mentions_name kind

/-- A name that is not looked up. -/
theorem expectName_past {what : String} {p : Parsed Token c} (h : c.expectName what = .ok p) :
    c.Mentions p.cursor [] :=
  (expectName_mentions h).mono (List.nil_subset _)

theorem expectMark_mentions {mark : Punct} {what : String} {p : Parsed Token c}
    (h : c.expectMark mark what = .ok p) (solid : mark ≠ .dot) : c.Mentions p.cursor [] := by
  obtain ⟨kind, -, cursor⟩ := expectMark_ok h
  rw [cursor]
  exact mentions_next (by simp [kind]) (by simpa [kind] using solid)

theorem expectWord_mentions {word : Keyword} {what : String} {p : Parsed Token c}
    (h : c.expectWord word what = .ok p) : c.Mentions p.cursor [] := by
  obtain ⟨kind, -, cursor⟩ := expectWord_ok h
  rw [cursor]
  exact mentions_next (by simp [kind]) (by simp [kind])

/-- A member behind a dot. -/
theorem selected_mentions {what : String} {p : Parsed Token c.next} (dot : c.kind = .punct .dot)
    (h : c.next.expectName what = .ok p) : c.Mentions p.cursor [] := by
  obtain ⟨kind, -, cursor⟩ := expectName_ok h
  rw [cursor]
  exact mentions_dot dot (by simp [kind]) (by simp [kind])

/-- Between parentheses; `i` is the place behind the first one. -/
theorem mentions_parens {i : Cursor} {closes : String} {closing : Parsed Token d}
    (front : c.Mentions i []) (inner : i.Mentions d names)
    (last : d.expectMark .closeParen closes = .ok closing) :
    c.Mentions closing.cursor.shallower names := by
  have back : d.Mentions closing.cursor.shallower [] := expectMark_mentions last (by decide)
  exact (inner.after front).past back

end Expected

end Cursor

namespace Parser

open Cursor

theorem pathRest_mentions {what : String} {c : Cursor} {r : Extended (List String) c}
    (h : pathRest what c = .ok r) : c.Mentions r.cursor [] := by
  unfold pathRest at h
  split at h
  · next dot =>
    obtain ⟨segment, name, h⟩ := Except.bind_ok.mp h
    have := segment.follows.lt
    have := left_next_le c
    obtain ⟨rest, more, h⟩ := Except.bind_ok.mp h
    cases h
    exact (selected_mentions dot name).past (pathRest_mentions more)
  · cases h
    exact .refl c
termination_by c.left
decreasing_by all_goals omega

theorem typeRef_mentions {c : Cursor} {p : Parsed TypeRef c} (h : typeRef c = .ok p) :
    c.Mentions p.cursor p.value.lookups := by
  unfold typeRef at h
  obtain ⟨first, name, h⟩ := Except.bind_ok.mp h
  obtain ⟨rest, more, h⟩ := Except.bind_ok.mp h
  cases h
  exact (expectName_mentions name).past (pathRest_mentions more)

theorem paramList_mentions {c : Cursor} {p : Parsed (List ParamDecl) c}
    (h : paramList c = .ok p) : c.Mentions p.cursor (p.value.flatMap ParamDecl.lookups) := by
  unfold paramList at h
  obtain ⟨name, first, h⟩ := Except.bind_ok.mp h
  obtain ⟨colon, mark, h⟩ := Except.bind_ok.mp h
  obtain ⟨type, written, h⟩ := Except.bind_ok.mp h
  have own : c.Mentions type.cursor type.value.lookups :=
    (typeRef_mentions written).after
      ((expectName_past first).past (expectMark_mentions mark (by decide)))
  simp only at h
  split at h
  · next comma =>
    have := ((name.follows.then colon.follows).then type.follows).lt
    have := left_next_le type.cursor
    obtain ⟨rest, more, h⟩ := Except.bind_ok.mp h
    cases h
    have step : type.cursor.Mentions type.cursor.next [] :=
      mentions_next (by simp [comma]) (by simp [comma])
    exact own.trans ((paramList_mentions more).after step)
  · cases h
    exact own.mono (by simp [ParamDecl.lookups])
termination_by c.left
decreasing_by all_goals omega

theorem params_mentions {c : Cursor} {p : Parsed (List ParamDecl) c} (h : params c = .ok p) :
    c.Mentions p.cursor (p.value.flatMap ParamDecl.lookups) := by
  unfold params at h
  obtain ⟨opening, first, h⟩ := Except.bind_ok.mp h
  have front : c.Mentions opening.cursor.deeper [] := expectMark_mentions first (by decide)
  split at h
  · obtain ⟨closing, last, h⟩ := Except.bind_ok.mp h
    cases h
    exact mentions_parens front (.refl _) last
  · obtain ⟨list, inner, h⟩ := Except.bind_ok.mp h
    obtain ⟨closing, last, h⟩ := Except.bind_ok.mp h
    cases h
    exact mentions_parens front (paramList_mentions inner) last

theorem ascription_mentions {c : Cursor} {r : Extended (Option TypeRef) c}
    (h : ascription c = .ok r) :
    c.Mentions r.cursor (r.value.toList.flatMap TypeRef.lookups) := by
  unfold ascription at h
  split at h
  · next colon =>
    obtain ⟨type, written, h⟩ := Except.bind_ok.mp h
    cases h
    have step : c.Mentions c.next [] := mentions_next (by simp [colon]) (by simp [colon])
    exact ((typeRef_mentions written).after step).mono (by simp)
  · cases h
    exact .refl c

/-- A path looks up its first segment only. -/
theorem targetRest_mentions {target : Expr} {c : Cursor} {r : Extended Expr c}
    (h : targetRest target c = .ok r) :
    c.Mentions r.cursor [] ∧ r.value.lookups = target.lookups := by
  unfold targetRest at h
  split at h
  · next dot =>
    obtain ⟨segment, name, h⟩ := Except.bind_ok.mp h
    have := segment.follows.lt
    have := left_next_le c
    obtain ⟨rest, more, h⟩ := Except.bind_ok.mp h
    cases h
    obtain ⟨others, same⟩ := targetRest_mentions more
    exact ⟨(selected_mentions dot name).past others, by rw [same, Expr.lookups]⟩
  · cases h
    exact ⟨.refl c, rfl⟩
termination_by c.left
decreasing_by all_goals omega

/-- What is read behind an operand extends it. -/
def Extends (known : List String) (c d : Cursor) (names : List String) : Prop :=
  ∃ more, c.Mentions d more ∧ names ⊆ known ++ more

theorem Extends.refl {c : Cursor} {known : List String} : Extends known c c known :=
  ⟨[], .refl c, by simp⟩

theorem Extends.step {c d e : Cursor} {known middle names others : List String}
    (own : c.Mentions d others) (grown : middle ⊆ known ++ others) (h : Extends middle d e names) :
    Extends known c e names := by
  obtain ⟨more, mentions, within⟩ := h
  refine ⟨others ++ more, own.trans mentions, List.Subset.trans within ?_⟩
  rw [← List.append_assoc]
  exact List.append_subset.mpr ⟨List.Subset.trans grown (List.subset_append_left ..),
    List.subset_append_right ..⟩

theorem Extends.mentions {c d e : Cursor} {known names : List String}
    (h : Extends known d e names) (own : c.Mentions d known) : c.Mentions e names := by
  obtain ⟨more, mentions, within⟩ := h
  exact (own.trans mentions).mono within

mutual

theorem expr_mentions {c : Cursor} {p : Parsed Expr c} (h : expr c = .ok p) :
    c.Mentions p.cursor p.value.lookups := by
  rw [expr_eq] at h
  split at h
  · exact condition_mentions h
  · exact binary_mentions h
termination_by 32 * c.left + 20
decreasing_by all_goals omega

theorem condition_mentions {c : Cursor} {p : Parsed Expr c} (h : condition c = .ok p) :
    c.Mentions p.cursor p.value.lookups := by
  unfold condition at h
  obtain ⟨keyword, word, h⟩ := Except.bind_ok.mp h
  obtain ⟨opening, first, h⟩ := Except.bind_ok.mp h
  have : opening.cursor.deeper.left < c.left := (keyword.follows.then opening.follows).lt
  obtain ⟨test, tested, h⟩ := Except.bind_ok.mp h
  obtain ⟨closing, last, h⟩ := Except.bind_ok.mp h
  have parens := opening.follows.closed (test.follows.then closing.follows)
  have := ((keyword.follows.then parens).trans
    closing.cursor.shallower.reaches_skipNewlines).lt
  obtain ⟨yes, answered, h⟩ := Except.bind_ok.mp h
  have front : c.Mentions opening.cursor.deeper [] :=
    (expectWord_mentions word).past (expectMark_mentions first (by decide))
  have head : c.Mentions closing.cursor.shallower.skipNewlines test.value.lookups :=
    (mentions_parens front (expr_mentions tested) last).past (mentions_skipNewlines _)
  have body : c.Mentions yes.cursor (test.value.lookups ++ yes.value.lookups) :=
    head.trans (expr_mentions answered)
  simp only at h
  split at h
  · next marker =>
    have kind : yes.cursor.skipNewlines.kind = .keyword .kwElse :=
      (kind_skipNewlines yes.cursor).trans marker
    have behind := follows_next (c := yes.cursor.skipNewlines) (by simp [kind])
    have step : yes.cursor.Mentions yes.cursor.skipNewlines.next.skipNewlines [] :=
      ((mentions_skipNewlines _).past
        (mentions_next (by simp [kind]) (by simp [kind]))).past (mentions_skipNewlines _)
    have := yes.follows.lt
    have := left_skipNewlines_le yes.cursor
    have := behind.lt
    have := left_skipNewlines_le yes.cursor.skipNewlines.next
    obtain ⟨no, other, h⟩ := Except.bind_ok.mp h
    cases h
    simpa only [Expr.lookups] using body.trans ((expr_mentions other).after step)
  · cases h
    simpa only [Expr.lookups] using body
termination_by 32 * c.left
decreasing_by all_goals omega

theorem binary_mentions {loose : Fin 7} {c : Cursor} {p : Parsed Expr c}
    (h : binary loose c = .ok p) : c.Mentions p.cursor p.value.lookups := by
  unfold binary at h
  split at h
  · exact unary_mentions h
  · obtain ⟨left, first, h⟩ := Except.bind_ok.mp h
    have := left.follows.lt
    obtain ⟨whole, more, h⟩ := Except.bind_ok.mp h
    cases h
    exact (binaryRest_mentions more).mentions (binary_mentions first)
termination_by 32 * c.left + 4 + loose.val
decreasing_by all_goals subst_vars; dsimp only; omega

theorem binaryRest_mentions {tighter : Fin 6} {left : Expr} {c : Cursor} {r : Extended Expr c}
    (h : binaryRest tighter left c = .ok r) : Extends left.lookups c r.cursor r.value.lookups := by
  unfold binaryRest at h
  split at h
  · cases h
    exact .refl
  · next op found =>
    split at h
    · have some : c.kind ≠ .endOfInput := by intro stop; simp [stop, BinaryOp.ofToken?] at found
      have solid : c.kind ≠ .punct .dot := by intro dot; simp [dot, BinaryOp.ofToken?] at found
      have := (follows_next some).lt
      have := left_skipNewlines_le c.next
      obtain ⟨right, operand, h⟩ := Except.bind_ok.mp h
      have := right.follows.lt
      obtain ⟨whole, more, h⟩ := Except.bind_ok.mp h
      cases h
      have own : c.next.skipNewlines.Mentions right.cursor right.value.lookups := by
        split at operand
        · exact condition_mentions operand
        · exact binary_mentions operand
      have step : c.Mentions c.next.skipNewlines [] :=
        (mentions_next some solid).past (mentions_skipNewlines _)
      exact .step (own.after step) (by simp [Expr.lookups]) (binaryRest_mentions more)
    · cases h
      exact .refl
termination_by 32 * c.left
decreasing_by all_goals omega

theorem unary_mentions {c : Cursor} {p : Parsed Expr c} (h : unary c = .ok p) :
    c.Mentions p.cursor p.value.lookups := by
  unfold unary at h
  split at h
  · next op found =>
    have some : c.kind ≠ .endOfInput := by intro stop; simp [stop, UnaryOp.ofToken?] at found
    have solid : c.kind ≠ .punct .dot := by intro dot; simp [dot, UnaryOp.ofToken?] at found
    have := (follows_next some).lt
    obtain ⟨operand, rest, h⟩ := Except.bind_ok.mp h
    cases h
    simpa only [Expr.lookups] using (unary_mentions rest).after (mentions_next some solid)
  · exact postfixed_mentions h
termination_by 32 * c.left + 3
decreasing_by all_goals omega

theorem postfixed_mentions {c : Cursor} {p : Parsed Expr c} (h : postfixed c = .ok p) :
    c.Mentions p.cursor p.value.lookups := by
  unfold postfixed at h
  obtain ⟨operand, first, h⟩ := Except.bind_ok.mp h
  have := operand.follows.lt
  obtain ⟨whole, more, h⟩ := Except.bind_ok.mp h
  cases h
  exact (postfixRest_mentions more).mentions (primary_mentions first)
termination_by 32 * c.left + 2
decreasing_by all_goals omega

theorem postfixRest_mentions {operand : Expr} {c : Cursor} {r : Extended Expr c}
    (h : postfixRest operand c = .ok r) :
    Extends operand.lookups c r.cursor r.value.lookups := by
  unfold postfixRest at h
  split at h
  · next dot =>
    have kind : c.skipNewlines.kind = .punct .dot := (kind_skipNewlines c).trans dot
    have behind := follows_next (c := c.skipNewlines) (by simp [kind])
    obtain ⟨name, named, h⟩ := Except.bind_ok.mp h
    have := behind.lt
    have := left_skipNewlines_le c
    have := name.follows.lt
    obtain ⟨whole, more, h⟩ := Except.bind_ok.mp h
    cases h
    have step : c.Mentions name.cursor [] :=
      (mentions_skipNewlines c).past (selected_mentions kind named)
    exact .step step (by simp [Expr.lookups]) (postfixRest_mentions more)
  · split at h
    · obtain ⟨args, list, h⟩ := Except.bind_ok.mp h
      have := args.follows.lt
      obtain ⟨whole, more, h⟩ := Except.bind_ok.mp h
      cases h
      exact .step (arguments_mentions list) (by simp [Expr.lookups]) (postfixRest_mentions more)
    · cases h
      exact .refl
termination_by 32 * c.left + 1
decreasing_by all_goals omega

theorem primary_mentions {c : Cursor} {p : Parsed Expr c} (h : primary c = .ok p) :
    c.Mentions p.cursor p.value.lookups := by
  unfold primary at h
  split at h
  · next kind => cases h; exact mentions_next (by simp [kind]) (by simp [kind])
  · next kind => cases h; exact mentions_next (by simp [kind]) (by simp [kind])
  · next kind => cases h; exact mentions_name kind
  · next kind => cases h; exact mentions_next (by simp [kind]) (by simp [kind])
  · next kind =>
    have : c.next.deeper.left < c.left := (follows_next (c := c) (by simp [kind])).lt
    have front : c.Mentions c.next.deeper [] :=
      mentions_next (by simp [kind]) (by simp [kind])
    simp only at h
    split at h
    · obtain ⟨closing, last, h⟩ := Except.bind_ok.mp h
      cases h
      exact mentions_parens front (.refl _) last
    · obtain ⟨inner, own, h⟩ := Except.bind_ok.mp h
      obtain ⟨closing, last, h⟩ := Except.bind_ok.mp h
      cases h
      exact mentions_parens front (expr_mentions own) last
  · exact block_mentions h
  · exact construction_mentions h
  · exact condition_mentions h
  · cases h
  · cases h
termination_by 32 * c.left + 1
decreasing_by all_goals omega

theorem block_mentions {c : Cursor} {p : Parsed Expr c} (h : block c = .ok p) :
    c.Mentions p.cursor p.value.lookups := by
  unfold block at h
  obtain ⟨opening, first, h⟩ := Except.bind_ok.mp h
  have := opening.follows.lt
  have : (opening.cursor.atDepth 0).skipSeparators.left ≤ opening.cursor.left :=
    left_skipSeparators_le _
  obtain ⟨body, inner, h⟩ := Except.bind_ok.mp h
  obtain ⟨closing, last, h⟩ := Except.bind_ok.mp h
  cases h
  have front : c.Mentions (opening.cursor.atDepth 0) [] := expectMark_mentions first (by decide)
  have back : body.cursor.Mentions closing.cursor [] := expectMark_mentions last (by decide)
  simpa only [Expr.lookups] using
    ((statements_mentions inner).after (front.past (mentions_skipSeparators _))).past back
termination_by 32 * c.left
decreasing_by all_goals omega

theorem statements_mentions {c : Cursor} {r : Extended (List Stmt) c}
    (h : statements c = .ok r) : c.Mentions r.cursor (Stmt.lookupsAll r.value) := by
  unfold statements at h
  split at h
  · cases h
    exact .refl c
  · split at h
    · cases h
    · obtain ⟨first, own, h⟩ := Except.bind_ok.mp h
      have mentions := statement_mentions own
      split at h
      · cases h
        simpa [Stmt.lookupsAll] using mentions
      · split at h
        · have := first.follows.lt
          have := left_skipSeparators_le first.cursor
          obtain ⟨rest, more, h⟩ := Except.bind_ok.mp h
          cases h
          simpa only [Stmt.lookupsAll] using
            mentions.trans ((statements_mentions more).after (mentions_skipSeparators _))
        · cases h
termination_by 32 * c.left + 22
decreasing_by all_goals omega

theorem statement_mentions {c : Cursor} {p : Parsed Stmt c} (h : statement c = .ok p) :
    c.Mentions p.cursor p.value.lookups := by
  unfold statement at h
  split at h
  · obtain ⟨val, own, h⟩ := Except.bind_ok.mp h
    cases h
    simpa only [Stmt.lookups] using valBinding_mentions own
  all_goals first | cases h | skip
  obtain ⟨value, own, h⟩ := Except.bind_ok.mp h
  cases h
  simpa only [Stmt.lookups] using expr_mentions own
termination_by 32 * c.left + 21
decreasing_by all_goals omega

theorem valBinding_mentions {c : Cursor} {p : Parsed ValBinding c} (h : valBinding c = .ok p) :
    c.Mentions p.cursor
      (p.value.ascription.toList.flatMap TypeRef.lookups ++ p.value.init.lookups) := by
  unfold valBinding at h
  obtain ⟨keyword, word, h⟩ := Except.bind_ok.mp h
  obtain ⟨name, named, h⟩ := Except.bind_ok.mp h
  obtain ⟨type, ascribed, h⟩ := Except.bind_ok.mp h
  obtain ⟨assign, mark, h⟩ := Except.bind_ok.mp h
  have head := ((keyword.follows.then name.follows).trans type.reaches).then assign.follows
  have := (head.trans assign.cursor.reaches_skipNewlines).lt
  obtain ⟨init, value, h⟩ := Except.bind_ok.mp h
  cases h
  have front : c.Mentions name.cursor [] := (expectWord_mentions word).past (expectName_past named)
  have step : type.cursor.Mentions assign.cursor.skipNewlines [] :=
    (expectMark_mentions mark (by decide)).past (mentions_skipNewlines _)
  exact (((ascription_mentions ascribed).after front).past step).trans (expr_mentions value)
termination_by 32 * c.left
decreasing_by all_goals omega

theorem construction_mentions {c : Cursor} {p : Parsed Expr c} (h : construction c = .ok p) :
    c.Mentions p.cursor p.value.lookups := by
  unfold construction at h
  obtain ⟨keyword, word, h⟩ := Except.bind_ok.mp h
  obtain ⟨first, named, h⟩ := Except.bind_ok.mp h
  obtain ⟨target, path, h⟩ := Except.bind_ok.mp h
  obtain ⟨rest, same⟩ := targetRest_mentions path
  have head : c.Mentions target.cursor target.value.lookups := by
    rw [same]
    exact ((expectName_mentions named).after (expectWord_mentions word)).past rest
  simp only at h
  split at h
  · have := ((keyword.follows.then first.follows).trans target.reaches).lt
    obtain ⟨args, list, h⟩ := Except.bind_ok.mp h
    cases h
    simpa only [Expr.lookups] using head.trans (arguments_mentions list)
  · cases h
    simpa [Expr.lookups, Expr.lookupsAll] using head
termination_by 32 * c.left
decreasing_by all_goals omega

theorem arguments_mentions {c : Cursor} {p : Parsed (List Expr) c} (h : arguments c = .ok p) :
    c.Mentions p.cursor (Expr.lookupsAll p.value) := by
  unfold arguments at h
  obtain ⟨opening, first, h⟩ := Except.bind_ok.mp h
  have : opening.cursor.deeper.left < c.left := opening.follows.lt
  have front : c.Mentions opening.cursor.deeper [] := expectMark_mentions first (by decide)
  simp only at h
  split at h
  · obtain ⟨closing, last, h⟩ := Except.bind_ok.mp h
    cases h
    exact mentions_parens front (.refl _) last
  · obtain ⟨list, inner, h⟩ := Except.bind_ok.mp h
    obtain ⟨closing, last, h⟩ := Except.bind_ok.mp h
    cases h
    exact mentions_parens front (argumentList_mentions inner) last
termination_by 32 * c.left
decreasing_by all_goals omega

theorem argumentList_mentions {c : Cursor} {p : Parsed (List Expr) c}
    (h : argumentList c = .ok p) : c.Mentions p.cursor (Expr.lookupsAll p.value) := by
  unfold argumentList at h
  obtain ⟨first, own, h⟩ := Except.bind_ok.mp h
  have mentions := expr_mentions own
  simp only at h
  split at h
  · next comma =>
    have := first.follows.lt
    have := left_next_le first.cursor
    obtain ⟨rest, more, h⟩ := Except.bind_ok.mp h
    cases h
    have step : first.cursor.Mentions first.cursor.next [] :=
      mentions_next (by simp [comma]) (by simp [comma])
    simpa only [Expr.lookupsAll] using mentions.trans ((argumentList_mentions more).after step)
  · cases h
    simpa [Expr.lookupsAll] using mentions
termination_by 32 * c.left + 21
decreasing_by all_goals omega

end

section Imports

theorem selector_mentions {name : String} {c : Cursor} {r : Extended Selection c}
    (h : selector name c = .ok r) : c.Mentions r.cursor [] := by
  unfold selector at h
  split at h
  · cases h
    exact .refl c
  · split at h
    · next arrow =>
      obtain ⟨bound, named, h⟩ := Except.bind_ok.mp h
      cases h
      have step : c.Mentions c.next.skipNewlines [] :=
        (mentions_next (by simp [arrow]) (by simp [arrow])).past (mentions_skipNewlines _)
      exact step.past (expectName_past named)
    · cases h
      exact .refl c

theorem selectorList_mentions {c : Cursor} {p : Parsed Selection c} (h : selectorList c = .ok p) :
    c.Mentions p.cursor [] := by
  unfold selectorList at h
  obtain ⟨name, named, h⟩ := Except.bind_ok.mp h
  obtain ⟨own, taken, h⟩ := Except.bind_ok.mp h
  have first : c.Mentions own.cursor.skipNewlines [] :=
    (((expectName_past named).past (mentions_skipNewlines _)).past
      (selector_mentions taken)).past (mentions_skipNewlines _)
  simp only at h
  split at h
  · next comma =>
    have := name.follows.lt
    have := left_skipNewlines_le name.cursor
    have := own.reaches.le
    have := left_skipNewlines_le own.cursor
    have := left_next_le own.cursor.skipNewlines
    have := left_skipNewlines_le own.cursor.skipNewlines.next
    obtain ⟨rest, more, h⟩ := Except.bind_ok.mp h
    cases h
    have step := mentions_next (c := own.cursor.skipNewlines) (by simp [comma]) (by simp [comma])
    exact ((first.past step).past (mentions_skipNewlines _)).past (selectorList_mentions more)
  · cases h
    exact first
termination_by c.left
decreasing_by all_goals omega

theorem importRest_mentions {c : Cursor} {r : Extended (List String × Selection) c}
    (h : importRest c = .ok r) : c.Mentions r.cursor [] := by
  unfold importRest at h
  split at h
  · next dot =>
    simp only at h
    split at h
    · next brace =>
      obtain ⟨list, inner, h⟩ := Except.bind_ok.mp h
      obtain ⟨closing, last, h⟩ := Except.bind_ok.mp h
      cases h
      have front : c.Mentions c.next.next.skipNewlines [] :=
        (mentions_dot dot (by simp [brace]) (by simp [brace])).past (mentions_skipNewlines _)
      exact (front.past (selectorList_mentions inner)).past (expectMark_mentions last (by decide))
    · obtain ⟨segment, named, h⟩ := Except.bind_ok.mp h
      have first := selected_mentions dot named
      split at h
      · cases h
        exact first
      · have := segment.follows.lt
        have := left_next_le c
        obtain ⟨rest, more, h⟩ := Except.bind_ok.mp h
        cases h
        exact first.past (importRest_mentions more)
  · cases h
    exact .refl c
termination_by c.left
decreasing_by all_goals omega

theorem importDecl_mentions {c : Cursor} {p : Parsed Import c} (h : importDecl c = .ok p) :
    c.Mentions p.cursor [p.value.head] := by
  unfold importDecl at h
  obtain ⟨keyword, word, h⟩ := Except.bind_ok.mp h
  obtain ⟨first, named, h⟩ := Except.bind_ok.mp h
  have head : c.Mentions first.cursor [first.value.lexeme] :=
    (expectName_mentions named).after (expectWord_mentions word)
  simp only at h
  split at h
  · cases h
  · obtain ⟨rest, more, h⟩ := Except.bind_ok.mp h
    have whole := head.past (importRest_mentions more)
    split at h
    · cases h
      exact whole
    · split at h
      · cases h
      · cases h
        exact whole

end Imports

section Members

theorem modifiers_mentions (own : Modifiers) (c : Cursor) :
    c.Mentions (modifiers own c).cursor [] := by
  unfold modifiers
  split
  · exact .refl c
  · next more added =>
    have some : c.kind ≠ .endOfInput := by intro stop; simp [stop, Modifiers.add?] at added
    have solid : c.kind ≠ .punct .dot := by intro dot; simp [dot, Modifiers.add?] at added
    have := (follows_next some).lt
    exact (mentions_next some solid).past (modifiers_mentions more c.next)
termination_by c.left
decreasing_by all_goals omega

theorem optionalParams_mentions {c : Cursor} {r : Extended (List ParamDecl × Bool) c}
    (h : optionalParams c = .ok r) : c.Mentions r.cursor (r.value.1.flatMap ParamDecl.lookups) := by
  unfold optionalParams at h
  split at h
  · obtain ⟨list, own, h⟩ := Except.bind_ok.mp h
    cases h
    exact params_mentions own
  · cases h
    exact .refl c

theorem foreignDecl_mentions {c : Cursor} {p : Parsed ForeignDecl c}
    (h : foreignDecl c = .ok p) : c.Mentions p.cursor p.value.lookups := by
  unfold foreignDecl at h
  obtain ⟨keyword, word, h⟩ := Except.bind_ok.mp h
  obtain ⟨name, named, h⟩ := Except.bind_ok.mp h
  obtain ⟨list, own, h⟩ := Except.bind_ok.mp h
  obtain ⟨colon, mark, h⟩ := Except.bind_ok.mp h
  obtain ⟨result, type, h⟩ := Except.bind_ok.mp h
  cases h
  have front : c.Mentions name.cursor [] := (expectWord_mentions word).past (expectName_past named)
  exact (((params_mentions own).after front).past (expectMark_mentions mark (by decide))).trans
    (typeRef_mentions type)

theorem defDecl_mentions {implicit : Bool} {c : Cursor} {p : Parsed DefDecl c}
    (h : defDecl implicit c = .ok p) : c.Mentions p.cursor p.value.lookups := by
  unfold defDecl at h
  obtain ⟨keyword, word, h⟩ := Except.bind_ok.mp h
  obtain ⟨name, named, h⟩ := Except.bind_ok.mp h
  obtain ⟨list, own, h⟩ := Except.bind_ok.mp h
  obtain ⟨result, type, h⟩ := Except.bind_ok.mp h
  obtain ⟨assign, mark, h⟩ := Except.bind_ok.mp h
  obtain ⟨body, value, h⟩ := Except.bind_ok.mp h
  cases h
  have front : c.Mentions name.cursor [] := (expectWord_mentions word).past (expectName_past named)
  have head := ((optionalParams_mentions own).after front).trans (ascription_mentions type)
  have step : result.cursor.Mentions assign.cursor.skipNewlines [] :=
    (expectMark_mentions mark (by decide)).past (mentions_skipNewlines _)
  exact (head.past step).trans (expr_mentions value)

mutual

theorem container_mentions {exported : Bool} {kind : ContainerKind} {c : Cursor}
    {p : Parsed Container c} (h : container exported kind c = .ok p) :
    c.Mentions p.cursor p.value.lookups := by
  unfold container at h
  obtain ⟨keyword, word, h⟩ := Except.bind_ok.mp h
  obtain ⟨name, named, h⟩ := Except.bind_ok.mp h
  obtain ⟨own, params, h⟩ := Except.bind_ok.mp h
  have first : c.Mentions keyword.cursor [] := by
    cases kind <;> exact expectWord_mentions word
  have list : name.cursor.Mentions own.cursor (own.value.flatMap ParamDecl.lookups) := by
    split at params
    · obtain ⟨list, written, params⟩ := Except.bind_ok.mp params
      cases params
      exact optionalParams_mentions written
    · cases params
      exact .refl _
  have head := list.after (first.past (expectName_past named))
  simp only at h
  split at h
  · obtain ⟨opening, brace, h⟩ := Except.bind_ok.mp h
    have := (((keyword.follows.then name.follows).trans own.reaches).then opening.follows).lt
    have : (opening.cursor.atDepth 0).skipSeparators.left ≤ opening.cursor.left :=
      left_skipSeparators_le _
    obtain ⟨body, inner, h⟩ := Except.bind_ok.mp h
    obtain ⟨closing, last, h⟩ := Except.bind_ok.mp h
    cases h
    have front : own.cursor.Mentions (opening.cursor.atDepth 0) [] :=
      expectMark_mentions brace (by decide)
    have back : body.cursor.Mentions closing.cursor [] := expectMark_mentions last (by decide)
    simpa only [Container.lookups] using head.trans
      (((members_mentions inner).after (front.past (mentions_skipSeparators _))).past back)
  · split at h
    · cases h
    · cases h
      simpa [Container.lookups, Member.lookupsAll] using head
termination_by 4 * c.left
decreasing_by all_goals omega

theorem members_mentions {c : Cursor} {r : Extended (List Member) c} (h : members c = .ok r) :
    c.Mentions r.cursor (Member.lookupsAll r.value) := by
  unfold members at h
  split at h
  · cases h
    exact .refl c
  · split at h
    · cases h
    · obtain ⟨first, own, h⟩ := Except.bind_ok.mp h
      have mentions := member_mentions own
      split at h
      · cases h
        simpa [Member.lookupsAll] using mentions
      · split at h
        · have := first.follows.lt
          have := left_skipSeparators_le first.cursor
          obtain ⟨rest, more, h⟩ := Except.bind_ok.mp h
          cases h
          simpa only [Member.lookupsAll] using
            mentions.trans ((members_mentions more).after (mentions_skipSeparators _))
        · cases h
termination_by 4 * c.left + 2
decreasing_by all_goals omega

theorem member_mentions {c : Cursor} {p : Parsed Member c} (h : member c = .ok p) :
    c.Mentions p.cursor p.value.lookups := by
  have before := modifiers_mentions {} c
  have := (modifiers {} c).reaches.le
  have way := member_at h
  generalize p.value = value, p.cursor = d at way ⊢
  cases way with
  | imports word read => simpa only [Member.lookups] using importDecl_mentions read
  | val word inside read named ascribed defined =>
    simpa only [Member.lookups, ValDecl.lookups, ascribed, defined] using
      (valBinding_mentions read).after before
  | func word inside read => simpa only [Member.lookups] using (defDecl_mentions read).after before
  | foreign outside read =>
    simpa only [Member.lookups] using (foreignDecl_mentions read).after before
  | container word bare read =>
    simpa only [Member.lookups] using (container_mentions read).after before
  | expr bare read => simpa only [Member.lookups] using (expr_mentions read).after before
termination_by 4 * c.left + 1
decreasing_by all_goals omega

end

end Members

end Parser

end ScriptShell
