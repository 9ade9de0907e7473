import ScriptShell.Proofs.Containment.Phrases
import Mathlib.Data.List.Forall2

/-!
Members and bodies. A body whose text is a list of statements, each on lines of its own, has one
member for each of them: no member ends inside a statement, and none goes on into the next one.
-/
namespace ScriptShell

/-- The word that says what a statement is: the first token behind its modifiers. -/
def Fragment.word? (tokens : List Token) : Option Keyword :=
  match tokens.dropWhile (isModifier ·.kind) with
  | ⟨.keyword word, _, _⟩ :: _ => some word
  | _ => none

theorem Fragment.word?_modifier {token : Token} {rest : List Token} {word : Keyword}
    (kind : token.kind = .keyword word) (h : isModifier (.keyword word) = true) :
    word? (token :: rest) = word? rest := by
  rw [word?, List.dropWhile_cons_of_pos (by simp [kind, h])]
  rfl

theorem Fragment.word?_keyword {token : Token} {rest : List Token} {word : Keyword}
    (kind : token.kind = .keyword word) (h : isModifier (.keyword word) = false) :
    word? (token :: rest) = some word := by
  obtain ⟨_, lexeme, span⟩ := token
  cases kind
  rw [word?, List.dropWhile_cons_of_neg (by simp [h])]

/-- The word that a kind of container is written with. -/
def ContainerKind.word : ContainerKind → Keyword
  | .moduleKind => .kwModule
  | .classKind => .kwClass

/-- The word that a member is written with. -/
def Member.word? : Member → Option Keyword
  | .imports _ => some .kwImport
  | .val _ => some .kwVal
  | .func _ => some .kwDef
  | .foreign _ => some .kwExtern
  | .container decl => some decl.kind.word
  | .expr _ _ => none

namespace Parser

open Cursor

theorem selector_skims {name : String} {c : Cursor} {r : Extended Selection c}
    (h : selector name c = .ok r) : c.Skims r.cursor := by
  unfold selector at h
  split at h
  · cases h
    exact .refl c
  · split at h
    · next arrow =>
      obtain ⟨bound, named, h⟩ := Except.bind_ok.mp h
      cases h
      exact ((passes_mark arrow rfl rfl).skims.trans (skims_skipNewlines _)).trans
        (expectName_completes named).skims
    · cases h
      exact .refl c

theorem selectorList_skims {c : Cursor} {p : Parsed Selection c} (h : selectorList c = .ok p) :
    c.Skims p.cursor := by
  unfold selectorList at h
  obtain ⟨name, named, h⟩ := Except.bind_ok.mp h
  obtain ⟨own, taken, h⟩ := Except.bind_ok.mp h
  have first : c.Skims own.cursor.skipNewlines :=
    (((expectName_completes named).skims.trans (skims_skipNewlines _)).trans
      (selector_skims taken)).trans (skims_skipNewlines _)
  simp only at h
  split at h
  · next comma =>
    have := name.follows.lt
    have := left_skipNewlines_le name.cursor
    have := own.reaches.le
    have := left_skipNewlines_le own.cursor
    have := left_next_le own.cursor.skipNewlines
    have := left_skipNewlines_le own.cursor.skipNewlines.next
    obtain ⟨rest, more, h⟩ := Except.bind_ok.mp h
    cases h
    exact ((first.trans (passes_mark comma rfl rfl).skims).trans (skims_skipNewlines _)).trans
      (selectorList_skims more)
  · cases h
    exact first
termination_by c.left
decreasing_by all_goals omega

theorem importRest_completes {c : Cursor} {r : Extended (List String × Selection) c}
    (h : importRest c = .ok r) : Completes c r.cursor := by
  have depth := r.reaches.depth
  unfold importRest at h
  split at h
  · next dot =>
    have before := passes_mark dot rfl rfl
    simp only at h
    split at h
    · next brace =>
      obtain ⟨list, inner, h⟩ := Except.bind_ok.mp h
      obtain ⟨closing, last, h⟩ := Except.bind_ok.mp h
      cases h
      obtain ⟨stop, -, after⟩ := expectMark_ok last
      have body : c.next.next.Skims list.cursor :=
        (skims_skipNewlines _).trans (selectorList_skims inner)
      have group : Completes c.next closing.cursor :=
        reads_group brace rfl rfl body rfl stop rfl rfl (by rw [after]) depth
      refine before.then group ?_
      have := (follows_next (c := c.next) (by simp [brace])).lt
      have := left_skipNewlines_le c.next.next
      have := list.follows.lt
      have := closing.follows.lt
      show closing.cursor.left < c.next.left
      omega
    · obtain ⟨segment, named, h⟩ := Except.bind_ok.mp h
      have first : Completes c segment.cursor :=
        before.then (expectName_completes named) segment.follows.lt
      split at h
      · cases h
        exact first
      · have := segment.follows.lt
        have := left_next_le c
        obtain ⟨rest, more, h⟩ := Except.bind_ok.mp h
        cases h
        exact first.trans (importRest_completes more)
  · cases h
    exact .refl c
termination_by c.left
decreasing_by all_goals omega

theorem importDecl_completes {c : Cursor} {p : Parsed Import c} (h : importDecl c = .ok p) :
    Completes c p.cursor := by
  unfold importDecl at h
  obtain ⟨keyword, word, h⟩ := Except.bind_ok.mp h
  obtain ⟨first, named, h⟩ := Except.bind_ok.mp h
  simp only at h
  split at h
  · cases h
  · obtain ⟨rest, more, h⟩ := Except.bind_ok.mp h
    have whole : Completes c rest.cursor :=
      ((expectWord_passes word).then (expectName_completes named) first.follows.lt).trans
        (importRest_completes more)
    split at h
    · cases h
      exact whole
    · split at h
      · cases h
      · cases h
        exact whole

theorem modifiers_passes (own : Modifiers) (c : Cursor) : Passes c (modifiers own c).cursor := by
  unfold modifiers
  split
  · exact .refl c
  · next more added =>
    have kind : ∃ word, c.kind = .keyword word := by
      unfold Modifiers.add? at added
      split at added
      all_goals first | exact ⟨_, ‹_›⟩ | cases added
    obtain ⟨word, kind⟩ := kind
    have := (follows_next (c := c) (by simp [kind])).lt
    have first : Passes c c.next := by
      apply reads_next <;> simp [kind] <;> rfl
    exact first.trans (modifiers_passes more c.next)
termination_by c.left
decreasing_by all_goals omega

theorem optionalParams_completes {c : Cursor} {r : Extended (List ParamDecl × Bool) c}
    (h : optionalParams c = .ok r) : Completes c r.cursor := by
  unfold optionalParams at h
  split at h
  · obtain ⟨list, own, h⟩ := Except.bind_ok.mp h
    cases h
    exact params_completes own
  · cases h
    exact .refl c

theorem foreignDecl_completes {c : Cursor} {p : Parsed ForeignDecl c}
    (h : foreignDecl c = .ok p) : Completes c p.cursor := by
  unfold foreignDecl at h
  obtain ⟨keyword, word, h⟩ := Except.bind_ok.mp h
  obtain ⟨name, named, h⟩ := Except.bind_ok.mp h
  obtain ⟨list, own, h⟩ := Except.bind_ok.mp h
  obtain ⟨colon, mark, h⟩ := Except.bind_ok.mp h
  obtain ⟨result, type, h⟩ := Except.bind_ok.mp h
  cases h
  have head : Completes c list.cursor :=
    ((expectWord_passes word).then (expectName_completes named) name.follows.lt).trans
      (params_completes own)
  exact (head.then (expectMark_passes mark rfl rfl) colon.follows.lt).then
    (typeRef_completes type) result.follows.lt

theorem defDecl_completes {implicit : Bool} {c : Cursor} {p : Parsed DefDecl c}
    (h : defDecl implicit c = .ok p) : Completes c p.cursor := by
  unfold defDecl at h
  obtain ⟨keyword, word, h⟩ := Except.bind_ok.mp h
  obtain ⟨name, named, h⟩ := Except.bind_ok.mp h
  obtain ⟨list, own, h⟩ := Except.bind_ok.mp h
  obtain ⟨result, type, h⟩ := Except.bind_ok.mp h
  obtain ⟨assign, mark, h⟩ := Except.bind_ok.mp h
  obtain ⟨body, value, h⟩ := Except.bind_ok.mp h
  cases h
  have head : Completes c result.cursor :=
    (((expectWord_passes word).then (expectName_completes named) name.follows.lt).trans
      (optionalParams_completes own)).trans (ascription_completes type)
  exact (expectAssign_demands head mark).line (expr_phrase value) body.follows.lt

/-- The ways to read a member: an import, or a definition behind its modifiers, or, where no
modifier stands, an expression. -/
inductive MemberAt (c : Cursor) : Member → Cursor → Prop where
  | imports {decl : Parsed Import c} (word : c.kind = .keyword .kwImport)
      (read : importDecl c = .ok decl) : MemberAt c (.imports decl.value) decl.cursor
  | val {own : Parsed ValBinding (modifiers {} c).cursor} {decl : ValDecl}
      (word : (modifiers {} c).cursor.kind = .keyword .kwVal)
      (inside : (modifiers {} c).value.isForeign = false) (read : valBinding _ = .ok own)
      (named : decl.name = own.value.name) (ascribed : decl.ascription = own.value.ascription)
      (defined : decl.init = own.value.init) : MemberAt c (.val decl) own.cursor
  | func {implicit : Bool} {decl : Parsed DefDecl (modifiers {} c).cursor}
      (word : (modifiers {} c).cursor.kind = .keyword .kwDef)
      (inside : (modifiers {} c).value.isForeign = false) (read : defDecl implicit _ = .ok decl) :
      MemberAt c (.func decl.value) decl.cursor
  | foreign {decl : Parsed ForeignDecl (modifiers {} c).cursor}
      (outside : (modifiers {} c).value.isForeign = true) (read : foreignDecl _ = .ok decl) :
      MemberAt c (.foreign decl.value) decl.cursor
  | container {kind : ContainerKind} {decl : Parsed Container (modifiers {} c).cursor}
      (word : (modifiers {} c).cursor.kind = .keyword kind.word)
      (bare : (modifiers {} c).value.isNone = true) (read : container false kind _ = .ok decl) :
      MemberAt c (.container decl.value) decl.cursor
  | expr {span : Span} {value : Parsed Expr (modifiers {} c).cursor}
      (bare : (modifiers {} c).value.isNone = true) (read : expr _ = .ok value) :
      MemberAt c (.expr span value.value) value.cursor

theorem member_at {c : Cursor} {p : Parsed Member c} (h : member c = .ok p) :
    MemberAt c p.value p.cursor := by
  unfold member at h
  split at h
  · next word =>
    obtain ⟨decl, own, h⟩ := Except.bind_ok.mp h
    cases h
    exact .imports word own
  · split at h
    · cases h
    · simp only at h
      split at h
      · next word =>
        split at h
        · cases h
        · next inside =>
          split at h
          · cases h
          · obtain ⟨val, init, h⟩ := Except.bind_ok.mp h
            cases h
            exact .val word (by simpa using inside) init rfl rfl rfl
      · next word =>
        split at h
        · cases h
        · split at h
          · next outside =>
            split at h
            · cases h
            · obtain ⟨decl, own, h⟩ := Except.bind_ok.mp h
              cases h
              exact .foreign outside own
          · next inside =>
            obtain ⟨decl, own, h⟩ := Except.bind_ok.mp h
            cases h
            exact .func word (by simpa using inside) own
      · next word =>
        split at h
        · next bare =>
          obtain ⟨decl, own, h⟩ := Except.bind_ok.mp h
          cases h
          refine .container ?_ bare own
          exact word
        · cases h
      · next word =>
        split at h
        · next bare =>
          obtain ⟨decl, own, h⟩ := Except.bind_ok.mp h
          cases h
          refine .container ?_ bare own
          exact word
        · cases h
      · split at h
        · next bare =>
          obtain ⟨value, own, h⟩ := Except.bind_ok.mp h
          cases h
          exact .expr bare own
        · cases h

mutual

theorem container_completes {exported : Bool} {kind : ContainerKind} {c : Cursor}
    {p : Parsed Container c} (h : container exported kind c = .ok p) : Completes c p.cursor := by
  have depth := p.follows.reaches.depth
  unfold container at h
  obtain ⟨keyword, word, h⟩ := Except.bind_ok.mp h
  obtain ⟨name, named, h⟩ := Except.bind_ok.mp h
  obtain ⟨own, params, h⟩ := Except.bind_ok.mp h
  have first : Passes c keyword.cursor := by
    cases kind <;> exact expectWord_passes word
  have list : Completes name.cursor own.cursor := by
    split at params
    · obtain ⟨list, written, params⟩ := Except.bind_ok.mp params
      cases params
      exact optionalParams_completes written
    · cases params
      exact .refl _
  have head : Completes c own.cursor :=
    (first.then (expectName_completes named) name.follows.lt).trans list
  simp only at h
  split at h
  · obtain ⟨opening, brace, h⟩ := Except.bind_ok.mp h
    have start := (keyword.follows.then name.follows).trans own.reaches
    have := (start.then opening.follows).lt
    have : (opening.cursor.atDepth 0).skipSeparators.left ≤ opening.cursor.left :=
      left_skipSeparators_le _
    obtain ⟨body, inner, h⟩ := Except.bind_ok.mp h
    obtain ⟨closing, last, h⟩ := Except.bind_ok.mp h
    cases h
    have same : closing.cursor.depth = own.cursor.depth := depth.trans start.reaches.depth.symm
    exact head.trans (completes_braces brace (members_skims inner) last same)
  · split at h
    · cases h
    · cases h
      exact head
termination_by 4 * c.left
decreasing_by all_goals omega

theorem members_skims {c : Cursor} {r : Extended (List Member) c} (h : members c = .ok r) :
    c.Skims r.cursor := by
  unfold members at h
  split at h
  · cases h
    exact .refl c
  · split at h
    · cases h
    · obtain ⟨first, own, h⟩ := Except.bind_ok.mp h
      have skims := (member_completes own).skims
      split at h
      · cases h
        exact skims
      · split at h
        · have := first.follows.lt
          have := left_skipSeparators_le first.cursor
          obtain ⟨rest, more, h⟩ := Except.bind_ok.mp h
          cases h
          exact (skims.trans (skims_skipSeparators _)).trans (members_skims more)
        · cases h
termination_by 4 * c.left + 2
decreasing_by all_goals omega

theorem member_completes {c : Cursor} {p : Parsed Member c} (h : member c = .ok p) :
    Completes c p.cursor := by
  have before := modifiers_passes {} c
  have := (modifiers {} c).reaches.le
  have way := member_at h
  generalize p.value = value, p.cursor = d at way ⊢
  cases way with
  | imports word read => exact importDecl_completes read
  | val word inside read => exact before.then (valBinding_completes read) (Parsed.follows _).lt
  | func word inside read => exact before.then (defDecl_completes read) (Parsed.follows _).lt
  | foreign outside read => exact before.then (foreignDecl_completes read) (Parsed.follows _).lt
  | container word bare read => exact before.then (container_completes read) (Parsed.follows _).lt
  | expr bare read => exact before.then (expr_phrase read).completes (Parsed.follows _).lt
termination_by 4 * c.left + 1
decreasing_by all_goals omega

end

theorem modifiers_of_none {own : Modifiers} {c : Cursor} (h : own.add? c.kind = none) :
    modifiers own c = ⟨own, c, .refl c⟩ := by
  unfold modifiers
  split
  · rfl
  · next more added => rw [h] at added; cases added

/-- A member starts like a statement or like an expression. -/
theorem member_opens {c : Cursor} {p : Parsed Member c} (h : member c = .ok p) :
    c.kind.opensStatement = true ∨ c.kind.opensExpression = true := by
  cases added : Modifiers.add? {} c.kind with
  | some more =>
    left
    unfold Modifiers.add? at added
    split at added
    all_goals first | cases added; done | (next word => rw [word]; rfl)
  | none =>
    have way := member_at h
    generalize p.value = value, p.cursor = d at way
    have start : (modifiers {} c).cursor = c := by rw [modifiers_of_none added]
    cases way with
    | imports word read => exact .inl (by rw [word]; rfl)
    | val word inside read => exact .inl (by rw [← start, word]; rfl)
    | func word inside read => exact .inl (by rw [← start, word]; rfl)
    | foreign outside read => rw [modifiers_of_none added] at outside; cases outside
    | @container kind decl word bare read => exact .inl (by rw [← start, word]; cases kind <;> rfl)
    | expr bare read =>
      have opens := (expr_phrase read).opens
      rw [start] at opens
      exact .inr opens

/-- The ways to read a top-level definition: an import, or a container, perhaps exported. -/
inductive TopLevelAt (c : Cursor) : TopLevel → Cursor → Prop where
  | imports {decl : Parsed Import c} (word : c.kind = .keyword .kwImport)
      (read : importDecl c = .ok decl) : TopLevelAt c (.imports decl.value) decl.cursor
  | item {start : Cursor} {exported : Bool} {kind : ContainerKind} {decl : Parsed Container start}
      (front : exported = false ∧ start = c ∨
        exported = true ∧ c.kind = .keyword .kwExport ∧ start = c.next)
      (read : container exported kind start = .ok decl) :
      TopLevelAt c (.item decl.value) decl.cursor

theorem topLevel_at {c : Cursor} {p : Parsed TopLevel c} (h : topLevel c = .ok p) :
    TopLevelAt c p.value p.cursor := by
  have front : (c.kind == .keyword .kwExport) = false ∧
      (if c.kind == .keyword .kwExport then c.next else c) = c ∨
      (c.kind == .keyword .kwExport) = true ∧ c.kind = .keyword .kwExport ∧
      (if c.kind == .keyword .kwExport then c.next else c) = c.next := by
    by_cases word : c.kind = .keyword .kwExport <;> simp [word]
  unfold topLevel at h
  split at h
  · next word =>
    obtain ⟨decl, own, h⟩ := Except.bind_ok.mp h
    cases h
    exact .imports word own
  · simp only at h
    split at h
    · obtain ⟨decl, own, h⟩ := Except.bind_ok.mp h
      cases h
      exact .item front own
    · obtain ⟨decl, own, h⟩ := Except.bind_ok.mp h
      cases h
      exact .item front own
    · cases h

theorem topLevel_completes {c : Cursor} {p : Parsed TopLevel c} (h : topLevel c = .ok p) :
    Completes c p.cursor := by
  have way := topLevel_at h
  generalize p.value = value, p.cursor = d at way ⊢
  cases way with
  | imports word read => exact importDecl_completes read
  | item front read =>
    rcases front with ⟨-, rfl⟩ | ⟨-, word, rfl⟩
    · exact container_completes read
    · have first : Passes c c.next := by
        apply reads_next <;> simp [word] <;> rfl
      exact first.then (container_completes read) (Parsed.follows _).lt

/-- A container starts with its word and its name. -/
theorem container_front {exported : Bool} {kind : ContainerKind} {c : Cursor}
    {p : Parsed Container c} (h : container exported kind c = .ok p) :
    c.kind = .keyword kind.word ∧ p.value.kind = kind ∧ p.value.exported = exported ∧
      p.value.name = c.next.current.lexeme := by
  unfold container at h
  obtain ⟨⟨_, behind, _⟩, word, h⟩ := Except.bind_ok.mp h
  obtain ⟨name, named, h⟩ := Except.bind_ok.mp h
  obtain ⟨own, params, h⟩ := Except.bind_ok.mp h
  have first : c.kind = .keyword kind.word ∧ behind = c.next := by
    cases kind <;> exact ⟨(expectWord_ok word).1, (expectWord_ok word).2.2⟩
  obtain ⟨first, rfl⟩ := first
  have second := (expectName_ok named).2.1
  simp only at h
  split at h
  · obtain ⟨opening, brace, h⟩ := Except.bind_ok.mp h
    obtain ⟨body, inner, h⟩ := Except.bind_ok.mp h
    obtain ⟨closing, last, h⟩ := Except.bind_ok.mp h
    cases h
    exact ⟨first, rfl, rfl, congrArg Token.lexeme second⟩
  · split at h
    · cases h
    · cases h
      exact ⟨first, rfl, rfl, congrArg Token.lexeme second⟩

theorem topLevel_opens {c : Cursor} {p : Parsed TopLevel c} (h : topLevel c = .ok p) :
    c.kind.opensStatement = true := by
  have way := topLevel_at h
  generalize p.value = value, p.cursor = d at way
  cases way with
  | imports word read => rw [word]; rfl
  | @item start exported kind decl front read =>
    rcases front with ⟨-, rfl⟩ | ⟨-, word, -⟩
    · rw [(container_front read).1]; cases kind <;> rfl
    · rw [word]; rfl

end Parser

/-- Statements, each with at least one newline behind it. -/
inductive Lines : List (List Token) → List Token → Prop where
  | nil : Lines [] []
  | cons {part lines rest : List Token} {parts : List (List Token)} (statement : Statement part)
      (some : lines ≠ []) (newlines : ∀ line ∈ lines, line.kind = .newline)
      (others : Lines parts rest) : Lines (part :: parts) (part ++ (lines ++ rest))

/-- A token with which a body goes on behind a statement, or ends. -/
def TokenKind.isEdge (kind : TokenKind) : Bool :=
  kind.opensStatement || kind = .punct .closeBrace

theorem Lines.head {parts : List (List Token)} {body rest : List Token} (h : Lines parts body)
    (edge : ∀ next ∈ rest.head?, next.kind.isEdge = true) :
    ∀ next ∈ (body ++ rest).head?, next.kind.isEdge = true := by
  cases h with
  | nil => exact edge
  | cons statement some newlines others =>
    intro next mem
    obtain ⟨first, head, opens⟩ := statement.opens
    rw [List.append_assoc, List.head?_append, Option.mem_def.mp head] at mem
    obtain rfl : first = next := by simpa using mem
    simp [TokenKind.isEdge, opens]

namespace Cursor

variable {c d : Cursor}

theorem current_of_rest {token : Token} {rest : List Token} (outside : c.depth = 0)
    (split : c.rest = token :: rest) : c.current = token := by
  rw [current, visible, if_pos outside, split]
  rfl

theorem kind_of_rest {token : Token} {rest : List Token} (outside : c.depth = 0)
    (split : c.rest = token :: rest) : c.kind = token.kind :=
  congrArg Token.kind (current_of_rest outside split)

theorem kind_opens {part rest : List Token} (statement : Statement part)
    (outside : c.depth = 0) (split : c.rest = part ++ rest) : c.kind.opensStatement = true := by
  obtain ⟨first, head, opens⟩ := statement.opens
  obtain ⟨others, rfl⟩ := List.head?_eq_some_iff.mp head
  rw [kind_of_rest outside split]
  exact opens

/-- Where a statement resumes, the next token behind the separators is `else` or `.`. -/
theorem dropWhile_of_resumes {back : List Token} (after : List Token)
    (h : Fragment.resumes back = true) :
    ∃ token rest, (back ++ after).dropWhile (·.kind.isSeparator) = token :: rest ∧
      (token.kind = .keyword .kwElse ∨ token.kind = .punct .dot) := by
  induction back with
  | nil => cases h
  | cons token back ih =>
    by_cases newline : token.kind = .newline
    · obtain ⟨next, rest, shown, kind⟩ := ih (by simpa [Fragment.resumes, newline] using h)
      exact ⟨next, rest, by simpa [newline, TokenKind.isSeparator] using shown, kind⟩
    · have kind : token.kind = .keyword .kwElse ∨ token.kind = .punct .dot := by
        simpa [Fragment.resumes, newline] using h
      refine ⟨token, back ++ after, ?_, kind⟩
      rcases kind with kind | kind <;> simp [kind, TokenKind.isSeparator]

theorem next_of_rest {token : Token} {rest : List Token} (outside : c.depth = 0)
    (split : c.rest = token :: rest) : c.next.rest = rest := by
  rw [next, visible, if_pos outside, split]
  rfl

/-- A reading that starts with a statement and stops where a body can go on ends with the
statement. -/
theorem Reads.exact {part lines after : List Token} (statement : Statement part)
    (some : lines ≠ []) (newlines : ∀ line ∈ lines, line.kind = .newline)
    (edge : ∀ next ∈ after.head?, next.kind.isEdge = true) (outside : c.depth = 0)
    (split : c.rest = part ++ (lines ++ after)) (read : Completes c d)
    (stops : d.kind = .punct .closeBrace ∨ d.kind = .endOfInput ∨ d.kind.isSeparator = true ∧
      d.skipSeparators.kind ≠ .keyword .kwElse ∧ d.skipSeparators.kind ≠ .punct .dot) :
    d.rest = lines ++ after := by
  obtain ⟨read, took⟩ := read
  have depth : d.depth = 0 := took.depth.trans outside
  have ending : ∀ last ∈ read.getLast?, last.kind ≠ .newline := by
    intro last mem newline
    have := took.last last mem
    rw [newline] at this
    cases this
  rw [took.rest] at split
  rcases List.append_eq_append_iff.mp split with ⟨more, rfl, tail⟩ | ⟨more, rfl, tail⟩
  · cases more with
    | nil => exact tail
    | cons mark back =>
      -- it would stop inside the statement
      exfalso
      have kind : d.kind = mark.kind := kind_of_rest depth tail
      rw [kind] at stops
      rcases stops with closes | ends | ⟨separates, goes⟩
      · have opener : mark.kind.opener? = Option.some (.punct .openBrace) := by rw [closes]; rfl
        exact took.balanced.not_closing (by rw [closes]; rfl) opener statement.balanced
      · exact statement.solid mark (by simp) ends
      · rcases statement.bridged read mark back rfl separates took.balanced with
          ⟨last, mem, continues⟩ | resumes
        · have closes := took.last last mem
          rw [TokenKind.closesStatement, continues] at closes
          cases closes
        · obtain ⟨token, rest, shown, word⟩ := dropWhile_of_resumes (lines ++ after) resumes
          have here : d.skipSeparators.rest = token :: rest := by
            rw [skipSeparators, tail, List.cons_append,
              List.dropWhile_cons_of_pos (by simpa using separates)]
            exact shown
          rw [kind_of_rest (c := d.skipSeparators) depth here] at goes
          exact word.elim goes.1 goes.2
  · cases more with
    | nil => exact tail.symm
    | cons first others =>
      -- it would go on behind the statement
      exfalso
      obtain ⟨front, line, rfl⟩ := (List.eq_nil_or_concat' lines).resolve_left some
      have newline : line.kind = .newline := newlines line (by simp)
      have before : Balanced (part ++ front) :=
        statement.balanced.append (.newlines fun token mem => newlines token (by simp [mem]))
      rcases List.append_eq_append_iff.mp tail with ⟨more, beyond, rest⟩ | ⟨more, beyond, -⟩
      · rw [beyond] at took ending
        cases more with
        | nil => exact ending line (by simp) newline
        | cons next more =>
          have split : part ++ (front ++ [line] ++ next :: more) =
              (part ++ front) ++ line :: next :: more := by simp
          have kind : next.kind.isEdge = true := edge next (by rw [rest]; rfl)
          rcases Bool.or_eq_true_iff.mp kind with opens | closes
          · obtain ⟨-, ⟨other, mem, plain⟩, -⟩ := took.unbroken outside (part ++ front) line
              (next :: more) split (by rw [newline]; rfl) before
            obtain rfl : next = other := by simpa using mem
            rw [plain] at opens
            cases opens
          · have closes : next.kind = .punct .closeBrace := by simpa using closes
            have full : Balanced ((part ++ front) ++ [line]) :=
              before.append (.newlines (by simpa using newline))
            have opener : next.kind.opener? = Option.some (.punct .openBrace) := by rw [closes]; rfl
            have whole : Balanced (((part ++ front) ++ [line]) ++ next :: more) := by
              simpa using took.balanced
            exact full.not_closing (by rw [closes]; rfl) opener whole
      · have mem : (part ++ first :: others).getLast? = _ :=
          (List.getLast?_append_of_ne_nil part (by simp)).trans List.getLast?_cons
        have among := List.mem_of_getLast? (List.getLast?_cons (a := first) (l := others))
        exact ending _ mem (newlines _ (by rw [beyond]; exact List.mem_append_left _ among))

theorem skipSeparators_rest {lines after : List Token}
    (newlines : ∀ line ∈ lines, line.kind = .newline)
    (edge : ∀ next ∈ after.head?, next.kind.isEdge = true) (split : c.rest = lines ++ after) :
    c.skipSeparators.rest = after := by
  show c.rest.dropWhile (·.kind.isSeparator) = after
  rw [split, List.dropWhile_append_of_pos]
  · cases after with
    | nil => rfl
    | cons next rest =>
      have opens := edge next rfl
      apply List.dropWhile_cons_of_neg
      intro separates
      have kinds : next.kind = .newline ∨ next.kind = .punct .semicolon := by
        simpa [TokenKind.isSeparator] using separates
      rcases kinds with kind | kind <;> rw [kind] at opens <;> cases opens
  · intro line mem
    simp [TokenKind.isSeparator, newlines line mem]

theorem kind_newline {lines after : List Token} (outside : c.depth = 0) (some : lines ≠ [])
    (newlines : ∀ line ∈ lines, line.kind = .newline) (split : c.rest = lines ++ after) :
    c.kind = .newline := by
  obtain ⟨line, others, rfl⟩ := List.exists_cons_of_ne_nil some
  rw [kind_of_rest outside split]
  exact newlines line (by simp)

theorem atDepth_self {depth : Nat} (same : c.depth = depth) : c.atDepth depth = c := by
  subst same
  rfl

theorem kind_closing {closing : Token} {rest : List Token} (outside : c.depth = 0)
    (closes : closing.kind = .punct .closeBrace) (split : c.rest = closing :: rest) :
    c.kind = .punct .closeBrace :=
  (kind_of_rest outside split).trans closes

end Cursor

namespace Parser

open Cursor

/-- A member that is read from the tokens of a statement, all of them and no others. -/
def MemberOf (part : List Token) (value : Member) : Prop :=
  ∃ (c : Cursor) (p : Parsed Member c), c.depth = 0 ∧ c.rest = part ++ p.cursor.rest ∧
    member c = .ok p ∧ p.value = value

/-- A top-level definition that is read from the tokens of a statement, all of them and no
others. -/
def TopLevelOf (part : List Token) (value : TopLevel) : Prop :=
  ∃ (c : Cursor) (p : Parsed TopLevel c), c.depth = 0 ∧ c.rest = part ++ p.cursor.rest ∧
    topLevel c = .ok p ∧ p.value = value

theorem members_goes {c : Cursor} {r : Extended (List Member) c} (h : members c = .ok r) :
    c.kind ≠ .keyword .kwElse ∧ c.kind ≠ .punct .dot := by
  unfold members at h
  split at h
  · next closes => simp [closes]
  · split at h
    · cases h
    · obtain ⟨first, own, -⟩ := Except.bind_ok.mp h
      have opens := member_opens own
      constructor <;> intro kind <;> rw [kind] at opens <;> rcases opens with opens | opens <;>
        cases opens

/-- A body of statements has one member for each of them. -/
theorem members_lines {parts : List (List Token)} {body rest : List Token} {closing : Token}
    (lines : Lines parts body) (closes : closing.kind = .punct .closeBrace) {c : Cursor}
    {r : Extended (List Member) c} (outside : c.depth = 0) (split : c.rest = body ++ closing :: rest)
    (h : members c = .ok r) :
    r.cursor.rest = closing :: rest ∧ List.Forall₂ MemberOf parts r.value := by
  induction lines generalizing c with
  | nil =>
    rw [members, if_pos (kind_closing outside closes split)] at h
    cases h
    exact ⟨split, .nil⟩
  | @cons part lines others parts statement some newlines tail ih =>
    have edge : ∀ next ∈ (others ++ closing :: rest).head?, next.kind.isEdge = true :=
      tail.head (by simp [TokenKind.isEdge, closes])
    have split : c.rest = part ++ (lines ++ (others ++ closing :: rest)) := by simpa using split
    have opens := kind_opens statement outside split
    rw [members, if_neg (by intro kind; rw [kind] at opens; cases opens),
      if_neg (by intro kind; rw [kind] at opens; cases opens)] at h
    obtain ⟨first, own, h⟩ := Except.bind_ok.mp h
    have depth : first.cursor.depth = 0 := first.follows.reaches.depth.trans outside
    split at h
    · next stops =>
      -- the newline behind the statement is still to come
      exfalso
      have behind := Reads.exact statement some newlines edge outside split (member_completes own)
        (.inl stops)
      rw [kind_newline depth some newlines behind] at stops
      cases stops
    · split at h
      · next stops =>
        obtain ⟨rest, more, h⟩ := Except.bind_ok.mp h
        cases h
        have behind := Reads.exact statement some newlines edge outside split
          (member_completes own) (.inr (.inr ⟨stops, members_goes more⟩))
        obtain ⟨left, read⟩ := ih (c := first.cursor.skipSeparators) depth
          (skipSeparators_rest newlines edge behind) more
        refine ⟨left, .cons ⟨c, first, outside, ?_, own, rfl⟩ read⟩
        rw [split, behind]
      · cases h

/-- A container with a body behind its name has no parameters, and the members that are read up to
its closing brace. -/
theorem container_inner {first rest : List Token} {brace : Token}
    (opens : brace.kind = .punct .openBrace) {exported : Bool} {kind : ContainerKind} {c : Cursor}
    {p : Parsed Container c} (outside : c.depth = 0) (two : first.length = 2)
    (split : c.rest = first ++ brace :: rest) (h : container exported kind c = .ok p) :
    p.value.params = [] ∧ ∃ (d : Cursor) (r : Extended (List Member) d.skipSeparators),
      d.depth = 0 ∧ d.rest = rest ∧ members d.skipSeparators = .ok r ∧ p.value.members = r.value ∧
        r.cursor.kind = .punct .closeBrace ∧ p.cursor.rest = r.cursor.next.rest := by
  obtain ⟨word, name, rfl⟩ := List.length_eq_two.mp two
  have start := next_of_rest outside split
  have second := next_of_rest (c := c.next) outside start
  have third := next_of_rest (c := c.next.next) outside second
  have found : c.next.next.kind = .punct .openBrace := (kind_of_rest (c := c.next.next) outside second).trans opens
  unfold container at h
  obtain ⟨⟨_, behind, _⟩, word, h⟩ := Except.bind_ok.mp h
  obtain rfl : behind = c.next := by
    cases kind <;> exact (expectWord_ok word).2.2
  obtain ⟨⟨_, behind, _⟩, named, h⟩ := Except.bind_ok.mp h
  obtain rfl : behind = c.next.next := (expectName_ok named).2.2
  obtain ⟨⟨params, behind, _⟩, own, h⟩ := Except.bind_ok.mp h
  have none : params = [] ∧ behind = c.next.next := by
    split at own
    · rw [optionalParams, if_neg (by rw [found]; simp)] at own
      cases own
      exact ⟨rfl, rfl⟩
    · cases own
      exact ⟨rfl, rfl⟩
  obtain ⟨rfl, rfl⟩ := none
  simp only [found, if_true] at h
  obtain ⟨⟨_, behind, _⟩, mark, h⟩ := Except.bind_ok.mp h
  obtain rfl : behind = c.next.next.next := (expectMark_ok mark).2.2
  obtain ⟨inner, read, h⟩ := Except.bind_ok.mp h
  obtain ⟨last, closes, h⟩ := Except.bind_ok.mp h
  cases h
  have same : inner.cursor.atDepth c.depth = inner.cursor :=
    atDepth_self (inner.reaches.depth.trans outside.symm)
  obtain ⟨closing, -, behind⟩ := expectMark_ok closes
  rw [same] at closing
  exact ⟨rfl, c.next.next.next.atDepth 0, inner, rfl, third, read, rfl, closing,
    by rw [behind, same]⟩

/-- The members of a container whose body is a list of statements. -/
theorem container_lines {parts : List (List Token)} {first lines body rest : List Token}
    {brace closing : Token} (statements : Lines parts body) (opens : brace.kind = .punct .openBrace)
    (newlines : ∀ line ∈ lines, line.kind = .newline) (closes : closing.kind = .punct .closeBrace)
    {exported : Bool} {kind : ContainerKind} {c : Cursor} {p : Parsed Container c}
    (outside : c.depth = 0) (two : first.length = 2)
    (split : c.rest = first ++ brace :: (lines ++ (body ++ closing :: rest)))
    (h : container exported kind c = .ok p) :
    p.value.params = [] ∧ List.Forall₂ MemberOf parts p.value.members := by
  obtain ⟨none, d, r, depth, start, read, members, -⟩ := container_inner opens outside two split h
  have edge : ∀ next ∈ (body ++ closing :: rest).head?, next.kind.isEdge = true :=
    statements.head (by simp [TokenKind.isEdge, closes])
  refine ⟨none, members ▸ ?_⟩
  exact (members_lines (c := d.skipSeparators) statements closes depth
    (skipSeparators_rest newlines edge start) read).2

theorem topLevels_goes {c : Cursor} {found : List TopLevel} (h : topLevels c = .ok found) :
    c.kind ≠ .keyword .kwElse ∧ c.kind ≠ .punct .dot := by
  unfold topLevels at h
  split at h
  · next ends => simp [ends]
  · obtain ⟨first, own, -⟩ := Except.bind_ok.mp h
    have opens := topLevel_opens own
    constructor <;> intro kind <;> rw [kind] at opens <;> cases opens

/-- A unit of statements has one top-level definition for each of them. -/
theorem topLevels_lines {parts : List (List Token)} {body : List Token}
    (lines : Lines parts body) {c : Cursor} {found : List TopLevel} (outside : c.depth = 0)
    (split : c.rest = body) (h : topLevels c = .ok found) :
    List.Forall₂ TopLevelOf parts found := by
  induction lines generalizing c found with
  | nil =>
    have ends : c.kind = .endOfInput := by
      rw [kind, current, visible, if_pos outside, split]
      exact c.ends
    rw [topLevels, if_pos ends] at h
    cases h
    exact .nil
  | @cons part lines others parts statement some newlines tail ih =>
    have edge : ∀ next ∈ others.head?, next.kind.isEdge = true := by
      simpa using tail.head (show ∀ next ∈ ([] : List Token).head?, next.kind.isEdge = true by simp)
    have opens := kind_opens statement outside split
    rw [topLevels, if_neg (by intro kind; rw [kind] at opens; cases opens)] at h
    obtain ⟨first, own, h⟩ := Except.bind_ok.mp h
    have depth : first.cursor.depth = 0 := first.follows.reaches.depth.trans outside
    split at h
    · next stops =>
      obtain ⟨rest, more, h⟩ := Except.bind_ok.mp h
      cases h
      have stops : first.cursor.kind = .endOfInput ∨ first.cursor.kind.isSeparator = true := by
        simpa using stops
      have behind := Reads.exact statement some newlines edge outside split
        (topLevel_completes own) (.inr (stops.imp_right fun stops => ⟨stops, topLevels_goes more⟩))
      refine .cons ⟨c, first, outside, ?_, own, rfl⟩
        (ih (c := first.cursor.skipSeparators) depth
          (skipSeparators_rest newlines edge behind) more)
      rw [split, behind]
    · cases h

theorem modifiers_foreign {own : Modifiers} (c : Cursor) (h : own.isForeign = true) :
    (modifiers own c).value.isForeign = true := by
  unfold modifiers
  split
  · exact h
  · next more added =>
    have := (follows_next (c := c) (by intro stop; simp [stop, Modifiers.add?] at added)).lt
    apply modifiers_foreign c.next
    unfold Modifiers.add? at added
    split at added <;> cases added
    all_goals first | exact h | rfl
termination_by c.left
decreasing_by all_goals omega

/-- The word behind the modifiers is the one behind those that the parser passes, unless it passes
`extern`. -/
theorem word_modifiers (own : Modifiers) {c : Cursor} (outside : c.depth = 0)
    (inside : own.isForeign = false) :
    Fragment.word? c.rest =
      if (modifiers own c).value.isForeign then some .kwExtern
      else Fragment.word? (modifiers own c).cursor.rest := by
  unfold modifiers
  split
  · simp [inside]
  · next more added =>
    have some : c.kind ≠ .endOfInput := by intro stop; simp [stop, Modifiers.add?] at added
    have := (follows_next some).lt
    obtain ⟨lines, -, none, split⟩ := rest_next some
    rw [none outside, List.nil_append] at split
    unfold Modifiers.add? at added
    split at added <;> cases added
    · next kind =>
      rw [split, Fragment.word?_modifier (show c.current.kind = _ from kind) rfl]
      exact word_modifiers _ (c := c.next) outside inside
    · next kind =>
      rw [split, Fragment.word?_modifier (show c.current.kind = _ from kind) rfl]
      exact word_modifiers _ (c := c.next) outside inside
    · next kind =>
      rw [split, Fragment.word?_modifier (show c.current.kind = _ from kind) rfl]
      exact word_modifiers _ (c := c.next) outside inside
    · next kind =>
      rw [split, Fragment.word?_keyword (show c.current.kind = _ from kind) rfl,
        if_pos (modifiers_foreign c.next rfl)]
termination_by c.left
decreasing_by all_goals omega

theorem word_at {c : Cursor} {word : Keyword} (outside : c.depth = 0)
    (kind : c.kind = .keyword word) (plain : Fragment.isModifier (.keyword word) = false) :
    Fragment.word? c.rest = some word := by
  obtain ⟨lines, -, none, split⟩ := rest_next (c := c) (by simp [kind])
  rw [split, none outside]
  exact Fragment.word?_keyword kind plain

theorem modifiers_ne {own : Modifiers} (c : Cursor) (h : own ≠ {}) :
    (modifiers own c).value ≠ {} := by
  unfold modifiers
  split
  · exact h
  · next more added =>
    have := (follows_next (c := c) (by intro stop; simp [stop, Modifiers.add?] at added)).lt
    apply modifiers_ne c.next
    unfold Modifiers.add? at added
    split at added <;> cases added <;> simp
termination_by c.left
decreasing_by all_goals omega

/-- Where the parser notes no modifier it passes none. -/
theorem modifiers_bare {c : Cursor} (h : (modifiers {} c).value = {}) :
    (modifiers {} c).cursor = c := by
  cases added : Modifiers.add? {} c.kind with
  | none => rw [modifiers_of_none added]
  | some more =>
    have some : (modifiers {} c).value = (modifiers more c.next).value := by
      rw [modifiers]
      split
      · next none => rw [added] at none; cases none
      · next other same => rw [added] at same; cases same; rfl
    have set : more ≠ {} := by
      unfold Modifiers.add? at added
      split at added <;> cases added <;> simp
    exact absurd (some.symm.trans h) (modifiers_ne c.next set)

/-- What the parser reads at a statement is a member of the kind that its word says. -/
theorem member_word {c : Cursor} {p : Parsed Member c} (outside : c.depth = 0)
    (opens : c.kind.opensStatement = true) (h : member c = .ok p) :
    ∃ word, p.value.word? = some word ∧ Fragment.word? c.rest = some word := by
  have words := word_modifiers {} outside rfl
  have depth : (modifiers {} c).cursor.depth = 0 := (modifiers {} c).reaches.depth.trans outside
  have way := member_at h
  generalize p.value = value, p.cursor = d at way ⊢
  cases way with
  | imports word read => exact ⟨_, rfl, word_at outside word rfl⟩
  | val word inside read =>
    rw [words, inside]
    exact ⟨_, rfl, word_at depth word rfl⟩
  | func word inside read =>
    rw [words, inside]
    exact ⟨_, rfl, word_at depth word rfl⟩
  | foreign outside read =>
    rw [words, if_pos outside]
    exact ⟨_, rfl, rfl⟩
  | @container kind decl word bare read =>
    have none : (modifiers {} c).value = {} := by simpa [Modifiers.isNone] using bare
    rw [words, none, Member.word?, (container_front read).2.1]
    exact ⟨_, rfl, word_at depth word (by cases kind <;> rfl)⟩
  | expr bare read =>
    have none : (modifiers {} c).value = {} := by simpa [Modifiers.isNone] using bare
    have first := (expr_phrase read).opens
    rw [modifiers_bare none] at first
    rw [TokenKind.opensExpression_not_statement first] at opens
    cases opens

end Parser

end ScriptShell
