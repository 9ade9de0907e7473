import ScriptShell.Proofs.Printing.Units

/-!
Members are read again. An import, a definition, a module or class, or a bare expression that was
read in front of a tail with which statements end is read again, apart from places, at every cursor
in front of the same tokens and another such tail.
-/
namespace ScriptShell

open Cursor

namespace Parser

variable {tail other : List Token}

section Imports

theorem selector_reads {name : String} {c d : Cursor} {r : Extended Selection c}
    (h : selector name c = .ok r) (inside : r.cursor.Inside tail) (alike : Alike tail other c d) :
    Regains tail other id r (selector name d) := by
  unfold selector at h ⊢
  split at h
  · next wild =>
    cases h
    exact ⟨_, if_pos wild, rfl, alike⟩
  · next plain =>
    rw [if_neg plain]
    split at h
    · next arrow =>
      obtain ⟨bound, named, h⟩ := Except.bind_ok.mp h
      cases h
      have line := inside.of_suffix bound.follows.reaches.rest
      have behind := line.of_suffix (reaches_skipNewlines _).rest
      have start := behind.of_suffix (reaches_next c).rest
      obtain ⟨bound', named', glyph, final⟩ :=
        expectName_reads named ((alike.next start).skipNewlines behind) inside.ahead.suffix
      refine ⟨_, (if_pos ((alike.kind_eq start).trans arrow)).trans
        (Except.bind_ok.mpr ⟨bound', named', rfl⟩), ?_, final⟩
      have text : bound'.value.lexeme = bound.value.lexeme := congrArg Prod.snd glyph
      simp only [id_eq, text]
    · next none =>
      cases h
      exact ⟨_, if_neg (by rwa [alike.kind_eq inside]), rfl, alike⟩

theorem selectorList_reads {c d : Cursor} {p : Parsed Selection c} (h : selectorList c = .ok p)
    (inside : p.cursor.Inside tail) (alike : Alike tail other c d) :
    Rereads tail other id p (selectorList d) := by
  unfold selectorList at h ⊢
  obtain ⟨name, named, h⟩ := Except.bind_ok.mp h
  obtain ⟨own, taken, h⟩ := Except.bind_ok.mp h
  -- the first selector, in front of a comma or the brace
  have front (reached : own.cursor.skipNewlines.Inside tail) : ∃ name' own',
      d.expectName "import selector" = .ok name' ∧
      selector name'.value.lexeme name'.cursor.skipNewlines = .ok own' ∧
      own'.value = own.value ∧
      Alike tail other own.cursor.skipNewlines own'.cursor.skipNewlines := by
    have before := reached.of_suffix (reaches_skipNewlines _).rest
    have start := before.of_suffix own.reaches.rest
    have behind := start.of_suffix (reaches_skipNewlines _).rest
    obtain ⟨name', named', glyph, onward⟩ := expectName_reads named alike behind.ahead.suffix
    obtain ⟨own', taken', same, onward⟩ :=
      selector_reads taken before (onward.skipNewlines behind)
    have text : name'.value.lexeme = name.value.lexeme := congrArg Prod.snd glyph
    exact ⟨name', own', named', text ▸ taken', same, onward.skipNewlines before⟩
  simp only at h
  split at h
  · next comma =>
    have := name.follows.lt
    have := left_skipNewlines_le name.cursor
    have := own.reaches.le
    have := left_skipNewlines_le own.cursor
    have := left_next_le own.cursor.skipNewlines
    have := left_skipNewlines_le own.cursor.skipNewlines.next
    obtain ⟨rest, more, h⟩ := Except.bind_ok.mp h
    cases h
    have line := inside.of_suffix rest.follows.reaches.rest
    have behind := line.of_suffix (reaches_skipNewlines _).rest
    have reached := behind.of_suffix (reaches_next own.cursor.skipNewlines).rest
    obtain ⟨name', own', named', taken', known, onward⟩ := front reached
    obtain ⟨rest', more', same, final⟩ :=
      selectorList_reads more inside ((onward.next reached).skipNewlines behind)
    exact ⟨_, Except.bind_ok.mpr ⟨name', named', Except.bind_ok.mpr ⟨own', taken',
      (if_pos ((onward.kind_eq reached).trans comma)).trans
        (Except.bind_ok.mpr ⟨rest', more', rfl⟩)⟩⟩, congrArg₂ Selection.append known same, final⟩
  · next none =>
    cases h
    obtain ⟨name', own', named', taken', known, onward⟩ := front inside
    exact ⟨_, Except.bind_ok.mpr ⟨name', named', Except.bind_ok.mpr ⟨own', taken',
      if_neg (by rwa [onward.kind_eq inside])⟩⟩, known, onward⟩
termination_by c.left
decreasing_by all_goals omega

theorem importRest_reads {c d : Cursor} {r : Extended (List String × Selection) c}
    (h : importRest c = .ok r) (ahead : r.cursor.Ahead tail) (alike : Alike tail other c d) :
    Regains tail other id r (importRest d) := by
  have dot : d.kind = .punct .dot ↔ c.kind = .punct .dot :=
    alike.kind_iff (ahead.of_reaches r.reaches) rfl
  unfold importRest at h ⊢
  split at h
  · next found =>
    rw [if_pos (dot.mpr found)]
    simp only at h
    split at h
    · next brace =>
      obtain ⟨list, inner, h⟩ := Except.bind_ok.mp h
      obtain ⟨closing, last, h⟩ := Except.bind_ok.mp h
      cases h
      have left := inside_of_mark last (by simp) ahead.suffix
      have line := left.of_suffix list.follows.reaches.rest
      have behind := line.of_suffix (reaches_skipNewlines _).rest
      have opens := behind.of_suffix (reaches_next c.next).rest
      have start := opens.of_suffix (reaches_next c).rest
      have onward := alike.next start
      obtain ⟨list', inner', same, onward'⟩ :=
        selectorList_reads inner left ((onward.next opens).skipNewlines behind)
      obtain ⟨closing', last', -, final⟩ := expectMark_reads last (by simp) onward' ahead.suffix
      refine ⟨_, (if_pos ((onward.kind_eq opens).trans brace)).trans
        (Except.bind_ok.mpr ⟨list', inner', Except.bind_ok.mpr ⟨closing', last', rfl⟩⟩), ?_, final⟩
      exact congrArg (Prod.mk ([] : List String)) same
    · next plain =>
      obtain ⟨segment, named, h⟩ := Except.bind_ok.mp h
      have reached : segment.cursor.Ahead tail := by
        split at h
        · cases h
          exact ahead
        · obtain ⟨rest, more, h⟩ := Except.bind_ok.mp h
          cases h
          exact ahead.of_reaches rest.reaches
      obtain ⟨found', -, cursor⟩ := expectName_ok named
      have second : c.next.Inside tail :=
        inside_of_next (by simp [found']) (by rw [found']; rfl) (cursor ▸ reached.suffix)
      have start := second.of_suffix (reaches_next c).rest
      have onward := alike.next start
      obtain ⟨segment', named', glyph, final⟩ := expectName_reads named onward reached.suffix
      have text : segment'.value.lexeme = segment.value.lexeme := congrArg Prod.snd glyph
      have other : ¬ d.next.kind = .punct .openBrace := by rwa [onward.kind_eq second]
      split at h
      · next wild =>
        cases h
        exact ⟨_, (if_neg other).trans (Except.bind_ok.mpr ⟨segment', named',
          if_pos (text.trans wild)⟩), rfl, final⟩
      · next name =>
        have := segment.follows.lt
        have := left_next_le c
        obtain ⟨rest, more, h⟩ := Except.bind_ok.mp h
        cases h
        obtain ⟨rest', more', same, final⟩ := importRest_reads more ahead final
        refine ⟨_, (if_neg other).trans (Except.bind_ok.mpr ⟨segment', named',
          (if_neg (by rwa [text])).trans (Except.bind_ok.mpr ⟨rest', more', rfl⟩)⟩), ?_, final⟩
        rw [id_eq, id_eq] at same
        simp only [id_eq, same, text]
  · next none =>
    cases h
    exact ⟨_, if_neg (mt dot.mp none), rfl, alike⟩
termination_by c.left
decreasing_by all_goals omega

theorem importDecl_reads {c d : Cursor} {p : Parsed Import c} (h : importDecl c = .ok p)
    (ahead : p.cursor.Ahead tail) (alike : Alike tail other c d) :
    Rereads tail other Import.unplaced p (importDecl d) := by
  unfold importDecl at h ⊢
  obtain ⟨keyword, word, h⟩ := Except.bind_ok.mp h
  obtain ⟨first, named, h⟩ := Except.bind_ok.mp h
  simp only at h
  split at h
  · cases h
  · next head =>
    obtain ⟨rest, more, h⟩ := Except.bind_ok.mp h
    have reached : rest.cursor.Ahead tail := by
      split at h
      · cases h
        exact ahead
      · split at h
        · cases h
        · cases h
          exact ahead
    have start := reached.of_reaches rest.reaches
    obtain ⟨keyword', word', -, onward⟩ :=
      expectWord_reads word alike (start.of_reaches first.follows.reaches).suffix
    obtain ⟨first', named', glyph, onward⟩ := expectName_reads named onward start.suffix
    obtain ⟨⟨value, behind, reaches⟩, more', same, final⟩ := importRest_reads more reached onward
    obtain rfl : value = rest.value := same
    have text : first'.value.lexeme = first.value.lexeme := congrArg Prod.snd glyph
    have other : ¬ first'.value.lexeme = "_" := by rwa [text]
    split at h
    · next takes =>
      cases h
      refine ⟨_, Except.bind_ok.mpr ⟨keyword', word', Except.bind_ok.mpr ⟨first', named',
        (if_neg other).trans (Except.bind_ok.mpr ⟨_, more', if_pos takes⟩)⟩⟩, ?_, final⟩
      simp only [Import.unplaced, text]
    · next none =>
      split at h
      · cases h
      · next last found =>
        cases h
        have found : rest.value.1.getLast? = some last := found
        refine ⟨⟨⟨keyword'.value.span, first'.value.lexeme, rest.value.1.dropLast, [⟨last, last⟩],
          false⟩, behind, (keyword'.follows.then first'.follows).trans reaches⟩,
          Except.bind_ok.mpr ⟨keyword', word', Except.bind_ok.mpr ⟨first', named',
          (if_neg other).trans (Except.bind_ok.mpr ⟨_, more', (if_neg none).trans ?_⟩)⟩⟩, ?_,
          final⟩
        · simp only [found]
          rfl
        · simp only [Import.unplaced, text]

end Imports

section Definitions

theorem modifiers_reads (own : Modifiers) {c d : Cursor}
    (inside : (modifiers own c).cursor.Inside tail) (alike : Alike tail other c d) :
    (modifiers own d).value = (modifiers own c).value ∧
      Alike tail other (modifiers own c).cursor (modifiers own d).cursor := by
  have kinds := alike.kind_eq (inside.of_suffix (modifiers own c).reaches.rest)
  cases added : own.add? c.kind with
  | none =>
    rw [modifiers_of_none added, modifiers_of_none (kinds ▸ added)]
    exact ⟨rfl, alike⟩
  | some more =>
    have step (e : Cursor) (found : own.add? e.kind = some more) :
        (modifiers own e).value = (modifiers more e.next).value ∧
          (modifiers own e).cursor = (modifiers more e.next).cursor := by
      rw [modifiers]
      split
      · next none => rw [found] at none; cases none
      · next other same => rw [found] at same; cases same; exact ⟨rfl, rfl⟩
    obtain ⟨value, cursor⟩ := step c added
    obtain ⟨value', cursor'⟩ := step d (kinds ▸ added)
    have := (follows_next (c := c) (by intro stop; simp [stop, Modifiers.add?] at added)).lt
    rw [cursor] at inside
    have start : c.Inside tail :=
      (inside.of_suffix (modifiers more c.next).reaches.rest).of_suffix (reaches_next c).rest
    rw [value, cursor, value', cursor']
    exact modifiers_reads more inside (alike.next start)
termination_by c.left
decreasing_by all_goals omega

theorem optionalParams_reads {c d : Cursor} {r : Extended (List ParamDecl × Bool) c}
    (h : optionalParams c = .ok r) (ahead : r.cursor.Ahead tail) (alike : Alike tail other c d) :
    Regains tail other (fun list => (list.1.map ParamDecl.unplaced, list.2)) r
      (optionalParams d) := by
  have paren : d.kind = .punct .openParen ↔ c.kind = .punct .openParen :=
    alike.kind_iff (ahead.of_reaches r.reaches) rfl
  unfold optionalParams at h ⊢
  split at h
  · next opens =>
    obtain ⟨list, own, h⟩ := Except.bind_ok.mp h
    cases h
    obtain ⟨list', own', same, final⟩ := params_reads own ahead.suffix alike
    exact ⟨_, (if_pos (paren.mpr opens)).trans (Except.bind_ok.mpr ⟨list', own', rfl⟩),
      congrArg (Prod.mk · true) same, final⟩
  · next none =>
    cases h
    exact ⟨_, if_neg (mt paren.mp none), rfl, alike⟩

theorem foreignDecl_reads {c d : Cursor} {p : Parsed ForeignDecl c} (h : foreignDecl c = .ok p)
    (ahead : p.cursor.Ahead tail) (alike : Alike tail other c d) :
    Rereads tail other ForeignDecl.unplaced p (foreignDecl d) := by
  unfold foreignDecl at h ⊢
  obtain ⟨keyword, word, h⟩ := Except.bind_ok.mp h
  obtain ⟨name, named, h⟩ := Except.bind_ok.mp h
  obtain ⟨list, own, h⟩ := Except.bind_ok.mp h
  obtain ⟨colon, mark, h⟩ := Except.bind_ok.mp h
  obtain ⟨result, type, h⟩ := Except.bind_ok.mp h
  cases h
  have typed := ahead.of_reaches result.follows.reaches
  have listed := typed.of_reaches colon.follows.reaches
  have start := listed.of_reaches list.follows.reaches
  obtain ⟨keyword', word', -, onward⟩ :=
    expectWord_reads word alike (start.of_reaches name.follows.reaches).suffix
  obtain ⟨name', named', glyph, onward⟩ := expectName_reads named onward start.suffix
  obtain ⟨list', own', same, onward⟩ := params_reads own listed.suffix onward
  obtain ⟨colon', mark', -, onward⟩ := expectMark_reads mark (by simp) onward typed.suffix
  obtain ⟨result', type', written, final⟩ := typeRef_reads type ahead onward
  refine ⟨_, Except.bind_ok.mpr ⟨keyword', word', Except.bind_ok.mpr ⟨name', named',
    Except.bind_ok.mpr ⟨list', own', Except.bind_ok.mpr ⟨colon', mark',
      Except.bind_ok.mpr ⟨result', type', rfl⟩⟩⟩⟩⟩, ?_, final⟩
  have text : name'.value.lexeme = name.value.lexeme := congrArg Prod.snd glyph
  simp only [ForeignDecl.unplaced, text, same, written]

theorem defDecl_reads {implicit : Bool} {c d : Cursor} {p : Parsed DefDecl c}
    (h : defDecl implicit c = .ok p) (ahead : p.cursor.Ahead tail)
    (alike : Alike tail other c d) :
    Rereads tail other DefDecl.unplaced p (defDecl implicit d) := by
  unfold defDecl at h ⊢
  obtain ⟨keyword, word, h⟩ := Except.bind_ok.mp h
  obtain ⟨name, named, h⟩ := Except.bind_ok.mp h
  obtain ⟨list, own, h⟩ := Except.bind_ok.mp h
  obtain ⟨result, type, h⟩ := Except.bind_ok.mp h
  obtain ⟨assign, mark, h⟩ := Except.bind_ok.mp h
  obtain ⟨body, value, h⟩ := Except.bind_ok.mp h
  cases h
  have inner := (expr_phrase value).completes.inside body.follows.lt ahead.suffix
  have behind : assign.cursor.Inside tail := inner.of_suffix (reaches_skipNewlines _).rest
  have typed := inside_of_mark mark (by simp) behind.ahead.suffix
  have listed := typed.of_suffix result.reaches.rest
  have start := listed.of_suffix list.reaches.rest
  obtain ⟨keyword', word', -, onward⟩ :=
    expectWord_reads word alike (start.of_suffix name.follows.reaches.rest).ahead.suffix
  obtain ⟨name', named', glyph, onward⟩ := expectName_reads named onward start.ahead.suffix
  obtain ⟨⟨⟨params, parens⟩, place, reaches⟩, own', same, onward⟩ :=
    optionalParams_reads own listed.ahead onward
  obtain ⟨result', type', written, onward⟩ := ascription_reads type typed.ahead onward
  obtain ⟨assign', mark', -, onward⟩ := expectMark_reads mark (by simp) onward behind.ahead.suffix
  obtain ⟨body', value', known, final⟩ := expr_reads value ahead (onward.skipNewlines behind)
  refine ⟨_, Except.bind_ok.mpr ⟨keyword', word', Except.bind_ok.mpr ⟨name', named',
    Except.bind_ok.mpr ⟨_, own', Except.bind_ok.mpr ⟨result', type',
      Except.bind_ok.mpr ⟨assign', mark', Except.bind_ok.mpr ⟨body', value', rfl⟩⟩⟩⟩⟩⟩, ?_, final⟩
  have text : name'.value.lexeme = name.value.lexeme := congrArg Prod.snd glyph
  simp only [Prod.mk.injEq] at same
  simp only [DefDecl.unplaced, text, same, written, known]

end Definitions

section Containers

/-- A member starts in front of every tail behind it. -/
theorem member_inside {c : Cursor} {p : Parsed Member c} (h : member c = .ok p)
    (behind : tail <:+ p.cursor.rest) : c.Inside tail :=
  (member_completes h).inside p.follows.lt behind

mutual

theorem container_reads {exported : Bool} {kind : ContainerKind} {c d : Cursor}
    {p : Parsed Container c} (h : container exported kind c = .ok p)
    (ahead : p.cursor.Ahead tail) (alike : Alike tail other c d) :
    Rereads tail other Container.unplaced p (container exported kind d) := by
  unfold container at h ⊢
  obtain ⟨keyword, word, h⟩ := Except.bind_ok.mp h
  obtain ⟨name, named, h⟩ := Except.bind_ok.mp h
  obtain ⟨own, params, h⟩ := Except.bind_ok.mp h
  -- the head of the container, in front of its body or of the tail
  have front (reached : own.cursor.Ahead tail) : ∃ keyword' name' own',
      (match kind with
        | .classKind => d.expectWord .kwClass "'class'"
        | .moduleKind => d.expectWord .kwModule "'module'") = .ok keyword' ∧
      keyword'.cursor.expectName
        (match kind with | .classKind => "class name" | .moduleKind => "module name") = .ok name' ∧
      (if kind = .classKind then (do
        let list ← optionalParams name'.cursor
        return ⟨list.value.1, list.cursor, list.reaches⟩)
      else return ⟨[], name'.cursor, .refl name'.cursor⟩ : Extend (List ParamDecl) _) = .ok own' ∧
      name'.value.lexeme = name.value.lexeme ∧
      own'.value.map ParamDecl.unplaced = own.value.map ParamDecl.unplaced ∧
      Alike tail other own.cursor own'.cursor := by
    have start := reached.of_reaches own.reaches
    have second := start.of_reaches name.follows.reaches
    obtain ⟨keyword', word', -, onward⟩ : Rereads tail other Token.glyph keyword
        (match kind with
          | .classKind => d.expectWord .kwClass "'class'"
          | .moduleKind => d.expectWord .kwModule "'module'") := by
      cases kind <;> exact expectWord_reads word alike second.suffix
    obtain ⟨name', named', glyph, onward⟩ := expectName_reads named onward start.suffix
    have text : name'.value.lexeme = name.value.lexeme := congrArg Prod.snd glyph
    split at params
    · next cls =>
      obtain ⟨list, written, params⟩ := Except.bind_ok.mp params
      cases params
      obtain ⟨list', written', same, onward⟩ := optionalParams_reads written reached onward
      exact ⟨keyword', name', _, word', named',
        (if_pos cls).trans (Except.bind_ok.mpr ⟨list', written', rfl⟩), text,
        congrArg Prod.fst same, onward⟩
    · next module =>
      cases params
      exact ⟨keyword', name', _, word', named', if_neg module, text, rfl, onward⟩
  simp only at h
  split at h
  · next brace =>
    obtain ⟨opening, first, h⟩ := Except.bind_ok.mp h
    have start := (keyword.follows.then name.follows).trans own.reaches
    have := (start.then opening.follows).lt
    have : (opening.cursor.atDepth 0).skipSeparators.left ≤ opening.cursor.left :=
      left_skipSeparators_le _
    obtain ⟨body, inner, h⟩ := Except.bind_ok.mp h
    obtain ⟨closing, last, h⟩ := Except.bind_ok.mp h
    cases h
    have shut : (body.cursor.atDepth c.depth).Inside tail :=
      inside_of_mark last (by simp) ahead.suffix
    have lines : (opening.cursor.atDepth 0).skipSeparators.Inside tail :=
      shut.of_suffix body.reaches.rest
    have before : (opening.cursor.atDepth 0).Inside tail :=
      lines.of_suffix (reaches_skipSeparators _).rest
    have open' : own.cursor.Inside tail := inside_of_mark first (by simp) before.ahead.suffix
    obtain ⟨keyword', name', own', word', named', params', text, known, onward⟩ := front open'.ahead
    obtain ⟨opening', first', -, onward'⟩ :=
      expectMark_reads first (by simp) onward before.ahead.suffix
    obtain ⟨body', inner', same, onward'⟩ :=
      members_reads inner shut ((onward'.atDepth rfl).skipSeparators before)
    obtain ⟨closing', last', -, final⟩ :=
      expectMark_reads last (by simp) (onward'.atDepth alike.depth) ahead.suffix
    refine ⟨_, Except.bind_ok.mpr ⟨keyword', word', Except.bind_ok.mpr ⟨name', named',
      Except.bind_ok.mpr ⟨own', params', (if_pos ((onward.kind_eq open').trans brace)).trans
        (Except.bind_ok.mpr ⟨opening', first', Except.bind_ok.mpr ⟨body', inner',
          Except.bind_ok.mpr ⟨closing', last', rfl⟩⟩⟩)⟩⟩⟩, ?_, final⟩
    simp only [Container.unplaced, text, known, same]
  · next bare =>
    split at h
    · cases h
    · next cls =>
      cases h
      obtain ⟨keyword', name', own', word', named', params', text, known, onward⟩ := front ahead
      have brace : own'.cursor.kind = .punct .openBrace ↔ own.cursor.kind = .punct .openBrace :=
        onward.kind_iff ahead rfl
      refine ⟨_, Except.bind_ok.mpr ⟨keyword', word', Except.bind_ok.mpr ⟨name', named',
        Except.bind_ok.mpr ⟨own', params', (if_neg (mt brace.mp bare)).trans (if_neg cls)⟩⟩⟩, ?_,
        onward⟩
      simp only [Container.unplaced, text, known]
termination_by 4 * c.left
decreasing_by all_goals omega

theorem members_reads {c d : Cursor} {r : Extended (List Member) c} (h : members c = .ok r)
    (inside : r.cursor.Inside tail) (alike : Alike tail other c d) :
    Regains tail other Member.unplacedAll r (members d) := by
  have same := alike.kind_eq (inside.of_suffix r.reaches.rest)
  unfold members at h ⊢
  rw [same]
  split at h
  · next closes =>
    cases h
    exact ⟨_, if_pos closes, rfl, alike⟩
  · next opens =>
    rw [if_neg opens]
    split at h
    · cases h
    · next goes =>
      rw [if_neg goes]
      obtain ⟨first, own, h⟩ := Except.bind_ok.mp h
      have reached : first.cursor.Inside tail := by
        split at h
        · cases h
          exact inside
        · split at h
          · obtain ⟨rest, more, h⟩ := Except.bind_ok.mp h
            cases h
            exact inside.of_suffix (rest.reaches.rest.trans (reaches_skipSeparators _).rest)
          · cases h
      obtain ⟨first', own', known, onward⟩ := member_reads own reached.ahead alike
      have kinds := onward.kind_eq reached
      split at h
      · next closes =>
        cases h
        exact ⟨_, Except.bind_ok.mpr ⟨first', own', if_pos (kinds.trans closes)⟩,
          congrArg (· :: []) known, onward⟩
      · next more =>
        split at h
        · next separates =>
          have := first.follows.lt
          have := left_skipSeparators_le first.cursor
          obtain ⟨rest, others, h⟩ := Except.bind_ok.mp h
          cases h
          obtain ⟨rest', others', values, final⟩ :=
            members_reads others inside (onward.skipSeparators reached)
          exact ⟨_, Except.bind_ok.mpr ⟨first', own', (if_neg (kinds ▸ more)).trans
            ((if_pos (kinds ▸ separates)).trans (Except.bind_ok.mpr ⟨rest', others', rfl⟩))⟩,
            congrArg₂ List.cons known values, final⟩
        · cases h
termination_by 4 * c.left + 2
decreasing_by all_goals omega

theorem member_reads {c d : Cursor} {p : Parsed Member c} (h : member c = .ok p)
    (ahead : p.cursor.Ahead tail) (alike : Alike tail other c d) :
    Rereads tail other Member.unplaced p (member d) := by
  have kinds := alike.kind_eq (member_inside h ahead.suffix)
  have := (modifiers {} c).reaches.le
  -- behind the modifiers the cursors are alike again
  have behind {e : Cursor} (read : Completes (modifiers {} c).cursor e)
      (lt : e.left < (modifiers {} c).cursor.left) (own : tail <:+ e.rest) :
      (modifiers {} d).value = (modifiers {} c).value ∧
        Alike tail other (modifiers {} c).cursor (modifiers {} d).cursor ∧
        (modifiers {} d).cursor.kind = (modifiers {} c).cursor.kind := by
    have inside := read.inside lt own
    obtain ⟨same, onward⟩ := modifiers_reads {} inside alike
    exact ⟨same, onward, onward.kind_eq inside⟩
  unfold member at h
  split at h
  · next word =>
    obtain ⟨decl, own, h⟩ := Except.bind_ok.mp h
    cases h
    obtain ⟨decl', own', same, final⟩ := importDecl_reads own ahead alike
    unfold member
    exact ⟨_, (if_pos (kinds.trans word)).trans (Except.bind_ok.mpr ⟨decl', own', rfl⟩),
      congrArg Member.imports same, final⟩
  · next definition =>
    split at h
    · cases h
    · next inner =>
      have definition' : d.kind ≠ .keyword .kwImport := kinds ▸ definition
      have inner' : d.kind ≠ .keyword .kwExport := kinds ▸ inner
      simp only at h
      split at h
      · next word =>
        split at h
        · cases h
        · next inside =>
          split at h
          · cases h
          · next one =>
            obtain ⟨val, own, h⟩ := Except.bind_ok.mp h
            cases h
            obtain ⟨given, onward, start⟩ :=
              behind (valBinding_completes own) val.follows.lt ahead.suffix
            obtain ⟨val', own', same, final⟩ := valBinding_reads own ahead onward
            obtain ⟨q, done, place, value⟩ := member_val definition' inner' (start.trans word) given
              (by simpa using inside) (by simpa using one) own'
            refine ⟨q, done, ?_, place ▸ final⟩
            simp only [ValBinding.unplaced, ValBinding.mk.injEq, true_and] at same
            rw [value]
            simp only [Member.unplaced, ValDecl.unplaced, same]
      · next word =>
        split at h
        · cases h
        · next plain =>
          split at h
          · next outside =>
            split at h
            · cases h
            · next bare =>
              obtain ⟨decl, own, h⟩ := Except.bind_ok.mp h
              cases h
              obtain ⟨given, onward, start⟩ :=
                behind (foreignDecl_completes own) decl.follows.lt ahead.suffix
              obtain ⟨decl', own', same, final⟩ := foreignDecl_reads own ahead onward
              have only : (modifiers {} c).value = { isForeign := true } := by
                generalize (modifiers {} c).value = own at plain outside bare
                cases own
                simp_all
              obtain ⟨q, done, place, value⟩ :=
                member_foreign definition' inner' (start.trans word) (given.trans only) own'
              refine ⟨q, done, ?_, place ▸ final⟩
              rw [value]
              exact congrArg Member.foreign same
          · next inside =>
            obtain ⟨decl, own, h⟩ := Except.bind_ok.mp h
            cases h
            obtain ⟨given, onward, start⟩ :=
              behind (defDecl_completes own) decl.follows.lt ahead.suffix
            obtain ⟨decl', own', same, final⟩ := defDecl_reads own ahead onward
            obtain ⟨q, done, place, value⟩ := member_func definition' inner' (start.trans word)
              given (by simpa using inside) (by simpa using plain) rfl own'
            refine ⟨q, done, ?_, place ▸ final⟩
            rw [value]
            exact congrArg Member.func same
      · next word =>
        split at h
        · next bare =>
          obtain ⟨decl, own, h⟩ := Except.bind_ok.mp h
          cases h
          obtain ⟨given, onward, start⟩ :=
            behind (container_completes own) decl.follows.lt ahead.suffix
          obtain ⟨decl', own', same, final⟩ := container_reads own ahead onward
          obtain ⟨q, done, place, value⟩ := member_container .classKind definition'
            inner' (start.trans word) (given ▸ bare) own'
          refine ⟨q, done, ?_, place ▸ final⟩
          rw [value]
          exact congrArg Member.container same
        · cases h
      · next word =>
        split at h
        · next bare =>
          obtain ⟨decl, own, h⟩ := Except.bind_ok.mp h
          cases h
          obtain ⟨given, onward, start⟩ :=
            behind (container_completes own) decl.follows.lt ahead.suffix
          obtain ⟨decl', own', same, final⟩ := container_reads own ahead onward
          obtain ⟨q, done, place, value⟩ := member_container .moduleKind definition'
            inner' (start.trans word) (given ▸ bare) own'
          refine ⟨q, done, ?_, place ▸ final⟩
          rw [value]
          exact congrArg Member.container same
        · cases h
      · split at h
        · next bare =>
          obtain ⟨value, own, h⟩ := Except.bind_ok.mp h
          cases h
          obtain ⟨given, onward, start⟩ :=
            behind (expr_phrase own).completes value.follows.lt ahead.suffix
          obtain ⟨value', own', same, final⟩ := expr_reads own ahead onward
          obtain ⟨q, done, place, read⟩ := member_expr (start ▸ (expr_phrase own).opens)
            definition' inner' (given ▸ bare) own'
          refine ⟨q, done, ?_, place ▸ final⟩
          rw [read]
          exact congrArg (Member.expr .anywhere) same
        · cases h
termination_by 4 * c.left + 1
decreasing_by all_goals omega

end

end Containers

end Parser

end ScriptShell
