import ScriptShell.Proofs.Printing.Reading

/-!
Printed imports, members and units are read back. A member is read wherever nothing continues an
expression, a unit as a whole: its canonical text is lexed and parsed into the unit it was written
from, apart from places.
-/
namespace ScriptShell

open Lexer Printer Cursor

namespace Parser

variable {c : Cursor} {tail : List Token} {glyph : Glyph} {glyphs : List Glyph}

section Imports

/-- What a list of items takes together. -/
def Selection.ofItems (items : List (Option Selector)) : Selection :=
  ⟨items.filterMap id, items.any (·.isNone)⟩

/-- One item of a selector list, in front of a comma or a brace. -/
theorem selector_at {item : Option Selector}
    (plain : ∀ selector, item = some selector → selector.name ≠ "_")
    (h : c.At (Selector.glyphs item ++ glyph :: glyphs) tail) (solid : glyph.1 ≠ .newline) :
    ∃ name own, c.expectName "import selector" = .ok name ∧
      selector name.value.lexeme name.cursor.skipNewlines = .ok own ∧
      own.value = Selection.ofItems [item] ∧
      own.cursor.skipNewlines.At (glyph :: glyphs) tail := by
  cases item with
  | none =>
    obtain ⟨name, own, text, onward⟩ := At.expectName h "import selector"
    have skip : name.cursor.skipNewlines = name.cursor := At.skipNewlines onward solid
    have twice : name.cursor.skipNewlines.skipNewlines = name.cursor := by rw [skip, skip]
    refine ⟨name, ⟨_, name.cursor.skipNewlines, .refl _⟩, own, if_pos text, rfl, ?_⟩
    show name.cursor.skipNewlines.skipNewlines.At _ _
    rw [twice]
    exact onward
  | some selected =>
    obtain ⟨name, own, text, onward⟩ := At.expectName h "import selector"
    have skip : name.cursor.skipNewlines = name.cursor :=
      At.skipNewlines onward (by simp [Punct.glyph])
    have arrow : name.cursor.skipNewlines.kind = .punct .arrow := by
      rw [skip]
      exact At.markKind onward
    have behind : name.cursor.skipNewlines.next.At
        (named selected.boundAs :: glyph :: glyphs) tail := by
      rw [skip]
      exact At.markNext onward
    have stays : name.cursor.skipNewlines.next.skipNewlines = name.cursor.skipNewlines.next :=
      At.skipNewlines behind (by simp [named])
    have start : name.cursor.skipNewlines.next.skipNewlines.At
        (named selected.boundAs :: glyph :: glyphs) tail := by
      rw [stays]
      exact behind
    obtain ⟨bound, read, given, last⟩ := At.expectName start "import alias"
    have other : ¬ name.value.lexeme = "_" := text ▸ plain selected rfl
    refine ⟨name, _, own, (if_neg other).trans ((if_pos arrow).trans
      (Except.bind_ok.mpr ⟨bound, read, rfl⟩)), ?_, ?_⟩
    · simp [Selection.ofItems, text, given]
    · show bound.cursor.skipNewlines.At _ _
      rw [At.skipNewlines last solid]
      exact last

/-- A list of items starts with a name. -/
theorem items_skip {items : List (Option Selector)} (any : items ≠ [])
    (h : c.At (listed (items.map Selector.glyphs) ++ glyphs) tail) : c.skipNewlines = c := by
  obtain ⟨item, rest, rfl⟩ := List.exists_cons_of_ne_nil any
  obtain ⟨middle, front, -⟩ := At.append h
  obtain ⟨middle, first, -⟩ := At.append front
  cases item with
  | none => exact At.skipNewlines first (by simp [Printer.named])
  | some selector => exact At.skipNewlines first (by simp [Printer.named])

theorem selectorList_at {items : List (Option Selector)} (any : items ≠ [])
    (plain : ∀ selector, some selector ∈ items → selector.name ≠ "_")
    (h : c.At (listed (items.map Selector.glyphs) ++ [Punct.closeBrace.glyph]) tail) :
    ∃ p, selectorList c = .ok p ∧ p.value = Selection.ofItems items ∧
      p.cursor.At [Punct.closeBrace.glyph] tail := by
  induction items generalizing c with
  | nil => exact absurd rfl any
  | cons item rest ih =>
    have own : ∀ selector, item = some selector → selector.name ≠ "_" :=
      fun selector same => plain selector (same ▸ List.mem_cons_self)
    unfold selectorList
    cases rest with
    | nil =>
      have last : c.At (Selector.glyphs item ++ [Punct.closeBrace.glyph]) tail := by
        simpa [listed] using h
      obtain ⟨name, taken, named, read, value, behind⟩ := selector_at own last (by simp [Punct.glyph])
      have stop : ¬ taken.cursor.skipNewlines.kind = .punct .comma := by
        rw [At.markKind behind]
        simp
      exact ⟨_, Except.bind_ok.mpr ⟨name, named, Except.bind_ok.mpr ⟨taken, read, if_neg stop⟩⟩,
        value, behind⟩
    | cons second rest =>
      have split : listed ((item :: second :: rest).map Selector.glyphs) ++
          [Punct.closeBrace.glyph] = Selector.glyphs item ++ Punct.comma.glyph ::
            (listed ((second :: rest).map Selector.glyphs) ++ [Punct.closeBrace.glyph]) := by
        simp [listed]
      rw [split] at h
      obtain ⟨name, taken, named, read, value, behind⟩ := selector_at own h (by simp [Punct.glyph])
      have onward := At.markNext behind
      have skip : taken.cursor.skipNewlines.next.skipNewlines = taken.cursor.skipNewlines.next :=
        items_skip (by simp) onward
      obtain ⟨p, more, values, final⟩ := ih (c := taken.cursor.skipNewlines.next.skipNewlines)
        (by simp) (fun selector mem => plain selector (List.mem_cons_of_mem _ mem))
        (by rw [skip]; exact onward)
      refine ⟨_, Except.bind_ok.mpr ⟨name, named, Except.bind_ok.mpr ⟨taken, read,
        (if_pos (At.markKind behind)).trans (Except.bind_ok.mpr ⟨p, more, rfl⟩)⟩⟩, ?_, final⟩
      show taken.value.append p.value = _
      rw [value, values]
      cases item <;> simp [Selection.append, Selection.ofItems]

/-- What an import takes, behind its path. -/
theorem importTaken_at {decl : Import} (valid : decl.Valid)
    (h : c.At (Punct.dot.glyph :: decl.taken) tail) :
    Gains (importRest c) id ([], ⟨decl.selectors, decl.wildcard⟩) tail := by
  have dot : c.kind = .punct .dot := At.markKind h
  have onward : c.next.At decl.taken tail := At.markNext h
  unfold importRest
  unfold Import.taken at onward
  split at onward
  · next none =>
    have empty : decl.selectors = [] := by simpa using none
    have wild : decl.wildcard = true := valid.takes.resolve_right (by simp [empty])
    have plain : ¬ c.next.kind = .punct .openBrace := by
      rw [At.nameKind onward]
      simp
    obtain ⟨segment, own, text, done⟩ := At.expectName onward "import path segment"
    refine ⟨_, (if_pos dot).trans ((if_neg plain).trans (Except.bind_ok.mpr ⟨segment, own,
      if_pos text⟩)), ?_, ?_⟩
    · simp [empty, wild]
    · show segment.cursor = _
      rw [done.rest, segment.follows.reaches.behind, (reaches_next c).behind]
  · next some =>
    have any : decl.items ≠ [] := by
      intro none
      rw [Import.items, List.append_eq_nil_iff, List.map_eq_nil_iff] at none
      simp [none.1] at some
    have brace : c.next.kind = .punct .openBrace := At.markKind onward
    have inner := At.markNext onward
    have skip : c.next.next.skipNewlines = c.next.next := items_skip any inner
    obtain ⟨list, read, value, last⟩ := selectorList_at (c := c.next.next.skipNewlines) any
      (fun selector mem => (valid.items selector mem).1.2) (by rw [skip]; exact inner)
    obtain ⟨closing, shut, -, -, done⟩ :=
      At.expectMark last "'\x7d' closing import selectors"
    refine ⟨_, (if_pos dot).trans ((if_pos brace).trans (Except.bind_ok.mpr ⟨list, read,
      Except.bind_ok.mpr ⟨closing, shut, rfl⟩⟩)), ?_, ?_⟩
    · have taken : Selection.ofItems decl.items = ⟨decl.selectors, decl.wildcard⟩ := by
        cases wild : decl.wildcard <;>
          simp [Selection.ofItems, Import.items, wild, List.filterMap_map, Function.comp_def]
      rw [id_eq, value, taken]
    · show closing.cursor = _
      rw [done.rest, closing.follows.reaches.behind, list.follows.reaches.behind, skip,
        (reaches_next _).behind, (reaches_next _).behind]

/-- Further segments are read up to what stands behind them. -/
theorem importRest_further {rest : List String} {taken : Selection}
    (names : ∀ segment ∈ rest, IsPlain segment) (h : c.At (further rest ++ glyphs) tail)
    (last : ∀ d : Cursor, d.At glyphs tail → d.behind tail = c.behind tail →
      Gains (importRest d) id ([], taken) tail) :
    Gains (importRest c) id (rest, taken) tail := by
  induction rest generalizing c with
  | nil => exact last c h rfl
  | cons segment rest ih =>
    have dot : c.kind = .punct .dot := At.markKind h
    have onward : c.next.At (named segment :: (further rest ++ glyphs)) tail := At.markNext h
    have plain : ¬ c.next.kind = .punct .openBrace := by
      rw [At.nameKind onward]
      simp
    obtain ⟨name, own, text, behind⟩ := At.expectName onward "import path segment"
    have other : ¬ name.value.lexeme = "_" := text ▸ (names segment List.mem_cons_self).2
    have place : name.cursor.behind tail = c.behind tail := by
      rw [name.follows.reaches.behind, (reaches_next c).behind]
    obtain ⟨r, more, same, final⟩ :=
      ih (fun other mem => names other (List.mem_cons_of_mem _ mem)) behind
        (fun d stands left => last d stands (left.trans place))
    rw [id_eq] at same
    unfold importRest
    refine ⟨_, (if_pos dot).trans ((if_neg plain).trans (Except.bind_ok.mpr ⟨name, own,
      (if_neg other).trans (Except.bind_ok.mpr ⟨r, more, rfl⟩)⟩)), ?_, final.trans place⟩
    simp [text, same]

/-- The parts of an import: its keyword, its first segment and the rest of it. -/
theorem importFront_at {head : String} {found : List String × Selection}
    (h : c.At (Keyword.kwImport.glyph :: named head :: glyphs) tail)
    (rest : ∀ d : Cursor, d.At glyphs tail → d.behind tail = c.behind tail →
      Gains (importRest d) id found tail) :
    ∃ keyword first r, c.expectWord .kwImport "'import'" = .ok keyword ∧
      keyword.cursor.expectName "import path" = .ok first ∧ first.value.lexeme = head ∧
      importRest first.cursor = .ok r ∧ r.value = found ∧ r.cursor = c.behind tail := by
  obtain ⟨keyword, word, -, onward⟩ := At.expectWord h "'import'"
  obtain ⟨first, own, text, onward⟩ := At.expectName onward "import path"
  have place := (keyword.follows.then first.follows).reaches.behind tail
  obtain ⟨r, read, same, final⟩ := rest first.cursor onward place
  exact ⟨keyword, first, r, word, own, text, read, same, final.trans place⟩

theorem importDecl_at {decl : Import} (valid : decl.Valid) (h : c.At decl.glyphs tail) :
    Gives (importDecl c) Import.unplaced decl.unplaced tail := by
  have rest (d : Cursor) (stands : d.At (further decl.tail ++ Punct.dot.glyph :: decl.taken) tail)
      (_ : d.behind tail = c.behind tail) :
      Gains (importRest d) id (decl.tail, ⟨decl.selectors, decl.wildcard⟩) tail :=
    importRest_further valid.tail stands fun _ ends _ => importTaken_at valid ends
  obtain ⟨keyword, first, ⟨value, behind, reaches⟩, word, own, text, more, same, final⟩ :=
    importFront_at h rest
  obtain rfl : value = (decl.tail, ⟨decl.selectors, decl.wildcard⟩) := same
  have plain : ¬ first.value.lexeme = "_" := text ▸ valid.head.2
  have takes : (decl.wildcard || !decl.selectors.isEmpty) = true := by
    rcases valid.takes with wild | some
    · simp [wild]
    · simpa using .inr some
  unfold importDecl
  refine ⟨⟨⟨keyword.value.span, first.value.lexeme, decl.tail, decl.selectors, decl.wildcard⟩,
    behind, (keyword.follows.then first.follows).trans reaches⟩,
    Except.bind_ok.mpr ⟨keyword, word, Except.bind_ok.mpr ⟨first, own,
      (if_neg plain).trans (Except.bind_ok.mpr ⟨_, more, if_pos takes⟩)⟩⟩, ?_, final⟩
  simp only [Import.unplaced, text]

/-- An import that ends in a member picks it. -/
theorem importMember_at {head member : String} {front : List String} (plain : head ≠ "_")
    (names : ∀ segment ∈ front ++ [member], IsPlain segment)
    (h : c.At (Keyword.kwImport.glyph :: named head :: further (front ++ [member])) tail)
    (stops : (c.behind tail).kind ≠ .punct .dot) :
    Gives (importDecl c) Import.unplaced ⟨.anywhere, head, front, [⟨member, member⟩], false⟩
      tail := by
  have rest (d : Cursor) (stands : d.At (further (front ++ [member])) tail)
      (place : d.behind tail = c.behind tail) :
      Gains (importRest d) id (front ++ [member], ⟨[], false⟩) tail := by
    rw [← List.append_nil (further _)] at stands
    apply importRest_further names stands
    intro last ends left
    have here : last = c.behind tail := ends.rest.trans (left.trans place)
    unfold importRest
    exact ⟨_, if_neg (here ▸ stops), rfl, ends.rest⟩
  obtain ⟨keyword, first, ⟨value, behind, reaches⟩, word, own, text, more, same, final⟩ :=
    importFront_at h rest
  obtain rfl : value = (front ++ [member], ⟨[], false⟩) := same
  have other : ¬ first.value.lexeme = "_" := text ▸ plain
  unfold importDecl
  refine ⟨⟨⟨keyword.value.span, first.value.lexeme, front, [⟨member, member⟩], false⟩, behind,
    (keyword.follows.then first.follows).trans reaches⟩,
    Except.bind_ok.mpr ⟨keyword, word, Except.bind_ok.mpr ⟨first, own,
      (if_neg other).trans (Except.bind_ok.mpr ⟨_, more, ?_⟩)⟩⟩, ?_, final⟩
  · simp only [Bool.false_or, List.isEmpty_nil, Bool.not_true, Bool.false_eq_true, if_false,
      List.getLast?_concat, List.dropLast_concat]
    rfl
  · simp only [Import.unplaced, text]

end Imports

section Definitions

theorem optionalParams_at {params : List ParamDecl} (parens : Bool)
    (valid : ∀ param ∈ params, param.Valid) (empty : parens = false → params = [])
    (h : c.At (if parens then ParamDecl.list params else []) tail)
    (stops : (c.behind tail).kind ≠ .punct .openParen) :
    ∃ r, optionalParams c = .ok r ∧
      r.value.1.map ParamDecl.unplaced = params.map ParamDecl.unplaced ∧ r.value.2 = parens ∧
      r.cursor = c.behind tail := by
  unfold optionalParams
  cases parens with
  | true =>
    obtain ⟨p, read, same, place⟩ := params_at valid h
    exact ⟨_, (if_pos (At.markKind h)).trans (Except.bind_ok.mpr ⟨p, read, rfl⟩), same, rfl, place⟩
  | false =>
    have place : c = c.behind tail := At.rest h
    have other : ¬ c.kind = .punct .openParen := by
      rw [place]
      exact stops
    exact ⟨_, if_neg other, by simp [empty rfl], rfl, place⟩

/-- A function is defined by whatever is read as an expression behind its sign. -/
theorem defDecl_with {own : String} (params : List ParamDecl) {parens : Bool}
    (ref : Option TypeRef) {implicit : Bool} {body : List Glyph} {value : Expr}
    (valid : ∀ param ∈ params, param.Valid) (empty : parens = false → params = [])
    (typed : ∀ type ∈ ref, type.Valid)
    (starts : ∃ first rest, body = first :: rest ∧ first.1 ≠ .newline)
    (reads : ∀ {d : Cursor}, d.At body tail → d.behind tail = c.behind tail →
      Gives (expr d) Expr.unplaced value tail)
    (h : c.At (Keyword.kwDef.glyph :: named own ::
      ((if parens then ParamDecl.list params else []) ++
        (TypeRef.ascribed ref ++ Punct.assign.glyph :: body))) tail) :
    Gives (defDecl implicit c) DefDecl.unplaced ⟨.anywhere, own, params.map ParamDecl.unplaced,
      parens, ref.map TypeRef.unplaced, implicit, value⟩ tail := by
  obtain ⟨keyword, word, -, onward⟩ := At.expectWord h "'def'"
  obtain ⟨name, named, text, onward⟩ := At.expectName onward "function name"
  obtain ⟨middle, front, after⟩ := At.append onward
  have stops : (name.cursor.behind middle).kind ≠ .punct .openParen := by
    obtain ⟨last, ascribed, rest⟩ := after.append
    cases ref with
    | none =>
      rw [ascribed.rest, At.markKind rest]
      simp
    | some type =>
      rw [At.markKind ascribed]
      simp
  obtain ⟨⟨⟨own', parens⟩, behind, reaches⟩, listed, same, rfl, place⟩ :=
    optionalParams_at _ valid empty front stops
  simp only at same place
  rw [← place] at after
  obtain ⟨last, front, after⟩ := At.append after
  obtain ⟨result, ascribed, typed, place'⟩ := ascription_at typed front (At.markKind after)
  rw [← place'] at after
  obtain ⟨assign, mark, -, -, onward⟩ := At.expectMark after "'='"
  have skip : assign.cursor.skipNewlines = assign.cursor := by
    obtain ⟨first, rest, rfl, solid⟩ := starts
    exact onward.skipNewlines solid
  have way := (((keyword.follows.then name.follows).trans reaches).trans result.reaches).then
    assign.follows
  have back : assign.cursor.skipNewlines.behind tail = c.behind tail := by
    rw [skip, way.reaches.behind]
  obtain ⟨body, read, same', final⟩ := reads (skip.symm ▸ onward) back
  unfold defDecl
  refine ⟨_, Except.bind_ok.mpr ⟨keyword, word, Except.bind_ok.mpr ⟨name, named,
    Except.bind_ok.mpr ⟨_, listed, Except.bind_ok.mpr ⟨result, ascribed,
      Except.bind_ok.mpr ⟨assign, mark, Except.bind_ok.mpr ⟨body, read, rfl⟩⟩⟩⟩⟩⟩, ?_,
    final.trans back⟩
  simp only [DefDecl.unplaced, text, same, typed, same']

theorem defDecl_at {decl : DefDecl} (valid : decl.Valid)
    (h : c.At (Keyword.kwDef.glyph :: named decl.name ::
      ((if decl.parens then ParamDecl.list decl.params else []) ++
        (TypeRef.ascribed decl.result ++ Punct.assign.glyph :: decl.body.glyphs))) tail)
    (ends : Ends (c.behind tail)) :
    Gives (defDecl decl.implicit c) DefDecl.unplaced decl.unplaced tail := by
  refine defDecl_with _ _ valid.params valid.parens valid.result ?_
    (fun start behind => valid_readable valid.body start (behind ▸ ends)) h
  obtain ⟨first, rest, shown, opens, -⟩ := glyphs_head decl.body
  exact ⟨first, rest, shown, fun line => by rw [line] at opens; cases opens⟩

theorem foreignDecl_at {decl : ForeignDecl} (valid : decl.Valid)
    (h : c.At (Keyword.kwDef.glyph :: named decl.name ::
      (ParamDecl.list decl.params ++ Punct.colon.glyph :: decl.result.glyphs)) tail)
    (stops : (c.behind tail).kind ≠ .punct .dot) :
    Gives (foreignDecl c) ForeignDecl.unplaced decl.unplaced tail := by
  obtain ⟨keyword, word, -, onward⟩ := At.expectWord h "'def'"
  obtain ⟨name, own, text, onward⟩ := At.expectName onward "function name"
  obtain ⟨middle, front, after⟩ := At.append onward
  obtain ⟨list, read, same, place⟩ := params_at valid.params front
  rw [← place] at after
  obtain ⟨colon, mark, -, -, onward⟩ :=
    At.expectMark after "':' and the result type of an extern def"
  have way := ((keyword.follows.then name.follows).then list.follows).then colon.follows
  have back := way.reaches.behind tail
  obtain ⟨result, typed, same', final⟩ := typeRef_at valid.result onward (back ▸ stops)
  unfold foreignDecl
  refine ⟨_, Except.bind_ok.mpr ⟨keyword, word, Except.bind_ok.mpr ⟨name, own,
    Except.bind_ok.mpr ⟨list, read, Except.bind_ok.mpr ⟨colon, mark,
      Except.bind_ok.mpr ⟨result, typed, rfl⟩⟩⟩⟩⟩, ?_, final.trans back⟩
  simp only [ForeignDecl.unplaced, text, same, same']

/-- A modifier that is given is passed. -/
theorem modifiers_flag (own : Modifiers) {more : Modifiers} {given : Bool} {word : Keyword}
    (h : c.At (flag given word ++ glyphs) tail)
    (known : own.add? (.keyword word) = some more) : ∃ d : Cursor, d.At glyphs tail ∧
      (modifiers own c).value = (modifiers (if given then more else own) d).value ∧
      (modifiers own c).cursor = (modifiers (if given then more else own) d).cursor := by
  cases given with
  | false => exact ⟨c, h, rfl, rfl⟩
  | true =>
    have kind : c.kind = .keyword word := At.wordKind h
    refine ⟨c.next, At.wordNext h, ?_⟩
    rw [modifiers]
    split
    · next none => rw [kind, known] at none; cases none
    · next other found =>
      obtain rfl : other = more := by rw [kind, known] at found; exact (Option.some.inj found).symm
      exact ⟨rfl, rfl⟩

section Members

variable {own : Modifiers}

theorem member_val {val : Parsed ValBinding (modifiers {} c).cursor}
    (definition : c.kind ≠ .keyword .kwImport) (inner : c.kind ≠ .keyword .kwExport)
    (word : (modifiers {} c).cursor.kind = .keyword .kwVal) (given : (modifiers {} c).value = own)
    (inside : own.isForeign = false) (one : (own.isLazy && own.isInline) = false)
    (read : valBinding _ = .ok val) : ∃ p, member c = .ok p ∧ p.cursor = val.cursor ∧
      p.value = .val ⟨val.value.span, val.value.name, val.value.ascription,
        if own.isLazy then .lazy else if own.isInline then .inline else .strict, own.implicit,
        val.value.init⟩ := by
  subst given
  unfold member
  rw [if_neg definition, if_neg inner]
  simp only
  split
  · exact ⟨_, (if_neg (by simp [inside])).trans ((if_neg (by simp [one])).trans
      (Except.bind_ok.mpr ⟨val, read, rfl⟩)), rfl, rfl⟩
  all_goals simp_all

theorem member_func {implicit : Bool} {decl : Parsed DefDecl (modifiers {} c).cursor}
    (definition : c.kind ≠ .keyword .kwImport) (inner : c.kind ≠ .keyword .kwExport)
    (word : (modifiers {} c).cursor.kind = .keyword .kwDef) (given : (modifiers {} c).value = own)
    (inside : own.isForeign = false) (plain : (own.isLazy || own.isInline) = false)
    (same : own.implicit = implicit) (read : defDecl implicit _ = .ok decl) :
    ∃ p, member c = .ok p ∧ p.cursor = decl.cursor ∧ p.value = .func decl.value := by
  subst given same
  unfold member
  rw [if_neg definition, if_neg inner]
  simp only
  split
  case h_2 =>
    exact ⟨_, (if_neg (by simp [plain])).trans ((if_neg (by simp [inside])).trans
      (Except.bind_ok.mpr ⟨decl, read, rfl⟩)), rfl, rfl⟩
  all_goals simp_all

theorem member_foreign {decl : Parsed ForeignDecl (modifiers {} c).cursor}
    (definition : c.kind ≠ .keyword .kwImport) (inner : c.kind ≠ .keyword .kwExport)
    (word : (modifiers {} c).cursor.kind = .keyword .kwDef)
    (given : (modifiers {} c).value = { isForeign := true })
    (read : foreignDecl _ = .ok decl) : ∃ p, member c = .ok p ∧ p.cursor = decl.cursor ∧
      p.value = .foreign decl.value := by
  unfold member
  rw [if_neg definition, if_neg inner]
  simp only
  split
  case h_2 =>
    exact ⟨_, (if_neg (by simp [given])).trans ((if_pos (by simp [given])).trans
      ((if_neg (by simp [given])).trans (Except.bind_ok.mpr ⟨decl, read, rfl⟩))), rfl, rfl⟩
  all_goals simp_all

theorem member_container (kind : ContainerKind) {decl : Parsed Container (modifiers {} c).cursor}
    (definition : c.kind ≠ .keyword .kwImport) (inner : c.kind ≠ .keyword .kwExport)
    (word : (modifiers {} c).cursor.kind = .keyword kind.word)
    (bare : (modifiers {} c).value.isNone = true)
    (read : container false kind _ = .ok decl) : ∃ p, member c = .ok p ∧ p.cursor = decl.cursor ∧
      p.value = .container decl.value := by
  unfold member
  rw [if_neg definition, if_neg inner]
  simp only
  cases kind with
  | classKind =>
    split
    case h_3 => exact ⟨_, (if_pos bare).trans (Except.bind_ok.mpr ⟨decl, read, rfl⟩), rfl, rfl⟩
    all_goals simp_all [ContainerKind.word]
  | moduleKind =>
    split
    case h_4 => exact ⟨_, (if_pos bare).trans (Except.bind_ok.mpr ⟨decl, read, rfl⟩), rfl, rfl⟩
    all_goals simp_all [ContainerKind.word]

theorem member_expr {value : Parsed Expr (modifiers {} c).cursor}
    (opens : (modifiers {} c).cursor.kind.opensExpression = true)
    (definition : c.kind ≠ .keyword .kwImport) (inner : c.kind ≠ .keyword .kwExport)
    (bare : (modifiers {} c).value.isNone = true)
    (read : expr _ = .ok value) : ∃ p, member c = .ok p ∧ p.cursor = value.cursor ∧
      p.value = .expr c.current.span value.value := by
  unfold member
  rw [if_neg definition, if_neg inner]
  simp only
  split
  case h_5 => exact ⟨_, (if_pos bare).trans (Except.bind_ok.mpr ⟨value, read, rfl⟩), rfl, rfl⟩
  all_goals (next word => rw [word] at opens; cases opens)

end Members

/-- The printed member is read wherever nothing continues an expression. -/
def MemberReadable (own : Member) : Prop :=
  ∀ {c : Cursor} {tail : List Token}, c.At own.glyphs tail → Ends (c.behind tail) →
    Gives (member c) Member.unplaced own.unplaced tail

theorem flag_kind {given : Bool} {word : Keyword} (h : c.At (flag given word ++ glyphs) tail) :
    c.kind = .keyword word ∨ c.At glyphs tail := by
  cases given with
  | true => exact .inl (At.wordKind h)
  | false => exact .inr h

theorem imports_readable {decl : Import} (valid : decl.Valid) : MemberReadable (.imports decl) := by
  intro c tail h ends
  have kind : c.kind = .keyword .kwImport := At.wordKind h
  obtain ⟨p, read, same, place⟩ := importDecl_at valid h
  unfold member
  exact ⟨_, (if_pos kind).trans (Except.bind_ok.mpr ⟨p, read, rfl⟩),
    congrArg Member.imports same, place⟩

theorem val_readable {decl : ValDecl} (valid : decl.Valid) : MemberReadable (.val decl) := by
  intro c tail h ends
  have first : c.kind = .keyword .kwImplicit ∨ c.kind = .keyword .kwLazy ∨
      c.kind = .keyword .kwInline ∨ c.kind = .keyword .kwVal := by
    rcases flag_kind h with word | h
    · exact .inl word
    rcases flag_kind h with word | h
    · exact .inr (.inl word)
    rcases flag_kind h with word | h
    · exact .inr (.inr (.inl word))
    · exact .inr (.inr (.inr (At.wordKind h)))
  obtain ⟨d, h, value, cursor⟩ := modifiers_flag {} h rfl
  obtain ⟨d', h, value', cursor'⟩ := modifiers_flag _ h rfl
  obtain ⟨start, h, value'', cursor''⟩ := modifiers_flag _ h rfl
  have kind : start.kind = .keyword .kwVal := At.wordKind h
  have none (own : Modifiers) : modifiers own start = ⟨own, start, .refl start⟩ :=
    modifiers_of_none (by rw [kind]; rfl)
  have given := value.trans (value'.trans (value''.trans (by rw [none])))
  have place := cursor.trans (cursor'.trans (cursor''.trans (by rw [none])))
  simp only at given place
  rw [← place] at h kind
  have behind := (modifiers {} c).reaches.behind tail
  obtain ⟨val, read, same, final⟩ :=
    valBinding_at valid.ascription (valid_readable valid.init) h (behind ▸ ends)
  simp only [ValBinding.unplaced, ValBinding.mk.injEq, true_and] at same
  obtain ⟨p, done, last, whole⟩ := member_val (by rcases first with w | w | w | w <;> simp [w])
    (by rcases first with w | w | w | w <;> simp [w]) kind given
    (by cases decl.implicit <;> cases decl.mode <;> rfl)
    (by cases decl.implicit <;> cases decl.mode <;> rfl) read
  refine ⟨p, done, ?_, last.trans (final.trans behind)⟩
  rw [whole]
  simp only [Member.unplaced, ValDecl.unplaced, same]
  cases decl.implicit <;> cases decl.mode <;> rfl

theorem func_readable {decl : DefDecl} (valid : decl.Valid) : MemberReadable (.func decl) := by
  intro c tail h ends
  have first : c.kind = .keyword .kwImplicit ∨ c.kind = .keyword .kwDef :=
    (flag_kind h).imp_right At.wordKind
  obtain ⟨start, h, value, cursor⟩ := modifiers_flag {} h rfl
  have kind : start.kind = .keyword .kwDef := At.wordKind h
  have none (own : Modifiers) : modifiers own start = ⟨own, start, .refl start⟩ :=
    modifiers_of_none (by rw [kind]; rfl)
  have given := value.trans (by rw [none])
  have place := cursor.trans (by rw [none])
  simp only at given place
  rw [← place] at h kind
  have behind := (modifiers {} c).reaches.behind tail
  obtain ⟨found, read, same, final⟩ := defDecl_at valid h (behind ▸ ends)
  obtain ⟨p, done, last, whole⟩ := member_func (by rcases first with w | w <;> simp [w])
    (by rcases first with w | w <;> simp [w]) kind given (by cases decl.implicit <;> rfl)
    (by cases decl.implicit <;> rfl) (by cases decl.implicit <;> rfl) read
  exact ⟨p, done, by rw [whole]; exact congrArg Member.func same, last.trans (final.trans behind)⟩

theorem foreign_readable {decl : ForeignDecl} (valid : decl.Valid) :
    MemberReadable (.foreign decl) := by
  intro c tail h ends
  have first : c.kind = .keyword .kwExtern := At.wordKind h
  have flagged : c.At (flag true .kwExtern ++ _) tail := h
  obtain ⟨start, h, value, cursor⟩ := modifiers_flag {} flagged rfl
  have kind : start.kind = .keyword .kwDef := At.wordKind h
  have none (own : Modifiers) : modifiers own start = ⟨own, start, .refl start⟩ :=
    modifiers_of_none (by rw [kind]; rfl)
  have given := value.trans (by rw [none])
  have place := cursor.trans (by rw [none])
  simp only at given place
  rw [← place] at h kind
  have behind := (modifiers {} c).reaches.behind tail
  have stops : ((modifiers {} c).cursor.behind tail).kind ≠ .punct .dot := by
    rw [behind]
    intro dot
    exact ends.dot ((past_of_kind (by simp [dot])).trans dot)
  obtain ⟨found, read, same, final⟩ := foreignDecl_at valid h stops
  obtain ⟨p, done, last, whole⟩ :=
    member_foreign (by simp [first]) (by simp [first]) kind given read
  exact ⟨p, done, by rw [whole]; exact congrArg Member.foreign same,
    last.trans (final.trans behind)⟩

theorem expr_readable {span : Span} {e : Expr} (valid : e.Valid) :
    MemberReadable (.expr span e) := by
  intro c tail h ends
  obtain ⟨first, rest, shown, opens, -⟩ := glyphs_head e
  have kind : c.kind = first.1 := by
    rw [Member.glyphs, shown] at h
    exact At.kind h (by intro line; rw [line] at opens; cases opens)
  rw [← kind] at opens
  have plain : Modifiers.add? {} c.kind = none := by
    cases added : Modifiers.add? {} c.kind with
    | none => rfl
    | some more =>
      unfold Modifiers.add? at added
      split at added
      all_goals first
        | (next word => rw [word] at opens; cases opens)
        | cases added
  have none : modifiers {} c = ⟨{}, c, .refl c⟩ := modifiers_of_none plain
  have place : (modifiers {} c).cursor = c := by rw [none]
  obtain ⟨value, read, same, final⟩ := valid_readable valid (place.symm ▸ h) (place.symm ▸ ends)
  obtain ⟨p, done, last, whole⟩ := member_expr (place.symm ▸ opens)
    (by intro word; rw [word] at opens; cases opens)
    (by intro word; rw [word] at opens; cases opens) (by rw [none]; rfl) read
  refine ⟨p, done, ?_, last.trans (final.trans ((modifiers {} c).reaches.behind tail))⟩
  rw [whole]
  exact congrArg (Member.expr .anywhere) same

end Definitions

section Containers

theorem member_head (own : Member) :
    ∃ first rest, own.glyphs = first :: rest ∧ first.1.OpensLine := by
  cases own with
  | imports decl => exact ⟨_, _, rfl, .inr rfl⟩
  | val decl =>
    obtain ⟨_, _, _, mode, implicit, _⟩ := decl
    cases implicit <;> cases mode <;> exact ⟨_, _, rfl, .inr rfl⟩
  | func decl =>
    obtain ⟨_, _, _, _, _, implicit, _⟩ := decl
    cases implicit <;> exact ⟨_, _, rfl, .inr rfl⟩
  | foreign decl => exact ⟨_, _, rfl, .inr rfl⟩
  | container decl =>
    obtain ⟨_, kind, _, _, _, _⟩ := decl
    cases kind <;> exact ⟨_, _, rfl, .inr rfl⟩
  | expr span value =>
    obtain ⟨first, rest, shown, opens, -⟩ := glyphs_head value
    exact ⟨first, rest, shown, .inl opens⟩

theorem members_lined (body : List Member) :
    Member.linesGlyphs body = lined (body.map Member.glyphs) := by
  induction body with
  | nil => rfl
  | cons first rest ih => simp [Member.linesGlyphs, lined, ih]

/-- In front of a tail with which statements end nothing continues an expression. -/
theorem ends_behind (outside : c.depth = 0) (stops : Stops tail) : Ends (c.behind tail) := by
  have stop : (c.behind tail).kind.isStop = true := isStop_of_head stops outside rfl
  refine ⟨?_, ?_, ?_⟩
  · cases found : BinaryOp.ofToken? (c.behind tail).kind with
    | none => rfl
    | some op =>
      unfold BinaryOp.ofToken? at found
      split at found
      all_goals first | (next kind => rw [kind] at stop; cases stop) | cases found
  · intro call
    rw [call] at stop
    cases stop
  · intro dot
    have resumes := resumes_rest (c.behind tail)
    rw [dot] at resumes
    exact absurd (resumes.symm.trans stops.resumes) (by simp)

/-- A line ends a statement, if the next one starts neither with a dot nor with `else`. -/
theorem At.stopsLine (h : c.At (line :: glyph :: glyphs) tail) (solid : glyph.1.isSeparator = false)
    (dot : glyph.1 ≠ .punct .dot) (word : glyph.1 ≠ .keyword .kwElse) : Stops c.rest := by
  obtain ⟨token, rest, split, own, after⟩ := h.cons
  obtain ⟨next, others, shown, rfl, -⟩ := after.cons
  have first : token.kind = .newline := congrArg Prod.fst own
  have seen : rest = next :: others := shown
  have second : next.kind ≠ .newline := TokenKind.ne_newline solid
  have dot : next.kind ≠ .punct .dot := dot
  have word : next.kind ≠ .keyword .kwElse := word
  rw [split, seen]
  exact ⟨by simp [first, TokenKind.isStop, TokenKind.isSeparator],
    by simp [Fragment.resumes, first, second, dot, word]⟩

/-- The tokens of a line are read as a member, apart from its places. -/
structure LineReads (phrase : List Glyph) (value : Member) : Prop where
  opens : ∃ first rest, phrase = first :: rest ∧ first.1.OpensLine
  reads : ∀ {c : Cursor} {tail : List Token}, c.depth = 0 → c.At phrase tail → Stops tail →
    Gives (member c) Member.unplaced value tail

theorem MemberReadable.line {own : Member} (h : MemberReadable own) :
    LineReads own.glyphs own.unplaced where
  opens := member_head own
  reads outside stands stops := h stands (ends_behind outside stops)

section Lines

variable {phrases : List (List Glyph)} {values : List Member}

theorem lines_head (each : List.Forall₂ LineReads phrases values) :
    ∃ first rest, lined phrases ++ [Punct.closeBrace.glyph] = first :: rest ∧
      first.1.isSeparator = false ∧ first.1 ≠ .punct .dot ∧ first.1 ≠ .keyword .kwElse := by
  refine lined_head fun phrase mem => ?_
  induction each with
  | nil => cases mem
  | cons first _ ih =>
    rcases List.mem_cons.mp mem with rfl | mem
    · exact first.opens
    · exact ih mem

/-- Lines are read as members up to the closing brace. -/
theorem members_at (each : List.Forall₂ LineReads phrases values) (outside : c.depth = 0)
    (h : c.At (lined phrases ++ [Punct.closeBrace.glyph]) tail) :
    ∃ r, members c = .ok r ∧ Member.unplacedAll r.value = values ∧
      r.cursor.At [Punct.closeBrace.glyph] tail := by
  induction each generalizing c with
  | nil =>
    unfold members
    exact ⟨_, if_pos (At.markKind h), rfl, h⟩
  | @cons phrase value phrases values own others ih =>
    obtain ⟨first, behind, shown, opens⟩ := own.opens
    have split : lined (phrase :: phrases) ++ [Punct.closeBrace.glyph] =
        phrase ++ line :: (lined phrases ++ [Punct.closeBrace.glyph]) := by
      simp [lined]
    rw [split] at h
    obtain ⟨middle, front, after⟩ := h.append
    have kind : c.kind = first.1 := by
      rw [shown] at front
      exact front.kind opens.ne_newline
    obtain ⟨next, more, following, solid, dot, word⟩ := lines_head others
    rw [following] at after
    obtain ⟨p, read, same, place⟩ :=
      own.reads outside front (At.stopsLine after solid dot word)
    have depth : p.cursor.depth = 0 := p.follows.reaches.depth.trans outside
    rw [← place] at after
    have separates : p.cursor.kind = .newline := after.lineKind depth
    have onward := after.skipLine solid
    rw [← following] at onward
    obtain ⟨r, more, values, final⟩ := ih (c := p.cursor.skipSeparators) depth onward
    unfold members
    rw [if_neg (kind ▸ opens.ne_closing), if_neg (kind ▸ opens.ne_end)]
    exact ⟨_, Except.bind_ok.mpr ⟨p, read, (if_neg (by simp [separates])).trans
      ((if_pos (by rw [separates]; rfl)).trans (Except.bind_ok.mpr ⟨r, more, rfl⟩))⟩,
      congrArg₂ List.cons same values, final⟩

theorem lines_readable {body : List Member} (readable : ∀ own ∈ body, MemberReadable own) :
    List.Forall₂ LineReads (body.map Member.glyphs) (Member.unplacedAll body) := by
  rw [Member.unplacedAll_eq, List.forall₂_map_left_iff, List.forall₂_map_right_iff,
    List.forall₂_same]
  exact fun own mem => MemberReadable.line (readable own mem)

end Lines

theorem container_kind {decl : Container} (h : c.At decl.glyphs tail) :
    c.kind = .keyword decl.kind.word := by
  obtain ⟨span, kind, own, exported, params, body⟩ := decl
  exact At.wordKind h

/-- A module or class is read whose body is made of lines. -/
theorem container_at (kind : ContainerKind) {own : String} {exported : Bool}
    (params : List ParamDecl) {phrases : List (List Glyph)} {values : List Member}
    (empty : kind = .moduleKind → params = []) (parameters : ∀ param ∈ params, param.Valid)
    (each : List.Forall₂ LineReads phrases values)
    (h : c.At (kind.head own params ++
      Punct.openBrace.glyph :: line :: (lined phrases ++ [Punct.closeBrace.glyph])) tail) :
    Gives (container exported kind c) Container.unplaced
      (.mk .anywhere kind own exported (params.map ParamDecl.unplaced) values) tail := by
  obtain ⟨middle, front, after⟩ := At.append h
  obtain ⟨keyword, word, -, onward⟩ := At.expectWord front
    (if kind = .classKind then "'class'" else "'module'")
  obtain ⟨name, named, text, onward⟩ := At.expectName onward
    (if kind = .classKind then "class name" else "module name")
  have brace : (name.cursor.behind middle).kind = .punct .openBrace := by
    rw [name.follows.reaches.behind, keyword.follows.reaches.behind]
    exact At.markKind after
  -- the constructor parameters, which only classes have
  have list : ∃ r : Extended (List ParamDecl) name.cursor,
      (if kind = .classKind then (do
        let list ← optionalParams name.cursor
        return ⟨list.value.1, list.cursor, list.reaches⟩)
      else return ⟨[], name.cursor, .refl name.cursor⟩ : Extend _ _) = .ok r ∧
      r.value.map ParamDecl.unplaced = params.map ParamDecl.unplaced ∧
      r.cursor = name.cursor.behind middle := by
    cases kind with
    | classKind =>
      obtain ⟨r, read, same, -, place⟩ := optionalParams_at true parameters
        (by simp) onward (by simp [brace])
      exact ⟨_, Except.bind_ok.mpr ⟨r, read, rfl⟩, same, place⟩
    | moduleKind => exact ⟨_, rfl, by simp [empty rfl], At.rest onward⟩
  obtain ⟨list, listed, same, place⟩ := list
  have reaches := (keyword.follows.then name.follows).trans list.reaches
  have start : list.cursor = c.behind middle := by
    rw [place, name.follows.reaches.behind, keyword.follows.reaches.behind]
  rw [← start] at after
  rw [← place] at brace
  obtain ⟨opening, first, -, -, inner⟩ := At.expectMark after "'\x7b'"
  obtain ⟨next, more, following, solid, -⟩ := lines_head each
  rw [following] at inner
  have lines : (opening.cursor.atDepth 0).skipSeparators.At
      (lined phrases ++ [Punct.closeBrace.glyph]) tail := by
    rw [following]
    exact At.skipLine (c := opening.cursor.atDepth 0) inner solid
  obtain ⟨r, read, values, last⟩ := members_at each rfl lines
  obtain ⟨closing, shut, -, -, done⟩ :=
    At.expectMark (c := r.cursor.atDepth c.depth) last "'\x7d'"
  have built : ∃ p, container exported kind c = .ok p ∧ p.cursor = closing.cursor ∧
      p.value = .mk keyword.value.span kind name.value.lexeme exported list.value r.value := by
    unfold container
    exact ⟨_, Except.bind_ok.mpr ⟨keyword, by cases kind <;> exact word,
      Except.bind_ok.mpr ⟨name, by cases kind <;> exact named, Except.bind_ok.mpr ⟨list, listed, (if_pos brace).trans
        (Except.bind_ok.mpr ⟨opening, first, Except.bind_ok.mpr ⟨r, read,
          Except.bind_ok.mpr ⟨closing, shut, rfl⟩⟩⟩)⟩⟩⟩, rfl, rfl⟩
  obtain ⟨p, whole, place, value⟩ := built
  refine ⟨p, whole, ?_, ?_⟩
  · rw [value]
    simp only [Container.unplaced, text, same, values]
  · have own : p.cursor = p.cursor.behind tail := place ▸ done.rest
    exact own.trans (p.follows.reaches.behind tail)

theorem container_member {decl : Container}
    (readable : ∀ {c : Cursor} {tail : List Token}, c.At decl.glyphs tail →
      Gives (container false decl.kind c) Container.unplaced decl.unplaced tail) :
    MemberReadable (.container decl) := by
  intro c tail h ends
  have word : c.kind = .keyword decl.kind.word := container_kind h
  have none : modifiers {} c = ⟨{}, c, .refl c⟩ :=
    modifiers_of_none (by rw [word]; cases decl.kind <;> rfl)
  have place : (modifiers {} c).cursor = c := by rw [none]
  obtain ⟨found, read, same, final⟩ := readable (place.symm ▸ h)
  obtain ⟨p, done, last, whole⟩ := member_container _ (by rw [word]; cases decl.kind <;> decide)
    (by rw [word]; cases decl.kind <;> decide) (place.symm ▸ word) (by rw [none]; rfl) read
  exact ⟨p, done, by rw [whole]; exact congrArg Member.container same,
    last.trans (final.trans ((modifiers {} c).reaches.behind tail))⟩

mutual

/-- Every valid member is read back. -/
theorem member_readable : {own : Member} → own.Valid → MemberReadable own
  | .imports _, h => imports_readable h
  | .val _, h => val_readable h
  | .func _, h => func_readable h
  | .foreign _, h => foreign_readable h
  | .expr .., h => expr_readable h
  | .container _, h => container_member fun own => container_readable h.2 h.1.symm own

theorem members_readable :
    {body : List Member} → Member.ValidAll body → ∀ own ∈ body, MemberReadable own
  | _ :: _, h, _, .head _ => member_readable h.1
  | _ :: _, h, own, .tail _ mem => members_readable h.2 own mem

/-- Every valid module or class is read back. -/
theorem container_readable : {decl : Container} → decl.Valid → ∀ {exported : Bool} {c : Cursor}
    {tail : List Token}, exported = decl.exported → c.At decl.glyphs tail →
    Gives (container exported decl.kind c) Container.unplaced decl.unplaced tail
  | .mk _ _ _ _ _ body, ⟨_, empty, parameters, own⟩, _, _, _, same, h => by
    rw [Container.glyphs, members_lined] at h
    exact same ▸ container_at _ _ empty parameters (lines_readable (members_readable own)) h

end

end Containers

/-- A top-level definition without its places. -/
def TopLevel.unplaced : TopLevel → TopLevel
  | .imports decl => .imports decl.unplaced
  | .item decl => .item decl.unplaced

def TopLevel.printed : TopLevel → List Glyph
  | .imports decl => decl.glyphs
  | .item decl => decl.topGlyphs

/-- The import that a definition is, if it is one. -/
def TopLevel.import? : TopLevel → Option Import
  | .imports decl => some decl
  | .item _ => none

/-- The module or class that a definition is, if it is one. -/
def TopLevel.item? : TopLevel → Option Container
  | .item decl => some decl
  | .imports _ => none

def TopLevel.Valid : TopLevel → Prop
  | .imports decl => decl.Valid
  | .item decl => decl.Valid

section Program

theorem topLevel_container {kind : ContainerKind} {start : Cursor} {exported : Bool}
    {decl : Parsed Container start} (definition : c.kind ≠ .keyword .kwImport)
    (marked : (c.kind == .keyword .kwExport) = exported)
    (place : (if c.kind == .keyword .kwExport then c.next else c) = start)
    (word : start.kind = .keyword kind.word) (read : container exported kind start = .ok decl) :
    ∃ p, topLevel c = .ok p ∧ p.cursor = decl.cursor ∧ p.value = .item decl.value := by
  subst marked place
  unfold topLevel
  rw [if_neg definition]
  simp only
  cases kind with
  | classKind =>
    split
    case h_2 => exact ⟨_, Except.bind_ok.mpr ⟨decl, read, rfl⟩, rfl, rfl⟩
    all_goals simp_all [ContainerKind.word]
  | moduleKind =>
    split
    case h_1 => exact ⟨_, Except.bind_ok.mpr ⟨decl, read, rfl⟩, rfl, rfl⟩
    all_goals simp_all [ContainerKind.word]

/-- A module or class is read as a top-level definition, perhaps behind `export`. -/
theorem topLevel_item {kind : ContainerKind} {exported : Bool} {value : Container}
    (h : c.At (flag exported .kwExport ++ kind.word.glyph :: glyphs) tail)
    (read : ∀ {start : Cursor}, start.At (kind.word.glyph :: glyphs) tail →
      Gives (container exported kind start) Container.unplaced value tail) :
    Gives (topLevel c) TopLevel.unplaced (.item value) tail := by
  obtain ⟨start, own, definition, marked, place, reaches⟩ : ∃ start : Cursor,
      start.At (kind.word.glyph :: glyphs) tail ∧ c.kind ≠ .keyword .kwImport ∧
      (c.kind == .keyword .kwExport) = exported ∧
      (if c.kind == .keyword .kwExport then c.next else c) = start ∧ c.Reaches start := by
    cases exported with
    | false =>
      have word : c.kind = .keyword kind.word := At.wordKind h
      have none : (c.kind == .keyword .kwExport) = false := by
        rw [word]
        cases kind <;> rfl
      exact ⟨c, h, by rw [word]; cases kind <;> decide, none, by simp [none], .refl c⟩
    | true =>
      have word : c.kind = .keyword .kwExport := At.wordKind h
      exact ⟨c.next, At.wordNext h, by simp [word], by simp [word], by simp [word], c.reaches_next⟩
  obtain ⟨found, read, same, final⟩ := read own
  obtain ⟨p, done, last, whole⟩ :=
    topLevel_container definition marked place (At.wordKind own) read
  exact ⟨p, done, by rw [whole]; exact congrArg TopLevel.item same,
    last.trans (final.trans (reaches.behind tail))⟩

theorem topLevel_readable {part : TopLevel} (valid : part.Valid) (h : c.At part.printed tail) :
    Gives (topLevel c) TopLevel.unplaced part.unplaced tail := by
  cases part with
  | imports decl =>
    have kind : c.kind = .keyword .kwImport := At.wordKind h
    obtain ⟨p, read, same, place⟩ := importDecl_at valid h
    unfold topLevel
    exact ⟨_, (if_pos kind).trans (Except.bind_ok.mpr ⟨p, read, rfl⟩),
      congrArg TopLevel.imports same, place⟩
  | item decl =>
    obtain ⟨span, kind, own, exported, params, body⟩ := decl
    exact topLevel_item h fun stands => container_readable valid rfl stands

theorem topLevel_head (part : TopLevel) :
    ∃ first rest, part.printed = first :: rest ∧ first.1.OpensLine := by
  cases part with
  | imports decl => exact ⟨_, _, rfl, .inr rfl⟩
  | item decl =>
    obtain ⟨_, kind, _, exported, _, _⟩ := decl
    cases exported <;> cases kind <;> exact ⟨_, _, rfl, .inr rfl⟩

/-- The tokens of a line are read as a definition, apart from its places. -/
structure ReadsAs (phrase : List Glyph) (part : TopLevel) : Prop where
  opens : ∃ first rest, phrase = first :: rest ∧ first.1.OpensLine
  reads : ∀ {c : Cursor} {tail : List Token}, c.At phrase tail →
    (c.behind tail).kind = .newline → Gives (topLevel c) TopLevel.unplaced part tail

theorem readsAs_printed {part : TopLevel} (valid : part.Valid) :
    ReadsAs part.printed part.unplaced where
  opens := topLevel_head part
  reads := fun h _ => topLevel_readable valid h

variable {phrases : List (List Glyph)} {parts : List TopLevel}

/-- In front of lines there is nothing to skip. -/
theorem lines_skip (lines : List.Forall₂ ReadsAs phrases parts) (h : c.At (lined phrases) []) :
    c.skipSeparators = c := by
  cases lines with
  | nil =>
    rw [At.rest h]
    rfl
  | cons line _ =>
    obtain ⟨glyph, others, rfl, opens⟩ := line.opens
    rw [lined, List.flatMap_cons] at h
    exact At.skipSeparators h opens.solid

/-- Lines are read up to the end of the input. -/
theorem topLevels_at (lines : List.Forall₂ ReadsAs phrases parts) (outside : c.depth = 0)
    (h : c.At (lined phrases) []) :
    ∃ found, topLevels c = .ok found ∧ found.map TopLevel.unplaced = parts := by
  induction lines generalizing c with
  | nil =>
    have ends : c.kind = .endOfInput := by
      rw [At.rest h, kind, current, visible, if_pos (show (c.behind []).depth = 0 from outside)]
      exact c.ends
    unfold topLevels
    exact ⟨[], if_pos ends, rfl⟩
  | @cons phrase part phrases parts first others ih =>
    obtain ⟨glyph, behind, shown, opens⟩ := first.opens
    have split : lined (phrase :: phrases) = phrase ++ line :: lined phrases := by simp [lined]
    rw [split] at h
    obtain ⟨middle, own, after⟩ := h.append
    have kind : c.kind = glyph.1 := by
      rw [shown] at own
      exact own.kind opens.ne_newline
    obtain ⟨p, read, same, place⟩ := first.reads own (after.lineKind outside)
    rw [← place] at after
    have depth : p.cursor.depth = 0 := p.follows.reaches.depth.trans outside
    have separates : p.cursor.kind = .newline := after.lineKind depth
    have onward : p.cursor.skipSeparators.At (lined phrases) [] := by
      cases others with
      | nil => exact after.skipLast
      | @cons second _ more _ next _ =>
        obtain ⟨glyph, behind, rfl, starts⟩ := next.opens
        have front : lined ((glyph :: behind) :: more) = glyph :: (behind ++ line :: lined more) := by
          simp [lined]
        rw [front] at after ⊢
        exact after.skipLine starts.solid
    obtain ⟨found, more, values⟩ := ih (c := p.cursor.skipSeparators) depth onward
    unfold topLevels
    rw [if_neg (kind ▸ opens.ne_end)]
    exact ⟨_, Except.bind_ok.mpr ⟨p, read, (if_pos (by simp [separates, TokenKind.isSeparator])).trans
      (Except.bind_ok.mpr ⟨found, more, rfl⟩)⟩, congrArg₂ List.cons same values⟩

end Program

end Parser

/-- A token list that ends the input, as the parser meets it. -/
theorem Cursor.ofTokens_at {tokens : List Token} {glyphs : List Glyph}
    (h : tokens.map Token.glyph = glyphs ++ [(.endOfInput, "")]) :
    (ofTokens tokens).At glyphs [] ∧ (ofTokens tokens).depth = 0 := by
  obtain ⟨own, ends, rfl, spelled, last⟩ := List.map_eq_append_iff.mp h
  obtain ⟨token, rfl, final⟩ := List.map_eq_singleton_iff.mp last
  have kind : token.kind = .endOfInput := congrArg Prod.fst final
  have start : ofTokens (own ++ [token]) = ⟨own, token, 0, kind⟩ := by
    simp [ofTokens, kind]
  rw [start]
  exact ⟨⟨own, by simp, spelled⟩, rfl⟩

open ScriptShell.Parser

/-- Lines are read as the definitions of a unit. -/
theorem parseProgram_lined {tokens : List Token} {phrases : List (List Glyph)}
    {parts : List TopLevel} (shown : tokens.map Token.glyph = lined phrases ++ [(.endOfInput, "")])
    (lines : List.Forall₂ ReadsAs phrases parts) :
    ∃ (span : Span) (found : List TopLevel), parseProgram tokens = .ok
        ⟨span, found.filterMap TopLevel.import?, found.filterMap TopLevel.item?⟩ ∧
      found.map TopLevel.unplaced = parts := by
  obtain ⟨start, outside⟩ := Cursor.ofTokens_at shown
  obtain ⟨found, read, same⟩ := topLevels_at lines outside start
  refine ⟨_, found, Except.bind_ok.mpr ⟨found, ?_, rfl⟩, same⟩
  rw [lines_skip lines start]
  exact read

/-- What is imported by definitions. -/
theorem imports_unplaced (parts : List TopLevel) :
    (parts.filterMap TopLevel.import?).map Import.unplaced =
      (parts.map TopLevel.unplaced).filterMap TopLevel.import? := by
  rw [List.map_filterMap, List.filterMap_map]
  exact List.filterMap_congr fun part _ => by cases part <;> rfl

theorem items_unplaced (parts : List TopLevel) :
    (parts.filterMap TopLevel.item?).map Container.unplaced =
      (parts.map TopLevel.unplaced).filterMap TopLevel.item? := by
  rw [List.map_filterMap, List.filterMap_map]
  exact List.filterMap_congr fun part _ => by cases part <;> rfl

namespace Program

/-- The definitions of a unit, its imports first. -/
def parts (program : Program) : List TopLevel :=
  program.imports.map TopLevel.imports ++ program.items.map TopLevel.item

theorem glyphs_parts (program : Program) :
    program.glyphs = lined (program.parts.map TopLevel.printed) := by
  simp only [glyphs, parts, List.map_append, List.map_map]
  rfl

theorem Valid.parts {program : Program} (h : program.Valid) :
    ∀ part ∈ program.parts, part.Valid := by
  intro part mem
  rcases List.mem_append.mp mem with own | own
  · obtain ⟨decl, given, rfl⟩ := List.mem_map.mp own
    exact h.imports decl given
  · obtain ⟨decl, given, rfl⟩ := List.mem_map.mp own
    exact h.items decl given

/-- A unit is known from its definitions. -/
theorem unplaced_of_parts {found : List TopLevel} {program : Program} {span : Span}
    (same : found.map TopLevel.unplaced = program.parts.map TopLevel.unplaced) :
    (Program.mk span (found.filterMap TopLevel.import?) (found.filterMap TopLevel.item?)).unplaced =
      program.unplaced := by
  have own : program.parts.filterMap TopLevel.import? = program.imports ∧
      program.parts.filterMap TopLevel.item? = program.items := by
    simp [parts, TopLevel.import?, TopLevel.item?, Function.comp_def]
  simp only [unplaced, imports_unplaced, items_unplaced, same]
  rw [← imports_unplaced, ← items_unplaced, own.1, own.2]

/-- Every unit with a text is lexed and parsed back from its canonical text, apart from its
places. -/
theorem reads_back (program : Program) (valid : program.Valid) :
    ∃ tokens read, tokenize program.text = .ok tokens ∧ parseProgram tokens = .ok read ∧
      read.unplaced = program.unplaced := by
  obtain ⟨tokens, lexed, shown⟩ := valid.lexes
  rw [glyphs_parts] at shown
  have lines : List.Forall₂ ReadsAs (program.parts.map TopLevel.printed)
      (program.parts.map TopLevel.unplaced) := by
    rw [List.forall₂_map_left_iff, List.forall₂_map_right_iff, List.forall₂_same]
    exact fun part mem => readsAs_printed (valid.parts part mem)
  obtain ⟨span, found, read, same⟩ := parseProgram_lined shown lines
  exact ⟨tokens, _, lexed, read, unplaced_of_parts same⟩

/-- A unit with an import, an exported class, and a module whose members are a value, a function
and a nested class. -/
def sampleUnit : Program where
  span := .anywhere
  imports := [⟨.anywhere, "a", ["b"], [⟨"x", "y"⟩], true⟩]
  items := [
    .mk .anywhere .classKind "C" true [⟨"p", ⟨["a", "T"], .anywhere⟩⟩] [
      .expr .anywhere (.unary .anywhere .neg (.select .anywhere (.this .anywhere) "p"))],
    .mk .anywhere .moduleKind "M" false [] [
      .val ⟨.anywhere, "s", some ⟨["Str"], .anywhere⟩, .lazy, true,
        .str .anywhere "tab\tquote\" \\ line\n"⟩,
      .func ⟨.anywhere, "f", [], false, none, false,
        .cond .anywhere (.name .anywhere "q")
          (.cond .anywhere (.name .anywhere "r") (.int .anywhere 9223372036854775807) none)
          (some (.block .anywhere [
            .val .anywhere "_" none (.new .anywhere (.name .anywhere "C") [.unit .anywhere]),
            .expr (.call .anywhere (.select .anywhere (.name .anywhere "s") "size") [])]))⟩,
      .container (.mk .anywhere .classKind "Inner" false [] [])]]

theorem reads_back_of_sample : sampleUnit.Valid ∧ ∃ tokens read,
    tokenize sampleUnit.text = .ok tokens ∧ parseProgram tokens = .ok read ∧
      read.unplaced = sampleUnit.unplaced := by
  have valid : sampleUnit.Valid := by
    constructor
    · intro decl mem
      obtain rfl := List.mem_singleton.mp mem
      exact ⟨by decide, by decide, by decide, by decide⟩
    · have names : IsName "C" ∧ IsName "p" ∧ IsName "a" ∧ IsName "T" ∧ IsName "M" ∧ IsName "s" ∧
          IsName "Str" ∧ IsName "f" ∧ IsName "q" ∧ IsName "r" ∧ IsName "_" ∧ IsName "size" ∧
          IsName "Inner" := by decide
      simp [sampleUnit, Container.Valid, Member.Valid, Member.ValidAll, Expr.Valid,
        ParamDecl.Valid, TypeRef.Valid, Container.exported, names]
      refine ⟨⟨names.2.2.2.2.2.1, ?_, ?_⟩, names.2.2.2.2.2.2.2.1, ?_, ?_, ?_, ?_⟩ <;>
      simp [Expr.Valid, Expr.ValidAll, Stmt.Valid, Stmt.ValidAll, TypeRef.Valid, Expr.IsPath,
        maxLiteral, names]
  exact ⟨valid, reads_back sampleUnit valid⟩

end Program

end ScriptShell
