import ScriptShell.Proofs.Containment.Wrapping

/-!
What the imports of a preamble are read as. The text of an entry made of words has one list of tokens, and
there is one import that all of them can be read as: it picks the one member that the entry stands for, under
the name of the entry, or all members. Where `_` stands inside a path, the import ends there and the rest is
read as nothing.
-/
namespace ScriptShell

open Lexer Fragment

/-- An entry that can be written down as an import. If it stands for all members, it is written with `_`. -/
structure ImportEntry.Legible (entry : ImportEntry) : Prop where
  worded : entry.Worded
  all : entry.wildcard = true → entry.source = "_" ∧ entry.name = "_"

/-- What an import takes for an entry: all members, or one under the name of the entry. -/
inductive ImportEntry.Picks (entry : ImportEntry) (decl : Import) : Prop where
  | all (source : entry.source = "_") (name : entry.name = "_") (none : decl.selectors = [])
      (wildcard : decl.wildcard = true)
  | one (source : entry.source ≠ "_") (only : decl.selectors = [⟨entry.source, entry.name⟩])
      (named : decl.wildcard = false)

/-- Glyphs in front of newlines are told apart from them. -/
theorem append_newlines_cancel {part other lines more : List Glyph}
    (lined : ∀ line ∈ lines, line.1 = .newline) (lined' : ∀ line ∈ more, line.1 = .newline)
    (ends : ∀ last ∈ part.getLast?, last.1 ≠ .newline) (ends' : ∀ last ∈ other.getLast?, last.1 ≠ .newline)
    (same : part ++ lines = other ++ more) : part = other := by
  have strip : ∀ {part lines : List Glyph}, (∀ line ∈ lines, line.1 = .newline) →
      (∀ last ∈ part.getLast?, last.1 ≠ .newline) →
      (part ++ lines).rdropWhile (fun glyph => glyph.1 = .newline) = part := by
    intro part lines lined ends
    unfold List.rdropWhile
    rw [List.reverse_append, List.dropWhile_append_of_pos (by simpa using lined)]
    cases last : part.reverse with
    | nil => simp [List.reverse_eq_nil_iff.mp last]
    | cons glyph rest =>
      have tail : part.getLast? = some glyph := by rw [← List.head?_reverse, last]; rfl
      rw [List.dropWhile_cons_of_neg (by simpa using ends glyph tail), ← last, List.reverse_reverse]
  rw [← strip lined ends, same, strip lined' ends']

/-- A word is an identifier or a keyword. -/
theorem wordGlyph_kind (word : List Char) :
    (wordGlyph word).1 = .identifier ∨ ∃ own, (wordGlyph word).1 = .keyword own := by
  rw [wordGlyph]
  cases Keyword.ofText? (String.ofList word) <;> simp

theorem ImportEntry.memberGlyphs_ends (entry : ImportEntry) (segments : List String) :
    ∀ last ∈ ((.keyword .kwImport, Keyword.kwImport.text) :: (dotted segments ++ entry.memberGlyphs)).getLast?,
      last.1 ≠ .newline := by
  have word (name : List Char) : (wordGlyph name).1 ≠ .newline := by
    rcases wordGlyph_kind name with kind | ⟨own, kind⟩ <;> simp [kind]
  intro last tail
  rw [← List.cons_append, List.getLast?_append] at tail
  unfold memberGlyphs at tail
  split at tail
  · cases tail
    exact word _
  · split at tail
    · cases tail
      exact word _
    · cases tail
      simp

namespace Sentence

/-- A text is one sentence only. -/
theorem unique {text : List Char} {part other : List Glyph} (h : Sentence text part)
    (k : Sentence text other) (ends : ∀ last ∈ part.getLast?, last.1 ≠ .newline)
    (ends' : ∀ last ∈ other.getLast?, last.1 ≠ .newline) : part = other := by
  obtain ⟨lines, -, lined, spells⟩ := h.spells
  obtain ⟨more, -, lined', spells'⟩ := k.spells
  have whole := spells []
  rw [spells' []] at whole
  rw [spell_nil, Option.map_some, Option.map_some, Option.some.injEq,
    List.append_cancel_right_eq] at whole
  exact append_newlines_cancel lined lined' ends ends' whole.symm

end Sentence

namespace Parser

open Cursor

/-- The last token of a member is no newline. -/
theorem MemberOf.ends {part : List Token} {value : Member} (h : MemberOf part value) :
    ∀ last ∈ part.getLast?, last.kind ≠ .newline := by
  obtain ⟨c, p, outside, split, parsed, rfl⟩ := h
  obtain ⟨read, took⟩ := member_completes parsed
  obtain rfl : read = part := List.append_cancel_right (took.rest.symm.trans split)
  intro last tail line
  have closes := took.last last tail
  rw [line] at closes
  cases closes

theorem glyph_eq {token : Token} {kind : TokenKind} {text : String} (h : token.glyph = (kind, text)) :
    token.kind = kind ∧ token.lexeme = text :=
  ⟨congrArg Prod.fst h, congrArg Prod.snd h⟩

/-- A name that is read at a word is the word. -/
theorem expectName_word {c : Cursor} {what word : String} {token : Token} {rest : List Token}
    {p : Parsed Token c} (outside : c.depth = 0) (split : c.rest = token :: rest)
    (spelled : token.glyph = wordGlyph word.toList) (h : c.expectName what = .ok p) :
    p.value.lexeme = word ∧ p.cursor.rest = rest ∧ p.cursor.depth = 0 := by
  obtain ⟨-, value, cursor⟩ := expectName_ok h
  have lexeme : token.lexeme = String.ofList word.toList := congrArg Prod.snd spelled
  rw [value, cursor, current_of_rest outside split, lexeme, String.ofList_toList]
  exact ⟨rfl, next_of_rest outside split, outside⟩

/-- Newlines are skipped where none stands. -/
theorem skipNewlines_rest {c : Cursor} {token : Token} {rest : List Token} (split : c.rest = token :: rest)
    (solid : token.kind ≠ .newline) : c.skipNewlines.rest = token :: rest := by
  show c.rest.dropWhile _ = _
  rw [split, List.dropWhile_cons_of_neg (by simpa using solid)]

theorem wordGlyph_solid {token : Token} {word : List Char} (spelled : token.glyph = wordGlyph word) :
    token.kind ≠ .newline ∧ token.kind ≠ .punct .openBrace := by
  rw [show token.kind = (wordGlyph word).1 from congrArg Prod.fst spelled]
  rcases wordGlyph_kind word with kind | ⟨own, kind⟩ <;> simp [kind]

/-- Where nothing more is read, an import takes nothing more from its path. -/
theorem importRest_none {c : Cursor} {r : Extended (List String × Selection) c} (h : importRest c = .ok r)
    (stays : c.left ≤ r.cursor.left) : r.value = ([], ⟨[], false⟩) := by
  unfold importRest at h
  split at h
  · exfalso
    have dot := c.reaches_next
    simp only at h
    split at h
    · have start := (dot.trans c.next.reaches_next).trans c.next.next.reaches_skipNewlines
      obtain ⟨list, -, h⟩ := Except.bind_ok.mp h
      obtain ⟨closing, -, h⟩ := Except.bind_ok.mp h
      cases h
      exact Nat.not_lt.mpr stays (start.follows (list.follows.then closing.follows)).lt
    · obtain ⟨segment, -, h⟩ := Except.bind_ok.mp h
      have follows := dot.follows segment.follows
      split at h
      · cases h
        exact Nat.not_lt.mpr stays follows.lt
      · obtain ⟨rest, -, h⟩ := Except.bind_ok.mp h
        cases h
        exact Nat.not_lt.mpr stays (follows.trans rest.reaches).lt
  · cases h
    rfl

/-- What an import takes behind its first segment, for an entry. -/
def TakenFor (entry : ImportEntry) (taken : List String × Selection) : Prop :=
  (entry.source = "_" ∧ entry.name = "_" ∧ taken.2 = ⟨[], true⟩) ∨
    (entry.source ≠ "_" ∧ (taken.2 = ⟨[⟨entry.source, entry.name⟩], false⟩ ∨
      taken.2 = ⟨[], false⟩ ∧ taken.1.getLast? = some entry.source ∧ entry.name = entry.source))

/-- A name in front of an arrow and another name. -/
theorem selector_pair {c : Cursor} {source name : String} {arrow bound : Token} {rest : List Token}
    {r : Extended Selection c} (outside : c.depth = 0) (split : c.rest = arrow :: bound :: rest)
    (arrows : arrow.kind = .punct .arrow) (bounds : bound.glyph = wordGlyph name.toList)
    (h : selector source c = .ok r) : r.cursor.depth = 0 ∧ (source = "_" ∧ r.cursor.rest = c.rest ∨
      source ≠ "_" ∧ r.value = ⟨[⟨source, name⟩], false⟩ ∧ r.cursor.rest = rest) := by
  unfold selector at h
  split at h
  next all =>
    cases h
    exact ⟨outside, .inl ⟨all, rfl⟩⟩
  next plain =>
    rw [if_pos ((kind_of_rest outside split).trans arrows)] at h
    obtain ⟨own, named, h⟩ := Except.bind_ok.mp h
    cases h
    have start := skipNewlines_rest (next_of_rest outside split) (wordGlyph_solid bounds).1
    have depth : c.next.skipNewlines.depth = 0 := outside
    obtain ⟨lexeme, behind, depth⟩ := expectName_word depth start bounds named
    refine ⟨depth, .inr ⟨plain, ?_, behind⟩⟩
    rw [lexeme]

/-- A member with another name, between braces. -/
theorem selectorList_pair {c : Cursor} {source name : String} {first arrow bound closing : Token}
    {after : List Token} {p : Parsed Selection c} (outside : c.depth = 0)
    (split : c.rest = first :: arrow :: bound :: closing :: after)
    (firsts : first.glyph = wordGlyph source.toList) (arrows : arrow.kind = .punct .arrow)
    (bounds : bound.glyph = wordGlyph name.toList) (closings : closing.kind = .punct .closeBrace)
    (h : selectorList c = .ok p) (closes : p.cursor.kind = .punct .closeBrace) :
    source ≠ "_" ∧ p.value = ⟨[⟨source, name⟩], false⟩ := by
  unfold selectorList at h
  obtain ⟨own, named, h⟩ := Except.bind_ok.mp h
  obtain ⟨lexeme, behind, depth⟩ := expectName_word outside split firsts named
  obtain ⟨taken, selects, h⟩ := Except.bind_ok.mp h
  have start := skipNewlines_rest behind (by rw [arrows]; simp)
  rw [lexeme] at selects
  have depth : own.cursor.skipNewlines.depth = 0 := depth
  obtain ⟨inner, ways⟩ := selector_pair depth start arrows bounds selects
  have inner : taken.cursor.skipNewlines.depth = 0 := inner
  simp only at h
  rcases ways with ⟨-, stays⟩ | ⟨plain, value, last⟩
  · -- the arrow is left over
    have kind : taken.cursor.skipNewlines.kind = .punct .arrow :=
      (kind_of_rest inner (skipNewlines_rest (stays.trans start) (by rw [arrows]; simp))).trans arrows
    rw [if_neg (by rw [kind]; simp)] at h
    cases h
    rw [kind] at closes
    cases closes
  · have kind : taken.cursor.skipNewlines.kind = .punct .closeBrace :=
      (kind_of_rest inner (skipNewlines_rest last (by rw [closings]; simp))).trans closings
    rw [if_neg (by rw [kind]; simp)] at h
    cases h
    exact ⟨plain, value⟩

/-- What is read behind the last dot of an entry. -/
theorem importRest_member {entry : ImportEntry} (legible : entry.Legible) {c : Cursor} {dot : Token}
    {part after : List Token} {r : Extended (List String × Selection) c} (outside : c.depth = 0)
    (split : c.rest = dot :: (part ++ after)) (dots : dot.kind = .punct .dot)
    (spelled : part.map Token.glyph = entry.memberGlyphs) (h : importRest c = .ok r)
    (whole : r.cursor.rest = after) : TakenFor entry r.value := by
  unfold importRest at h
  rw [if_pos ((kind_of_rest outside split).trans dots)] at h
  have next : c.next.rest = part ++ after := next_of_rest outside split
  have inside : c.next.depth = 0 := outside
  simp only at h
  have word : ∀ {name : String}, part.map Token.glyph = [wordGlyph name.toList] →
      (name = "_" ∧ r.value = ([], ⟨[], true⟩)) ∨ (name ≠ "_" ∧ r.value = ([name], ⟨[], false⟩)) := by
    intro name own
    obtain ⟨token, none, rfl, tokens, nones⟩ := List.map_eq_cons_iff.mp own
    obtain rfl : none = [] := by simpa using nones
    have kind : c.next.kind ≠ .punct .openBrace := by
      rw [kind_of_rest inside next]
      exact (wordGlyph_solid tokens).2
    rw [if_neg kind] at h
    obtain ⟨segment, named, h⟩ := Except.bind_ok.mp h
    obtain ⟨lexeme, behind, depth⟩ := expectName_word inside next tokens named
    rw [lexeme] at h
    split at h
    next all =>
      cases h
      exact .inl ⟨all, rfl⟩
    next plain =>
      obtain ⟨rest, more, h⟩ := Except.bind_ok.mp h
      cases h
      have stays : segment.cursor.left ≤ rest.cursor.left := by
        show segment.cursor.rest.length ≤ rest.cursor.rest.length
        rw [behind, whole]
        exact Nat.le_refl _
      have none := importRest_none more stays
      refine .inr ⟨plain, ?_⟩
      rw [none]
  unfold ImportEntry.memberGlyphs at spelled
  split at spelled
  next all =>
    obtain ⟨source, name⟩ := legible.all all
    rcases word spelled with ⟨-, value⟩ | ⟨other, -⟩
    · exact .inl ⟨source, name, congrArg Prod.snd value⟩
    · exact absurd rfl other
  next =>
    split at spelled
    next same =>
      rcases word spelled with ⟨source, value⟩ | ⟨plain, value⟩
      · exact .inl ⟨source, same.trans source, congrArg Prod.snd value⟩
      · refine .inr ⟨plain, .inr ⟨congrArg Prod.snd value, ?_, same⟩⟩
        rw [value]
        rfl
    next =>
      obtain ⟨brace, tail, rfl, braces, tails⟩ := List.map_eq_cons_iff.mp spelled
      obtain ⟨first, tail, rfl, firsts, tails⟩ := List.map_eq_cons_iff.mp tails
      obtain ⟨arrow, tail, rfl, arrows, tails⟩ := List.map_eq_cons_iff.mp tails
      obtain ⟨bound, tail, rfl, bounds, tails⟩ := List.map_eq_cons_iff.mp tails
      obtain ⟨closing, none, rfl, closings, nones⟩ := List.map_eq_cons_iff.mp tails
      obtain rfl : none = [] := by simpa using nones
      rw [if_pos ((kind_of_rest inside next).trans (glyph_eq braces).1)] at h
      obtain ⟨list, listed, h⟩ := Except.bind_ok.mp h
      obtain ⟨last, closed, h⟩ := Except.bind_ok.mp h
      cases h
      have start := skipNewlines_rest (next_of_rest inside next) (wordGlyph_solid firsts).1
      have depth : c.next.next.skipNewlines.depth = 0 := outside
      obtain ⟨plain, value⟩ := selectorList_pair depth start firsts (glyph_eq arrows).1 bounds
        (glyph_eq closings).1 listed (expectMark_ok closed).1
      exact .inr ⟨plain, .inl value⟩

theorem TakenFor.cons {entry : ImportEntry} {segments : List String} {taken : Selection}
    (h : TakenFor entry (segments, taken)) (segment : String) : TakenFor entry (segment :: segments, taken) := by
  rcases h with all | ⟨plain, pair | ⟨only, last, same⟩⟩
  · exact .inl all
  · exact .inr ⟨plain, .inl pair⟩
  · refine .inr ⟨plain, .inr ⟨only, ?_, same⟩⟩
    rw [List.getLast?_cons, show segments.getLast? = some entry.source from last]
    rfl

/-- What is read behind the first segment of an entry. The induction is on the segments behind it. -/
theorem importRest_entry {entry : ImportEntry} (legible : entry.Legible) {segments : List String} {c : Cursor}
    {dot : Token} {part after : List Token} {r : Extended (List String × Selection) c} (outside : c.depth = 0)
    (split : c.rest = dot :: (part ++ after)) (dots : dot.kind = .punct .dot)
    (spelled : part.map Token.glyph = dotted segments ++ entry.memberGlyphs) (h : importRest c = .ok r)
    (whole : r.cursor.rest = after) : TakenFor entry r.value := by
  induction segments generalizing c dot part with
  | nil => exact importRest_member legible outside split dots spelled h whole
  | cons segment rest ih =>
    obtain ⟨word, tail, rfl, words, tails⟩ := List.map_eq_cons_iff.mp spelled
    obtain ⟨second, tail, rfl, seconds, tails⟩ := List.map_eq_cons_iff.mp tails
    have next : c.next.rest = word :: (second :: tail ++ after) := next_of_rest outside split
    have inside : c.next.depth = 0 := outside
    unfold importRest at h
    rw [if_pos ((kind_of_rest outside split).trans dots)] at h
    have kind : c.next.kind ≠ .punct .openBrace := by
      rw [kind_of_rest inside next]
      exact (wordGlyph_solid words).2
    simp only [kind, if_false] at h
    obtain ⟨own, named, h⟩ := Except.bind_ok.mp h
    obtain ⟨lexeme, behind, depth⟩ := expectName_word inside next words named
    split at h
    · -- the import ends at a segment that stands for all members, but not all of it was read
      cases h
      have size := congrArg List.length (behind.symm.trans whole)
      simp only [List.cons_append, List.length_cons, List.length_append] at size
      omega
    · obtain ⟨others, more, h⟩ := Except.bind_ok.mp h
      cases h
      have own := ih depth behind (glyph_eq seconds).1 tails more whole
      exact TakenFor.cons own _

/-- The import that is read from the tokens of an entry picks what the entry stands for. -/
theorem importDecl_picks {entry : ImportEntry} (legible : entry.Legible) {segments : List String}
    (some : segments ≠ []) {c : Cursor} {part after : List Token} {p : Parsed Import c} (outside : c.depth = 0)
    (split : c.rest = part ++ after) (spelled : part.map Token.glyph =
      (.keyword .kwImport, Keyword.kwImport.text) :: (dotted segments ++ entry.memberGlyphs))
    (h : importDecl c = .ok p) (whole : p.cursor.rest = after) : entry.Picks p.value := by
  obtain ⟨head, rest, rfl⟩ := List.exists_cons_of_ne_nil some
  obtain ⟨keyword, tail, rfl, -, tails⟩ := List.map_eq_cons_iff.mp spelled
  obtain ⟨first, tail, rfl, firsts, tails⟩ := List.map_eq_cons_iff.mp tails
  obtain ⟨dot, tail, rfl, dots, tails⟩ := List.map_eq_cons_iff.mp tails
  unfold importDecl at h
  obtain ⟨word, keyed, h⟩ := Except.bind_ok.mp h
  obtain ⟨name, named, h⟩ := Except.bind_ok.mp h
  have next : word.cursor.rest = first :: (dot :: tail ++ after) := by
    rw [(expectWord_ok keyed).2.2]
    exact next_of_rest outside split
  have depth : word.cursor.depth = 0 := word.follows.reaches.depth.trans outside
  obtain ⟨-, behind, depth⟩ := expectName_word depth next firsts named
  simp only at h
  split at h
  · cases h
  · obtain ⟨taken, more, h⟩ := Except.bind_ok.mp h
    have read (whole : taken.cursor.rest = after) : TakenFor entry taken.value :=
      importRest_entry legible depth behind (glyph_eq dots).1 tails more whole
    split at h
    next qualified =>
      cases h
      rcases read whole with ⟨source, name, all⟩ | ⟨plain, pair | ⟨only, -, -⟩⟩
      · exact .all source name (by rw [all]) (by rw [all])
      · exact .one plain (by rw [pair]) (by rw [pair])
      · rw [only] at qualified
        cases qualified
    next unqualified =>
      split at h
      · cases h
      next last ends =>
        cases h
        rcases read whole with ⟨-, -, all⟩ | ⟨plain, pair | ⟨-, member, same⟩⟩
        · rw [all] at unqualified
          exact absurd rfl unqualified
        · rw [pair] at unqualified
          exact absurd rfl unqualified
        · obtain rfl : last = entry.source := Option.some.inj (ends.symm.trans member)
          exact .one plain (by rw [same]) rfl

/-- The import that is read from the line of an entry picks what the entry stands for. -/
theorem ReadFrom.picks {entry : ImportEntry} (legible : entry.Legible) {decl : Import}
    (h : ReadFrom entry.render (.imports decl)) : entry.Picks decl := by
  obtain ⟨part, sentence, own, -⟩ := h
  obtain ⟨segments, some, written⟩ := legible.worded.glyphs
  have ends : ∀ last ∈ (part.map Token.glyph).getLast?, last.1 ≠ .newline := by
    intro last tail
    rw [List.getLast?_map] at tail
    obtain ⟨token, found, rfl⟩ := Option.map_eq_some_iff.mp tail
    exact own.ends token found
  have spelled := sentence.unique written ends (entry.memberGlyphs_ends segments)
  obtain ⟨c, p, outside, split, parsed, same⟩ := own
  have way := member_at parsed
  generalize p.value = value, p.cursor = d at way same split
  cases way with
  | imports word read =>
    cases same
    exact importDecl_picks legible some outside split spelled read rfl
  | _ => cases same

end Parser

end ScriptShell
