import ScriptShell.Proofs.Containment.Wrapping

/-!
The names of a unit. Whatever is read as a name is an identifier, and identifiers are words; so
the names that a unit declares are words, and so are those that its imports mention.
-/
namespace ScriptShell

open Lexer

/-- The names that an import mentions are words. -/
structure Import.Words (decl : Import) : Prop where
  path : ∀ segment ∈ decl.path, IsWord segment.toList
  selectors : ∀ selector ∈ decl.selectors,
    IsWord selector.name.toList ∧ IsWord selector.boundAs.toList

/-- The path of an import with a member behind it. -/
theorem Import.Words.behind {decl : Import} (h : decl.Words) {name : String} (word : IsWord name.toList) :
    ∀ segment ∈ decl.head :: (decl.tail ++ [name]), IsWord segment.toList := by
  have path : ∀ segment ∈ decl.head :: decl.tail, IsWord segment.toList := h.path
  rw [← List.cons_append, List.forall_mem_append]
  exact ⟨path, by simpa using word⟩

mutual

/-- The names of a member and of what it holds are words. -/
def Member.Words : Member → Prop
  | .imports decl => decl.Words
  | .val decl => IsWord decl.name.toList
  | .func decl => IsWord decl.name.toList
  | .foreign decl => IsWord decl.name.toList
  | .container decl => Container.Words decl
  | .expr _ _ => True

/-- The names of a container and of what it holds are words. -/
def Container.Words : Container → Prop
  | .mk _ _ name _ _ members => IsWord name.toList ∧ Member.WordsAll members

def Member.WordsAll : List Member → Prop
  | [] => True
  | member :: rest => member.Words ∧ Member.WordsAll rest

end

theorem Member.wordsAll_iff {members : List Member} :
    WordsAll members ↔ ∀ member ∈ members, member.Words := by
  induction members with
  | nil => simp [WordsAll]
  | cons member rest ih => simp [WordsAll, ih]

theorem Container.Words.name {decl : Container} (h : decl.Words) : IsWord decl.name.toList := by
  cases decl with
  | mk => simp only [Container.Words] at h; exact h.1

theorem Container.Words.members {decl : Container} (h : decl.Words) :
    ∀ member ∈ decl.members, member.Words := by
  cases decl with
  | mk => simp only [Container.Words] at h; exact Member.wordsAll_iff.mp h.2

/-- The names of a unit are words. -/
structure Program.Words (program : Program) : Prop where
  imports : ∀ decl ∈ program.imports, decl.Words
  items : ∀ item ∈ program.items, item.Words

namespace Cursor

/-- The identifiers that are not read yet are words. -/
def Words (c : Cursor) : Prop :=
  ∀ token ∈ c.rest, token.kind = .identifier → IsWord token.lexeme.toList

variable {c d : Cursor}

theorem Words.reaches (h : c.Words) (reaches : c.Reaches d) : d.Words :=
  fun token mem => h token (reaches.rest.subset mem)

theorem Words.current (h : c.Words) (kind : c.kind = .identifier) :
    IsWord c.current.lexeme.toList := by
  unfold Cursor.kind at kind
  unfold Cursor.current at kind ⊢
  cases seen : c.visible with
  | nil => rw [seen, List.headD_nil, c.ends] at kind; cases kind
  | cons token rest =>
    rw [seen] at kind
    exact h token (c.visible_suffix.subset (by simp [seen])) kind

theorem Words.name (h : c.Words) {what : String} {p : Parsed Token c}
    (named : c.expectName what = .ok p) : IsWord p.value.lexeme.toList := by
  obtain ⟨kind, value, -⟩ := expectName_ok named
  rw [value]
  exact h.current kind

end Cursor

namespace Parser

open Cursor

/-- The members that are picked have words as their names and as their aliases. -/
def Selection.Words (taken : Selection) : Prop :=
  ∀ selector ∈ taken.selectors, IsWord selector.name.toList ∧ IsWord selector.boundAs.toList

theorem Selection.Words.append {first second : Selection} (h : first.Words) (k : second.Words) :
    (first.append second).Words := by
  intro selector mem
  exact (List.mem_append.mp mem).elim (h selector) (k selector)

theorem selector_words {c : Cursor} {name : String} (words : c.Words) (own : IsWord name.toList)
    {r : Extended Selection c} (h : selector name c = .ok r) : r.value.Words := by
  unfold selector at h
  split at h
  · cases h; simp [Selection.Words]
  · split at h
    · obtain ⟨bound, named, h⟩ := Except.bind_ok.mp h
      cases h
      have bounded : IsWord bound.value.lexeme.toList :=
        (words.reaches (c.reaches_next.trans c.next.reaches_skipNewlines)).name named
      simpa [Selection.Words] using ⟨own, bounded⟩
    · cases h
      simpa [Selection.Words] using own

theorem selectorList_words {c : Cursor} (words : c.Words) {p : Parsed Selection c}
    (h : selectorList c = .ok p) : p.value.Words := by
  unfold selectorList at h
  obtain ⟨name, named, h⟩ := Except.bind_ok.mp h
  obtain ⟨own, taken, h⟩ := Except.bind_ok.mp h
  have behind := name.follows.reaches.trans name.cursor.reaches_skipNewlines
  have first := selector_words (words.reaches behind) (words.name named) taken
  simp only at h
  split at h
  · have comma := (own.cursor.reaches_skipNewlines.trans own.cursor.skipNewlines.reaches_next).trans
      own.cursor.skipNewlines.next.reaches_skipNewlines
    have := comma.le
    have := (name.follows.trans (name.cursor.reaches_skipNewlines.trans own.reaches)).lt
    obtain ⟨rest, more, h⟩ := Except.bind_ok.mp h
    cases h
    exact first.append (selectorList_words (words.reaches ((behind.trans own.reaches).trans comma)) more)
  · cases h
    exact first
termination_by c.left
decreasing_by all_goals omega

theorem importRest_words {c : Cursor} (words : c.Words) {r : Extended (List String × Selection) c}
    (h : importRest c = .ok r) :
    (∀ segment ∈ r.value.1, IsWord segment.toList) ∧ r.value.2.Words := by
  unfold importRest at h
  split at h
  · simp only at h
    split at h
    · obtain ⟨list, inner, h⟩ := Except.bind_ok.mp h
      obtain ⟨closing, -, h⟩ := Except.bind_ok.mp h
      cases h
      have start := (c.reaches_next.trans c.next.reaches_next).trans c.next.next.reaches_skipNewlines
      exact ⟨by simp, selectorList_words (words.reaches start) inner⟩
    · obtain ⟨segment, named, h⟩ := Except.bind_ok.mp h
      split at h
      · cases h
        exact ⟨by simp, by simp [Selection.Words]⟩
      · have := (c.reaches_next.follows segment.follows).lt
        obtain ⟨rest, more, h⟩ := Except.bind_ok.mp h
        cases h
        have behind := words.reaches (c.reaches_next.trans segment.follows.reaches)
        obtain ⟨segments, taken⟩ := importRest_words behind more
        exact ⟨List.forall_mem_cons.mpr ⟨(words.reaches c.reaches_next).name named, segments⟩, taken⟩
  · cases h
    exact ⟨by simp, by simp [Selection.Words]⟩
termination_by c.left
decreasing_by all_goals omega

theorem importDecl_words {c : Cursor} (words : c.Words) {p : Parsed Import c} (h : importDecl c = .ok p) :
    p.value.Words := by
  unfold importDecl at h
  obtain ⟨keyword, word, h⟩ := Except.bind_ok.mp h
  obtain ⟨first, named, h⟩ := Except.bind_ok.mp h
  have head := (words.reaches keyword.follows.reaches).name named
  simp only at h
  split at h
  · cases h
  · obtain ⟨rest, more, h⟩ := Except.bind_ok.mp h
    have behind := keyword.follows.reaches.trans first.follows.reaches
    obtain ⟨segments, taken⟩ := importRest_words (words.reaches behind) more
    split at h
    · cases h
      exact ⟨List.forall_mem_cons.mpr ⟨head, segments⟩, taken⟩
    · split at h
      · cases h
      · next last ends =>
        cases h
        have own := segments last (List.mem_of_getLast? ends)
        have front : ∀ segment ∈ rest.value.1.dropLast, IsWord segment.toList :=
          fun segment mem => segments segment ((List.dropLast_subset _) mem)
        exact ⟨List.forall_mem_cons.mpr ⟨head, front⟩, by simpa using own⟩

theorem valBinding_word {c : Cursor} (words : c.Words) {p : Parsed ValBinding c} (h : valBinding c = .ok p) :
    IsWord p.value.name.toList := by
  unfold valBinding at h
  obtain ⟨keyword, word, h⟩ := Except.bind_ok.mp h
  obtain ⟨name, named, h⟩ := Except.bind_ok.mp h
  obtain ⟨type, -, h⟩ := Except.bind_ok.mp h
  obtain ⟨assign, -, h⟩ := Except.bind_ok.mp h
  obtain ⟨init, -, h⟩ := Except.bind_ok.mp h
  cases h
  exact (words.reaches keyword.follows.reaches).name named

theorem defDecl_word {c : Cursor} (words : c.Words) {implicit : Bool} {p : Parsed DefDecl c}
    (h : defDecl implicit c = .ok p) : IsWord p.value.name.toList := by
  unfold defDecl at h
  obtain ⟨keyword, word, h⟩ := Except.bind_ok.mp h
  obtain ⟨name, named, h⟩ := Except.bind_ok.mp h
  obtain ⟨list, -, h⟩ := Except.bind_ok.mp h
  obtain ⟨result, -, h⟩ := Except.bind_ok.mp h
  obtain ⟨assign, -, h⟩ := Except.bind_ok.mp h
  obtain ⟨body, -, h⟩ := Except.bind_ok.mp h
  cases h
  exact (words.reaches keyword.follows.reaches).name named

theorem foreignDecl_word {c : Cursor} (words : c.Words) {p : Parsed ForeignDecl c}
    (h : foreignDecl c = .ok p) : IsWord p.value.name.toList := by
  unfold foreignDecl at h
  obtain ⟨keyword, word, h⟩ := Except.bind_ok.mp h
  obtain ⟨name, named, h⟩ := Except.bind_ok.mp h
  obtain ⟨list, -, h⟩ := Except.bind_ok.mp h
  obtain ⟨colon, -, h⟩ := Except.bind_ok.mp h
  obtain ⟨result, -, h⟩ := Except.bind_ok.mp h
  cases h
  exact (words.reaches keyword.follows.reaches).name named

mutual

theorem container_words {c : Cursor} (words : c.Words) {exported : Bool} {kind : ContainerKind}
    {p : Parsed Container c} (h : container exported kind c = .ok p) : p.value.Words := by
  unfold container at h
  obtain ⟨keyword, -, h⟩ := Except.bind_ok.mp h
  obtain ⟨name, named, h⟩ := Except.bind_ok.mp h
  obtain ⟨own, -, h⟩ := Except.bind_ok.mp h
  have start := (keyword.follows.then name.follows).trans own.reaches
  have title := (words.reaches keyword.follows.reaches).name named
  simp only at h
  split at h
  · obtain ⟨opening, -, h⟩ := Except.bind_ok.mp h
    have := (start.then opening.follows).lt
    have : (opening.cursor.atDepth 0).skipSeparators.left ≤ opening.cursor.left :=
      left_skipSeparators_le _
    obtain ⟨body, inner, h⟩ := Except.bind_ok.mp h
    obtain ⟨closing, -, h⟩ := Except.bind_ok.mp h
    cases h
    have inside : opening.cursor.Words := words.reaches (start.reaches.trans opening.follows.reaches)
    have inside : (opening.cursor.atDepth 0).Words := inside
    have members := members_words (inside.reaches (opening.cursor.atDepth 0).reaches_skipSeparators) inner
    simp only [Container.Words]
    exact ⟨title, Member.wordsAll_iff.mpr members⟩
  · split at h
    · cases h
    · cases h
      simp only [Container.Words, Member.WordsAll]
      exact ⟨title, trivial⟩
termination_by 4 * c.left
decreasing_by all_goals omega

theorem members_words {c : Cursor} (words : c.Words) {r : Extended (List Member) c}
    (h : members c = .ok r) : ∀ member ∈ r.value, member.Words := by
  unfold members at h
  split at h
  · cases h; simp
  · split at h
    · cases h
    · obtain ⟨first, own, h⟩ := Except.bind_ok.mp h
      have word := member_words words own
      split at h
      · cases h; simpa using word
      · split at h
        · have := first.follows.lt
          have := left_skipSeparators_le first.cursor
          obtain ⟨rest, more, h⟩ := Except.bind_ok.mp h
          cases h
          have behind := first.follows.reaches.trans first.cursor.reaches_skipSeparators
          exact List.forall_mem_cons.mpr ⟨word, members_words (words.reaches behind) more⟩
        · cases h
termination_by 4 * c.left + 2
decreasing_by all_goals omega

theorem member_words {c : Cursor} (words : c.Words) {p : Parsed Member c} (h : member c = .ok p) :
    p.value.Words := by
  have behind := words.reaches (modifiers {} c).reaches
  have := (modifiers {} c).reaches.le
  have way := member_at h
  generalize p.value = value, p.cursor = d at way ⊢
  cases way with
  | imports word read => simpa only [Member.Words] using importDecl_words words read
  | val word inside read named =>
    simpa only [Member.Words, named] using valBinding_word behind read
  | func word inside read => simpa only [Member.Words] using defDecl_word behind read
  | foreign outside read => simpa only [Member.Words] using foreignDecl_word behind read
  | container word bare read => simpa only [Member.Words] using container_words behind read
  | expr bare read => simp only [Member.Words]
termination_by 4 * c.left + 1
decreasing_by all_goals omega

end

/-- The names of a top-level definition are words. -/
def TopLevel.Words : TopLevel → Prop
  | .imports decl => decl.Words
  | .item decl => decl.Words

theorem topLevel_words {c : Cursor} (words : c.Words) {p : Parsed TopLevel c} (h : topLevel c = .ok p) :
    p.value.Words := by
  have way := topLevel_at h
  generalize p.value = value, p.cursor = d at way
  cases way with
  | imports word read => exact importDecl_words words read
  | item front read =>
    rcases front with ⟨-, rfl⟩ | ⟨-, -, rfl⟩
    · exact container_words words read
    · exact container_words (words.reaches c.reaches_next) read

theorem topLevels_words {c : Cursor} (words : c.Words) {found : List TopLevel}
    (h : topLevels c = .ok found) : ∀ value ∈ found, value.Words := by
  unfold topLevels at h
  split at h
  · cases h; simp
  · obtain ⟨first, own, h⟩ := Except.bind_ok.mp h
    split at h
    · have := (first.follows.trans first.cursor.reaches_skipSeparators).lt
      obtain ⟨rest, more, h⟩ := Except.bind_ok.mp h
      cases h
      have behind := first.follows.reaches.trans first.cursor.reaches_skipSeparators
      exact List.forall_mem_cons.mpr
        ⟨topLevel_words words own, topLevels_words (words.reaches behind) more⟩
    · cases h
termination_by c.left
decreasing_by all_goals omega

end Parser

open ScriptShell.Parser

/-- The names of a unit that is read from a text are words. -/
theorem Compiler.readSource_words {source : String} {program : Program}
    (h : readSource source = .ok program) : program.Words := by
  obtain ⟨tokens, lexes, parses⟩ := readSource_ok h
  have identifiers := (lexed_of_tokenize lexes).words
  have start : (Cursor.ofTokens tokens).Words := by
    intro token mem
    refine identifiers token ?_
    unfold Cursor.ofTokens at mem
    split at mem
    · cases mem
    · split at mem
      · exact (List.dropLast_subset _) mem
      · exact mem
  unfold parseProgram at parses
  obtain ⟨found, read, parses⟩ := Except.bind_ok.mp parses
  cases parses
  have words := topLevels_words (start.reaches (Cursor.reaches_skipSeparators _)) read
  constructor
  · intro decl mem
    obtain ⟨value, among, own⟩ := List.mem_filterMap.mp mem
    cases value with
    | imports => cases own; exact words _ among
    | item => cases own
  · intro decl mem
    obtain ⟨value, among, own⟩ := List.mem_filterMap.mp mem
    cases value with
    | imports => cases own
    | item => cases own; exact words _ among

end ScriptShell
